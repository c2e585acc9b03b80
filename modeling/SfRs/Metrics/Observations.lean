import Mathlib.Algebra.BigOperators.Group.List.Basic
import Mathlib.Algebra.Order.Ring.Nat
import SfRs.Lib.Directory
import SfRs.Lib.Machine
import SfRs.Metrics.Histogram
/-!
# Observations on histograms

A histogram handle shares the storage of its metric and the atomics of its series.  The
bounds are those of the first registration of the name.  The counts of a series have a
length of their own here, so that the branch for an index out of bounds is a branch.
-/

namespace SfRs.Metrics.Histograms

open SfRs.Lib

/-- `HistogramAtomics` with the counts as the vector they are. -/
structure Atomics where
  bucketCounts : List UInt64
  sum : ℚ
  count : UInt64

/-- A `HistogramStorage`, which refers to the atomics of its series. -/
structure Storage where
  buckets : List ℚ
  data : AList fun _ : LabelKey => Nat

/-- An `InMemoryHistogram`. -/
structure Handle where
  metrics : Nat
  atomics : Nat

structure State where
  storages : Nat → Storage
  storageCount : Nat
  atomics : Nat → Atomics
  atomicsCount : Nat
  histograms : AList fun _ : String => Nat
  handles : List Handle

/-- The operations of a program, which names its handles in the order it got them. -/
inductive Op where
  | histogram (name : String) (buckets : Option (List Value))
  | withLabels (handle : Nat) (labels : Labels)
  | withoutLabels (handle : Nat)
  | observe (handle : Nat) (v : Value)

inductive Warning where
  | differentBuckets (name : String) (provided : List Value) (existing : List ℚ)
  | observation (w : HistogramWarning)

namespace Atomics

def new (numBuckets : Nat) : Atomics where
  bucketCounts := .replicate (numBuckets + 1) 0
  sum := 0
  count := 0

/-- `InMemoryHistogram::observe`. -/
def observe (atomics : Atomics) (buckets : List ℚ) : Value → Atomics × List HistogramWarning
  | .finite v =>
      let index := bucketIndex buckets v
      let r : List UInt64 × List HistogramWarning :=
        match atomics.bucketCounts[index]? with
        | some bucketCounter => (atomics.bucketCounts.set index (bucketCounter + 1), [])
        | none =>
            (atomics.bucketCounts.modifyLast (· + 1), [.outOfBounds index buckets.length v])
      ({ bucketCounts := r.1, sum := atomics.sum + v, count := atomics.count + 1 }, r.2)
  | v => (atomics, [.nonFinite v])

end Atomics

namespace State

def init : State where
  storages := fun _ => ⟨[], ∅⟩
  storageCount := 0
  atomics := fun _ => .new 0
  atomicsCount := 0
  histograms := ∅
  handles := []

/-- The storage of the metric `name`, which is created if there is none. -/
def register (s : State) (name : String) (buckets : Option (List Value)) : Nat × State :=
  match s.histograms.lookup name with
  | some storage => (storage, s)
  | none =>
      (s.storageCount,
        { s with
          storages := Function.update s.storages s.storageCount ⟨newBuckets buckets, ∅⟩
          storageCount := s.storageCount + 1
          histograms := s.histograms.insert name s.storageCount })

/-- `HistogramStorage::get_or_create`. -/
def getOrCreate (s : State) (storage : Nat) (key : LabelKey) : Nat × State :=
  match (s.storages storage).data.lookup key with
  | some atomics => (atomics, s)
  | none =>
      (s.atomicsCount,
        { s with
          storages := Function.update s.storages storage
            { s.storages storage with
              data := (s.storages storage).data.insert key s.atomicsCount }
          atomics := Function.update s.atomics s.atomicsCount
            (.new (s.storages storage).buckets.length)
          atomicsCount := s.atomicsCount + 1 })

/-- `InMemoryHistogram::new`. -/
def newHandle (s : State) (storage : Nat) (key : LabelKey) : State :=
  let r := s.getOrCreate storage key
  { r.2 with handles := r.2.handles ++ [⟨storage, r.1⟩] }

/-- Every provided bound is within `f64::EPSILON` of the stored one. -/
def sameBuckets (provided : List Value) (existing : List ℚ) : Bool :=
  provided.length = existing.length &&
    (provided.zip existing).all fun p =>
      match p.1 with
      | .finite a => decide (|a - p.2| < 1 / 2 ^ 52)
      | _ => false

def histogram (s : State) (name : String) (buckets : Option (List Value)) :
    State × List Warning :=
  let r := s.register name buckets
  let existing := (r.2.storages r.1).buckets
  let warnings :=
    match buckets with
    | some provided =>
        if sameBuckets provided existing then []
        else [.differentBuckets name provided existing]
    | none => []
  (r.2.newHandle r.1 .empty, warnings)

def observe (s : State) (handle : Handle) (v : Value) : State × List Warning :=
  let r := (s.atomics handle.atomics).observe (s.storages handle.metrics).buckets v
  ({ s with atomics := Function.update s.atomics handle.atomics r.1 },
    r.2.map .observation)

def step (s : State) : Op → Option (State × List Warning)
  | .histogram name buckets => some (s.histogram name buckets)
  | .withLabels handle labels =>
      s.handles[handle]?.map fun h => (s.newHandle h.metrics (.new labels), [])
  | .withoutLabels handle =>
      s.handles[handle]?.map fun h => (s.newHandle h.metrics .empty, [])
  | .observe handle v => s.handles[handle]?.map fun h => s.observe h v

/-- The bounds and the atomics of the series that is stored under a name and a key. -/
def series (s : State) (name : String) (key : LabelKey) : Option (List ℚ × Atomics) :=
  (s.histograms.lookup name).bind fun storage =>
    ((s.storages storage).data.lookup key).map fun atomics =>
      ((s.storages storage).buckets, s.atomics atomics)

end State

/-- Any program on fresh metrics. -/
def inMemoryHistograms : Machine State Op Warning where
  init := .init
  step := State.step

/-! ## The history of a program -/

abbrev Series := String × LabelKey

/-- The registrations, the series of each handle, and the observations, in order. -/
structure History where
  layouts : List (String × Option (List Value))
  handles : List Series
  observations : List (Series × Value)

namespace History

def addLayout (h : History) (name : String) (buckets : Option (List Value)) : History :=
  { h with layouts := h.layouts ++ [(name, buckets)] }

def addHandle (h : History) (series : Series) : History :=
  { h with handles := h.handles ++ [series] }

def addObservation (h : History) (series : Series) (v : Value) : History :=
  { h with observations := h.observations ++ [(series, v)] }

def extend (h : History) : Op → History
  | .histogram name buckets => (h.addLayout name buckets).addHandle (name, .empty)
  | .withLabels handle labels =>
      h.handles[handle]?.elim h fun series => h.addHandle (series.1, .new labels)
  | .withoutLabels handle =>
      h.handles[handle]?.elim h fun series => h.addHandle (series.1, .empty)
  | .observe handle v => h.handles[handle]?.elim h fun series => h.addObservation series v

def ofOps (ops : List Op) : History := ops.foldl extend ⟨[], [], []⟩

/-- The buckets passed by the first registration of the name. -/
def layout (h : History) (name : String) : Option (Option (List Value)) :=
  (h.layouts.find? fun e => e.1 = name).map Prod.snd

/-- The finite values observed on a series. -/
def finite (h : History) (series : Series) : List ℚ :=
  (h.observations.filter fun e => e.1 = series).filterMap fun e => e.2.finite?

end History

/-- No registration passes a NaN. -/
def Op.NoNan : Op → Prop
  | .histogram _ buckets => .nan ∉ buckets.getD defaultBuckets
  | _ => True

/-! ## What is counted -/

/-- The bound before the bucket is below `v`, and the bound of the bucket is not. -/
def InBucket (buckets : List ℚ) (i : Nat) (v : ℚ) : Prop :=
  (i = 0 ∨ ∀ b ∈ buckets[i - 1]?, b < v) ∧ ∀ b ∈ buckets[i]?, v ≤ b

instance (buckets : List ℚ) (i : Nat) : DecidablePred (InBucket buckets i) := fun v =>
  inferInstanceAs (Decidable ((i = 0 ∨ ∀ b ∈ buckets[i - 1]?, b < v) ∧
    ∀ b ∈ buckets[i]?, v ≤ b))

/-- The atomics of a series on which the finite values `vs` were observed.  The counters
are `u64` and wrap. -/
structure Counted (buckets vs : List ℚ) (atomics : Atomics) : Prop where
  length : atomics.bucketCounts.length = buckets.length + 1
  counts : ∀ i count, atomics.bucketCounts[i]? = some count →
    count = UInt64.ofNat (vs.countP fun v => InBucket buckets i v)
  total : UInt64.ofNat (atomics.bucketCounts.map UInt64.toNat).sum = atomics.count
  count : atomics.count = UInt64.ofNat vs.length
  sum : atomics.sum = vs.sum

/-- The atomics with the counts of `observed`. -/
def ofObserved {n : Nat} (atomics : HistogramAtomics ℚ n) : Atomics :=
  ⟨atomics.bucketCounts.toList, atomics.sum, atomics.count⟩

section Counted

variable {buckets vs : List ℚ} {v : ℚ} {i : Nat}

theorem bucketIndex_eq_iff (hbuckets : buckets.Pairwise (· < ·)) (hi : i ≤ buckets.length) :
    bucketIndex buckets v = i ↔ InBucket buckets i v := by
  have hupper : bucketIndex buckets v ≤ i ↔ ∀ b ∈ buckets[i]?, v ≤ b := by
    rcases hi.lt_or_eq with hlt | rfl
    · simp [List.getElem?_eq_getElem hlt, bucketIndex_le_iff hbuckets hlt]
    · simp [bucketIndex_le_length hbuckets v]
  have hlower : i ≤ bucketIndex buckets v ↔ i = 0 ∨ ∀ b ∈ buckets[i - 1]?, b < v := by
    rcases Nat.eq_zero_or_pos i with rfl | hpos
    · simp
    · have hlt : i - 1 < buckets.length := by omega
      have hbelow := bucketIndex_le_iff (v := v) hbuckets hlt
      have hne : i ≠ 0 := hpos.ne'
      simp only [List.getElem?_eq_getElem hlt, Option.mem_some_iff, forall_eq', hne, false_or]
      rw [← not_le, ← hbelow]
      omega
  rw [InBucket, ← hupper, ← hlower]
  omega

theorem new_eq_ofObserved (buckets : List ℚ) :
    Atomics.new buckets.length = ofObserved (HistogramAtomics.observed buckets []) := by
  simp [Atomics.new, ofObserved, HistogramAtomics.observed, HistogramAtomics.new]

/-- A finite value is counted, and never out of bounds. -/
theorem observe_ofObserved (hbuckets : buckets.Pairwise (· < ·)) (vs : List ℚ) (v : ℚ) :
    (ofObserved (HistogramAtomics.observed buckets vs)).observe buckets (.finite v) =
      (ofObserved (HistogramAtomics.observed buckets (vs ++ [v])), []) := by
  have hindex := Nat.lt_succ_of_le (bucketIndex_le_length hbuckets v)
  rw [HistogramAtomics.observed_concat, HistogramAtomics.observe_finite hbuckets]
  simp [Atomics.observe, ofObserved, HistogramAtomics.increment, hindex, Vector.toList_set]

theorem sum_set {counts : List UInt64} {count : UInt64} (hcount : counts[i]? = some count) :
    UInt64.ofNat ((counts.set i (count + 1)).map UInt64.toNat).sum =
      UInt64.ofNat (counts.map UInt64.toNat).sum + 1 := by
  induction counts generalizing i with
  | nil => exact absurd hcount (by simp)
  | cons first counts ih =>
      cases i with
      | zero =>
          obtain rfl : first = count := by simpa using hcount
          simp only [List.set_cons_zero, List.map_cons, List.sum_cons, UInt64.ofNat_add,
            UInt64.ofNat_toNat]
          ac_rfl
      | succ i =>
          simp only [List.set_cons_succ, List.map_cons, List.sum_cons, UInt64.ofNat_add,
            ih (by simpa using hcount)]
          ac_rfl

/-- The counts of all buckets add up to the count. -/
theorem total_observed (hbuckets : buckets.Pairwise (· < ·)) (vs : List ℚ) :
    UInt64.ofNat ((HistogramAtomics.observed buckets vs).bucketCounts.toList.map
      UInt64.toNat).sum = (HistogramAtomics.observed buckets vs).count := by
  induction vs using List.reverseRecOn with
  | nil => simp [HistogramAtomics.observed, HistogramAtomics.new]
  | append_singleton vs v ih =>
      have hindex := Nat.lt_succ_of_le (bucketIndex_le_length hbuckets v)
      rw [HistogramAtomics.observed_concat, HistogramAtomics.observe_finite hbuckets, ← ih]
      simp only [HistogramAtomics.increment, Vector.toList_set]
      refine sum_set ?_
      simp [hindex]

theorem sum_observed (buckets vs : List ℚ) :
    (HistogramAtomics.observed buckets vs).sum = vs.sum := by
  induction vs using List.reverseRecOn with
  | nil => rfl
  | append_singleton vs v ih =>
      rw [List.sum_append, List.sum_singleton, ← ih, HistogramAtomics.observed_concat]
      rfl

theorem counted_ofObserved (hbuckets : buckets.Pairwise (· < ·)) (vs : List ℚ) :
    Counted buckets vs (ofObserved (HistogramAtomics.observed buckets vs)) where
  length := by simp [ofObserved]
  counts := by
    intro i count hcount
    obtain ⟨hi, rfl⟩ := List.getElem?_eq_some_iff.mp hcount
    have hlt : i < buckets.length + 1 := by simpa [ofObserved] using hi
    have hindex : ∀ v, bucketIndex buckets v = i ↔ InBucket buckets i v :=
      fun v => bucketIndex_eq_iff hbuckets (Nat.le_of_lt_succ hlt)
    have hcounts := HistogramAtomics.bucketCounts_observed hbuckets vs ⟨i, hlt⟩
    simp only [hindex] at hcounts
    simpa [ofObserved] using hcounts
  total := total_observed hbuckets vs
  count := HistogramAtomics.count_observed buckets vs
  sum := sum_observed buckets vs

end Counted

/-! ## What the history records -/

namespace History

variable {h : History} {series series' : Series} {name name' : String}

theorem ofOps_concat (ops : List Op) (op : Op) :
    ofOps (ops ++ [op]) = (ofOps ops).extend op := by
  rw [ofOps, List.foldl_concat]
  rfl

theorem layout_addLayout_of_some {buckets layout : Option (List Value)}
    (hlayout : h.layout name' = some layout) :
    (h.addLayout name buckets).layout name' = some layout := by
  obtain ⟨e, he, rfl⟩ := Option.map_eq_some_iff.mp hlayout
  simp [layout, addLayout, List.find?_append, he]

theorem layout_addLayout_self {buckets : Option (List Value)} (hnone : h.layout name = none) :
    (h.addLayout name buckets).layout name = some buckets := by
  simp [layout, addLayout, List.find?_append, Option.map_eq_none_iff.mp hnone]

theorem layout_addLayout_ne {buckets : Option (List Value)} (hne : name ≠ name') :
    (h.addLayout name buckets).layout name' = h.layout name' := by
  simp [layout, addLayout, List.find?_append, hne]

@[simp] theorem finite_addHandle : (h.addHandle series).finite series' = h.finite series' := rfl

theorem finite_addObservation_self (v : Value) :
    (h.addObservation series v).finite series = h.finite series ++ v.finite?.toList := by
  cases hv : v.finite? <;> simp [finite, addObservation, List.filter_append, hv]

theorem finite_addObservation_ne (hne : series ≠ series') (v : Value) :
    (h.addObservation series v).finite series' = h.finite series' := by
  simp [finite, addObservation, List.filter_append, hne]

/-- Before a series has its atomics nothing is observed on it. -/
theorem finite_eq_nil (hseries : ∀ e ∈ h.observations, e.1 ≠ series) :
    h.finite series = [] := by
  have hnone : h.observations.filter (fun e => e.1 = series) = [] :=
    List.filter_eq_nil_iff.mpr fun e he heq => hseries e he (of_decide_eq_true heq)
  rw [finite, hnone]
  rfl

end History

/-! ## The state as a directory -/

/-- The storage and the atomics that the handle refers to. -/
def Handle.ref (handle : Handle) : Nat × Nat := (handle.metrics, handle.atomics)

namespace State

/-- The storages are found by name, and the atomics in them by label key. -/
def directory (s : State) : Directory String LabelKey where
  stores name := s.histograms.lookup name
  cells storage key := (s.storages storage).data.lookup key
  storeCount := s.storageCount
  cellCount := s.atomicsCount

section

variable {s : State} {name : String} {buckets : Option (List Value)} {storage : Nat}
  {key : LabelKey}

theorem register_spec {r : Nat × State} (hr : s.register name buckets = r) :
    s.directory.findStore name = (r.1, r.2.directory) ∧ r.2.handles = s.handles ∧
      r.2.atomics = s.atomics ∧
      (∀ storage < s.storageCount, r.2.storages storage = s.storages storage) ∧
      (s.histograms.lookup name = none → (r.2.storages r.1).buckets = newBuckets buckets) := by
  subst hr
  cases hstorage : s.histograms.lookup name with
  | some storage => simp [register, Directory.findStore, directory, hstorage]
  | none =>
      simp only [register, Directory.findStore, directory, hstorage]
      refine ⟨Prod.ext rfl (Directory.ext ?_ (funext fun storage => ?_) rfl rfl), trivial,
        trivial, fun storage hlt => Function.update_of_ne hlt.ne _ _, by simp⟩
      · exact (lookup_insert_eq_update s.histograms name s.storageCount).symm
      · rcases eq_or_ne storage s.storageCount with rfl | hne
        · simp [Directory.addStore]
        · simp [Directory.addStore, hne]

theorem newHandle_spec {r : Nat × Directory String LabelKey}
    (hr : s.directory.findCell storage key = r) :
    (s.newHandle storage key).directory = r.2 ∧
      (s.newHandle storage key).handles = s.handles ++ [⟨storage, r.1⟩] ∧
      (∀ storage', ((s.newHandle storage key).storages storage').buckets =
        (s.storages storage').buckets) ∧
      (∀ cell, s.directory.cells storage key = some cell →
        (s.newHandle storage key).atomics = s.atomics) ∧
      (s.directory.cells storage key = none → (s.newHandle storage key).atomics =
        Function.update s.atomics s.atomicsCount (.new (s.storages storage).buckets.length)) := by
  subst hr
  cases hcell : (s.storages storage).data.lookup key with
  | some cell => simp [newHandle, getOrCreate, Directory.findCell, directory, hcell]
  | none =>
      simp only [newHandle, getOrCreate, Directory.findCell, directory, hcell]
      refine ⟨Directory.ext rfl (funext fun storage' => ?_) rfl rfl, trivial, fun storage' => ?_,
        by simp, by simp⟩
      · rcases eq_or_ne storage' storage with rfl | hne
        · simp [Directory.addCell, lookup_insert_eq_update]
        · simp [Directory.addCell, hne]
      · rcases eq_or_ne storage' storage with rfl | hne
        · simp
        · simp [hne]

end

end State

/-! ## The state follows the history -/

/-- The bounds of the first registration of the name. -/
def History.bounds (h : History) (name : String) : List ℚ :=
  newBuckets ((h.layout name).getD none)

/-- The atomics that a series should have. -/
def History.atomics (h : History) (series : Series) : Atomics :=
  ofObserved (HistogramAtomics.observed (h.bounds series.1) (h.finite series))

namespace State

structure Tracks (s : State) (h : History) : Prop where
  holds : s.directory.Holds s.atomics h.atomics (s.handles.map Handle.ref) h.handles
  registered : ∀ {name storage}, s.histograms.lookup name = some storage →
    ∃ layout, h.layout name = some layout ∧ .nan ∉ layout.getD defaultBuckets ∧
      (s.storages storage).buckets = newBuckets layout
  unregistered : ∀ {name}, s.histograms.lookup name = none → h.layout name = none
  observed : ∀ e ∈ h.observations, e.1 ∈ h.handles

variable {s s' : State} {h : History} {name : String} {buckets : Option (List Value)}
  {storage : Nat} {handle : Handle} {series : Series} {key : LabelKey}

theorem tracks_init : init.Tracks ⟨[], [], []⟩ where
  holds := .of_stores fun _ => rfl
  registered := fun hname => absurd hname.symm (Option.some_ne_none _)
  unregistered := fun _ => rfl
  observed := by simp

theorem Tracks.bounds_eq (htracks : s.Tracks h)
    (hname : s.histograms.lookup name = some storage) :
    h.bounds name = (s.storages storage).buckets := by
  obtain ⟨layout, hlayout, -, hbuckets⟩ := htracks.registered hname
  rw [History.bounds, hlayout, hbuckets]
  rfl

/-- A metric that is registered again keeps its storage, and a new one has its own. -/
theorem Tracks.register (htracks : s.Tracks h) (hnan : .nan ∉ buckets.getD defaultBuckets)
    {r : Nat × State} (hr : s.register name buckets = r) :
    r.2.Tracks (h.addLayout name buckets) ∧ r.2.histograms.lookup name = some r.1 := by
  obtain ⟨hdirectory, hhandles, hatomics, hkept, hnew⟩ := register_spec hr
  obtain ⟨-, hstores, -⟩ := Directory.findStore_spec htracks.holds.proper hdirectory
  have hlayout : ∀ {name' storage}, s.histograms.lookup name' = some storage →
      (h.addLayout name buckets).layout name' = h.layout name' := by
    intro name' storage hname
    obtain ⟨layout, hlayout, -⟩ := htracks.registered hname
    rw [hlayout, History.layout_addLayout_of_some hlayout]
  have hholds : s.directory.Holds s.atomics (h.addLayout name buckets).atomics
      (s.handles.map Handle.ref) h.handles := by
    refine htracks.holds.congr ?_
    rintro name' key cell ⟨storage, hname, -⟩
    rw [History.atomics, History.bounds, hlayout hname]
    rfl
  obtain ⟨hfound, hstore⟩ := hholds.findStore hdirectory
  refine ⟨⟨by rwa [hatomics, hhandles], fun {name' storage} hname => ?_, fun {name'} hname => ?_,
    htracks.observed⟩, hstore⟩
  · have hold : ∀ {name' storage}, s.histograms.lookup name' = some storage →
        ∃ layout, (h.addLayout name buckets).layout name' = some layout ∧
          .nan ∉ layout.getD defaultBuckets ∧
          (r.2.storages storage).buckets = newBuckets layout := by
      intro name' storage hold
      rw [hlayout hold, hkept _ (htracks.holds.proper.store_lt hold)]
      exact htracks.registered hold
    rcases (hstores name' storage).mp hname with hname' | ⟨rfl, rfl⟩
    · exact hold hname'
    · cases hlookup : s.histograms.lookup name' with
      | some storage =>
          have hsame := (hstores _ _).mpr (.inl hlookup)
          obtain rfl : storage = r.1 := Option.some.inj (hsame.symm.trans hstore)
          exact hold hlookup
      | none =>
          exact ⟨buckets, History.layout_addLayout_self (htracks.unregistered hlookup), hnan,
            hnew hlookup⟩
  · have hne : name ≠ name' := by
      rintro rfl
      exact Option.some_ne_none _ (hstore.symm.trans hname)
    rw [History.layout_addLayout_ne hne]
    refine htracks.unregistered (Option.eq_none_iff_forall_ne_some.mpr fun storage hlookup => ?_)
    exact Option.some_ne_none _ (((hstores _ _).mpr (.inl hlookup)).symm.trans hname)

theorem Tracks.newHandle (htracks : s.Tracks h)
    (hname : s.histograms.lookup name = some storage) (key : LabelKey) :
    (s.newHandle storage key).Tracks (h.addHandle (name, key)) := by
  generalize hr : s.directory.findCell storage key = r
  obtain ⟨hdirectory, hhandles, hbuckets, hold, hnew⟩ := newHandle_spec hr
  have hstores : ∀ name', (s.newHandle storage key).histograms.lookup name' =
      s.histograms.lookup name' := by
    have hfound := (Directory.findCell_spec htracks.holds.proper hname hr).2.1
    exact congrFun ((congrArg Directory.stores hdirectory).trans hfound)
  have hholds := htracks.holds.findCell hname hr hold fun hnone hunlisted => by
    -- nothing was observed on a series that has no handle
    have hempty : h.finite (name, key) = [] :=
      History.finite_eq_nil fun e he heq => hunlisted (heq ▸ htracks.observed e he)
    rw [hnew hnone, new_eq_ofObserved, History.atomics, hempty, htracks.bounds_eq hname]
    rfl
  refine ⟨?_, fun hname' => ?_, fun hname' => ?_,
    fun e he => List.mem_append_left _ (htracks.observed e he)⟩
  · rw [hdirectory, hhandles, List.map_append]
    exact hholds
  · rw [hstores] at hname'
    rw [hbuckets]
    exact htracks.registered hname'
  · rw [hstores] at hname'
    exact htracks.unregistered hname'

/-- The atomics of a series after one more observation, which is never out of bounds. -/
theorem observe_counted {buckets : List ℚ} (hbuckets : buckets.Pairwise (· < ·)) (vs : List ℚ)
    (v : Value) :
    ((ofObserved (HistogramAtomics.observed buckets vs)).observe buckets v).1 =
        ofObserved (HistogramAtomics.observed buckets (vs ++ v.finite?.toList)) ∧
      ∀ w ∈ ((ofObserved (HistogramAtomics.observed buckets vs)).observe buckets v).2,
        w = .nonFinite v := by
  cases v with
  | finite v =>
      rw [observe_ofObserved hbuckets]
      simp [Value.finite?]
  | nan | negInf | posInf => simp [Atomics.observe, Value.finite?]

theorem Tracks.getElem? (htracks : s.Tracks h) {i : Nat} (hi : s.handles[i]? = some handle) :
    ∃ series, h.handles[i]? = some series ∧ s.directory.Refers handle.ref series :=
  htracks.holds.getElem? (by simp [hi])

/-- An observation is counted on its series and on no other. -/
theorem Tracks.observe (htracks : s.Tracks h) (hrefers : s.directory.Refers handle.ref series)
    (v : Value) :
    (s.observe handle v).1.Tracks (h.addObservation series v) ∧
      ∀ w ∈ (s.observe handle v).2, w = .observation (.nonFinite v) := by
  obtain ⟨name, key⟩ := series
  have hname : s.histograms.lookup name = some handle.metrics := hrefers.1
  have hcell : s.atomics handle.atomics = h.atomics (name, key) :=
    htracks.holds.contents ⟨handle.metrics, hrefers⟩
  obtain ⟨layout, -, hnan, hlayout⟩ := htracks.registered hname
  have hbuckets : (s.storages handle.metrics).buckets.Pairwise (· < ·) := by
    rw [hlayout]
    exact pairwise_newBuckets hnan
  obtain ⟨hnew, hwarnings⟩ := observe_counted hbuckets (h.finite (name, key)) v
  rw [History.atomics, htracks.bounds_eq hname] at hcell
  rw [← hcell] at hnew hwarnings
  have hlisted := htracks.holds.listed ⟨handle.metrics, hrefers⟩
  constructor
  · refine ⟨htracks.holds.write hrefers ?_ fun e _ hne => ?_, htracks.registered,
      htracks.unregistered, fun e he => ?_⟩
    · rw [hnew, ← History.finite_addObservation_self, ← htracks.bounds_eq hname]
      rfl
    · rw [History.atomics, History.finite_addObservation_ne hne.symm]
      rfl
    · rcases List.mem_append.mp he with hold | hnew
      · exact htracks.observed e hold
      · rw [List.mem_singleton.mp hnew]
        exact hlisted
  · intro w hw
    obtain ⟨w', hw', rfl⟩ := List.mem_map.mp hw
    rw [hwarnings w' hw']

/-- The warning is not the one for an index out of bounds. -/
def InBounds : Warning → Prop
  | .observation (.outOfBounds _ _ _) => False
  | _ => True

theorem inBounds_histogram {w : Warning} (hw : w ∈ (s.histogram name buckets).2) :
    InBounds w := by
  unfold State.histogram at hw
  cases buckets with
  | none => simp at hw
  | some provided =>
      simp only at hw
      split at hw
      case isTrue => simp at hw
      case isFalse =>
          rw [List.mem_singleton.mp hw]
          trivial

theorem Tracks.step (htracks : s.Tracks h) {op : Op} (hop : op.NoNan) {ws : List Warning}
    (hstep : s.step op = some (s', ws)) :
    s'.Tracks (h.extend op) ∧ ∀ w ∈ ws, InBounds w := by
  cases op with
  | histogram name buckets =>
      obtain ⟨rfl, rfl⟩ : (s.histogram name buckets).1 = s' ∧
          (s.histogram name buckets).2 = ws := by
        simpa [State.step, Prod.ext_iff] using hstep
      refine ⟨?_, fun w hw => inBounds_histogram hw⟩
      unfold State.histogram
      generalize hr : s.register name buckets = r
      obtain ⟨hregistered, hname⟩ := htracks.register hop hr
      exact hregistered.newHandle hname .empty
  | withLabels i labels =>
      obtain ⟨handle, hi, rfl, rfl⟩ : ∃ handle, s.handles[i]? = some handle ∧
          s.newHandle handle.metrics (.new labels) = s' ∧ [] = ws := by
        simpa [State.step] using hstep
      obtain ⟨series, hseries, hrefers⟩ := htracks.getElem? hi
      refine ⟨?_, by simp⟩
      simpa [History.extend, hseries, Handle.ref] using
        htracks.newHandle hrefers.1 (.new labels)
  | withoutLabels i =>
      obtain ⟨handle, hi, rfl, rfl⟩ : ∃ handle, s.handles[i]? = some handle ∧
          s.newHandle handle.metrics .empty = s' ∧ [] = ws := by
        simpa [State.step] using hstep
      obtain ⟨series, hseries, hrefers⟩ := htracks.getElem? hi
      refine ⟨?_, by simp⟩
      simpa [History.extend, hseries, Handle.ref] using htracks.newHandle hrefers.1 .empty
  | observe i v =>
      obtain ⟨handle, hi, rfl, rfl⟩ : ∃ handle, s.handles[i]? = some handle ∧
          (s.observe handle v).1 = s' ∧ (s.observe handle v).2 = ws := by
        simpa [State.step, Prod.ext_iff] using hstep
      obtain ⟨series, hseries, hrefers⟩ := htracks.getElem? hi
      obtain ⟨hobserved, hwarnings⟩ := htracks.observe hrefers v
      constructor
      · simpa [History.extend, hseries] using hobserved
      · intro w hw
        rw [hwarnings w hw]
        trivial

theorem series_eq_some_iff {key : LabelKey} {buckets : List ℚ} {atomics : Atomics} :
    s.series name key = some (buckets, atomics) ↔
      ∃ storage cell, s.histograms.lookup name = some storage ∧
        (s.storages storage).data.lookup key = some cell ∧
        (s.storages storage).buckets = buckets ∧ s.atomics cell = atomics := by
  simp [series, Option.bind_eq_some_iff]

/-- Exactly the series that have a handle are stored. -/
theorem Tracks.mem_handles_iff (htracks : s.Tracks h) (name : String) (key : LabelKey) :
    (name, key) ∈ h.handles ↔ (s.series name key).isSome := by
  rw [htracks.holds.mem_iff, Option.isSome_iff_exists]
  constructor
  · rintro ⟨cell, storage, hname, hcell⟩
    exact ⟨_, series_eq_some_iff.mpr ⟨storage, cell, hname, hcell, rfl, rfl⟩⟩
  · rintro ⟨⟨buckets, atomics⟩, hseries⟩
    obtain ⟨storage, cell, hname, hcell, -, -⟩ := series_eq_some_iff.mp hseries
    exact ⟨cell, storage, hname, hcell⟩

theorem Tracks.counted_series (htracks : s.Tracks h) {key : LabelKey}
    {buckets : List ℚ} {atomics : Atomics} (hseries : s.series name key = some (buckets, atomics)) :
    ∃ layout, h.layout name = some layout ∧ buckets = newBuckets layout ∧
      Counted buckets (h.finite (name, key)) atomics := by
  obtain ⟨storage, cell, hname, hcell, rfl, rfl⟩ := series_eq_some_iff.mp hseries
  obtain ⟨layout, hlayout, hnan, hbuckets⟩ := htracks.registered hname
  have hsorted : (s.storages storage).buckets.Pairwise (· < ·) := by
    rw [hbuckets]
    exact pairwise_newBuckets hnan
  refine ⟨layout, hlayout, hbuckets, ?_⟩
  rw [htracks.holds.contents ⟨storage, hname, hcell⟩, History.atomics, htracks.bounds_eq hname]
  exact counted_ofObserved hsorted _

/-- A value that is not finite changes nothing. -/
theorem step_observe_of_not_finite {i : Nat} {v : Value} (hv : v.finite? = none)
    {ws : List Warning} (hstep : s.step (.observe i v) = some (s', ws)) : s' = s := by
  obtain ⟨handle, -, rfl, -⟩ : ∃ handle, s.handles[i]? = some handle ∧
      (s.observe handle v).1 = s' ∧ (s.observe handle v).2 = ws := by
    simpa [State.step, Prod.ext_iff] using hstep
  cases v with
  | finite v => simp [Value.finite?] at hv
  | nan | negInf | posInf => simp [State.observe, Atomics.observe]

end State

/-- After every program without NaN bounds the state follows its history, and no
observation was out of bounds. -/
theorem run_tracks {ops : List Op} {s : State} {ws : List Warning}
    (hrun : inMemoryHistograms.Run ops s ws) (hops : ∀ op ∈ ops, op.NoNan) :
    s.Tracks (.ofOps ops) ∧ ∀ w ∈ ws, State.InBounds w := by
  induction hrun with
  | nil => exact ⟨State.tracks_init, by simp⟩
  | snoc _ hstep ih =>
      obtain ⟨htracks, hbounds⟩ :=
        ih fun op hop => hops op (List.mem_append_left _ hop)
      have hlast := hops _ (List.mem_append_right _ List.mem_cons_self)
      obtain ⟨htracks', hbounds'⟩ := htracks.step hlast hstep
      rw [History.ofOps_concat]
      refine ⟨htracks', fun w hw => ?_⟩
      rcases List.mem_append.mp hw with hold | hnew
      · exact hbounds w hold
      · exact hbounds' w hnew

/-- After every program without NaN bounds the series that have a handle are stored with
the bounds of the first registration, and every finite observation is counted in its one
bucket. -/
theorem run_counted {ops : List Op} {s : State} {ws : List Warning}
    (hrun : inMemoryHistograms.Run ops s ws) (hops : ∀ op ∈ ops, op.NoNan) :
    (∀ w ∈ ws, State.InBounds w) ∧
    (∀ name key, (name, key) ∈ (History.ofOps ops).handles ↔ (s.series name key).isSome) ∧
    (∀ name key buckets atomics, s.series name key = some (buckets, atomics) →
      ∃ layout, (History.ofOps ops).layout name = some layout ∧ buckets = newBuckets layout ∧
        Counted buckets ((History.ofOps ops).finite (name, key)) atomics) ∧
    ∀ i v s' ws', v.finite? = none → s.step (.observe i v) = some (s', ws') → s' = s := by
  obtain ⟨htracks, hbounds⟩ := run_tracks hrun hops
  exact ⟨hbounds, htracks.mem_handles_iff, fun _ _ _ _ hseries => htracks.counted_series hseries,
    fun _ _ _ _ hv hstep => State.step_observe_of_not_finite hv hstep⟩

/-- Two layouts for one name, and observations through both handles. -/
def twoLayouts : List Op :=
  [.histogram "latency" (some [.finite 2, .posInf, .finite 1, .finite 2]),
    .withLabels 0 [("method", "GET")],
    .histogram "latency" (some [.finite 9]),
    .observe 2 (.finite 1),
    .observe 0 (.finite 3),
    .observe 1 (.finite 2),
    .observe 0 .nan]

theorem run_counted_twoLayouts :
    ∃ s ws, inMemoryHistograms.Run twoLayouts s ws ∧ (∀ w ∈ ws, State.InBounds w) ∧
      ∃ atomics, s.series "latency" .empty = some ([1, 2], atomics) ∧
        Counted [1, 2] [1, 3] atomics := by
  obtain ⟨⟨s, ws⟩, hexec⟩ : ∃ r, inMemoryHistograms.exec twoLayouts = some r :=
    Option.isSome_iff_exists.mp (by decide +kernel)
  have hrun : inMemoryHistograms.Run twoLayouts s ws := Machine.run_of_exec hexec
  have hnan : ∀ op ∈ twoLayouts, op.NoNan := by
    simp [twoLayouts, Op.NoNan]
  obtain ⟨hbounds, hstored, hcounted, -⟩ := run_counted hrun hnan
  obtain ⟨⟨buckets, atomics⟩, hseries⟩ :=
    Option.isSome_iff_exists.mp ((hstored "latency" .empty).mp (by decide +kernel))
  obtain ⟨layout, hlayout, rfl, hcounts⟩ := hcounted _ _ _ _ hseries
  obtain rfl : some [.finite 2, .posInf, .finite 1, .finite 2] = layout :=
    Option.some.inj (hlayout.symm.trans (by decide +kernel)).symm
  have hbuckets : newBuckets (some [.finite 2, .posInf, .finite 1, .finite 2]) = [1, 2] := by
    decide +kernel
  have hfinite : (History.ofOps twoLayouts).finite ("latency", .empty) = [1, 3] := by
    decide +kernel
  rw [hfinite] at hcounts
  rw [hbuckets] at hseries hcounts
  exact ⟨s, ws, hrun, hbounds, atomics, hseries, hcounts⟩

/-- One bound, and `n` observations that are equal to it. -/
def repeated (n : Nat) : List Op :=
  .histogram "latency" (some [.finite 1]) :: List.replicate n (.observe 0 (.finite 1))

theorem noNan_repeated (n : Nat) : ∀ op ∈ repeated n, op.NoNan := by
  intro op hop
  rcases List.mem_cons.mp hop with rfl | hop
  · simp [Op.NoNan]
  · rw [List.eq_of_mem_replicate hop]
    trivial

theorem repeated_succ (n : Nat) :
    repeated (n + 1) = repeated n ++ [.observe 0 (.finite 1)] := by
  simp [repeated, List.replicate_succ']

theorem exists_run_repeated (n : Nat) :
    ∃ s ws, inMemoryHistograms.Run (repeated n) s ws ∧ s.handles = [⟨0, 0⟩] := by
  induction n with
  | zero =>
      exact ⟨_, _, Machine.Run.snoc .nil rfl, rfl⟩
  | succ n ih =>
      obtain ⟨s, ws, hrun, hhandles⟩ := ih
      have hstep : inMemoryHistograms.step s (.observe 0 (.finite 1)) =
          some (s.observe ⟨0, 0⟩ (.finite 1)) := by
        simp [inMemoryHistograms, State.step, hhandles]
      rw [repeated_succ]
      exact ⟨_, _, hrun.snoc hstep, hhandles⟩

theorem history_repeated (n : Nat) :
    (History.ofOps (repeated n)).handles = [("latency", .empty)] ∧
      (History.ofOps (repeated n)).layout "latency" = some (some [.finite 1]) ∧
      (History.ofOps (repeated n)).finite ("latency", .empty) = List.replicate n 1 := by
  induction n with
  | zero => exact ⟨rfl, rfl, rfl⟩
  | succ n ih =>
      obtain ⟨hhandles, hlayout, hfinite⟩ := ih
      rw [repeated_succ, History.ofOps_concat]
      have hextend : (History.ofOps (repeated n)).extend (.observe 0 (.finite 1)) =
          (History.ofOps (repeated n)).addObservation ("latency", .empty) (.finite 1) := by
        simp [History.extend, hhandles]
      rw [hextend, History.finite_addObservation_self, hfinite, List.replicate_succ']
      exact ⟨hhandles, hlayout, rfl⟩

/-- The counters are `u64`: after `2 ^ 64` observations the bucket counts none. -/
theorem not_counted_exactly :
    ∃ s ws, inMemoryHistograms.Run (repeated (2 ^ 64)) s ws ∧
      ∃ buckets atomics count, s.series "latency" .empty = some (buckets, atomics) ∧
        atomics.bucketCounts[0]? = some count ∧
        count.toNat ≠ ((History.ofOps (repeated (2 ^ 64))).finite ("latency", .empty)).countP
          fun v => InBucket buckets 0 v := by
  generalize hn : 2 ^ 64 = n
  obtain ⟨s, ws, hrun, -⟩ := exists_run_repeated n
  obtain ⟨hhandles, hlayout, hfinite⟩ := history_repeated n
  obtain ⟨htracks, -⟩ := run_tracks hrun (noNan_repeated n)
  obtain ⟨⟨buckets, atomics⟩, hseries⟩ : ∃ e, s.series "latency" .empty = some e := by
    rw [← Option.isSome_iff_exists, ← htracks.mem_handles_iff, hhandles]
    exact List.mem_cons_self
  obtain ⟨layout, hfirst, rfl, hcounted⟩ := htracks.counted_series hseries
  obtain rfl : some [.finite 1] = layout := Option.some.inj (hlayout.symm.trans hfirst)
  have hpos : 0 < atomics.bucketCounts.length := by
    rw [hcounted.length]
    exact Nat.succ_pos _
  have hcount := hcounted.counts 0 _ (List.getElem?_eq_getElem hpos)
  have hin : InBucket (newBuckets (some [.finite 1])) 0 1 := by decide +kernel
  have hall : (List.replicate n (1 : ℚ)).countP
      (fun v => InBucket (newBuckets (some [.finite 1])) 0 v) = n := by
    simp [List.countP_replicate, hin]
  refine ⟨s, ws, hrun, _, _, _, hseries, List.getElem?_eq_getElem hpos, ?_⟩
  rw [hfinite, hall] at hcount ⊢
  rw [hcount, UInt64.toNat_ofNat']
  omega

end SfRs.Metrics.Histograms
