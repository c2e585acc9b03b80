import SfRs.Lib.Pending
import SfRs.Metrics.Observations
/-!
# Histograms shared by threads

Threads share the metrics, and a call touches them in a few atomic operations: `observe`
adds to a bucket, then to the sum, then to the count, and `histogram` finds the storage of
the name before it finds the atomics of the series.  Between two of them other calls go on.
Timers observe through the handle that they were started on, once each.
-/

namespace SfRs.Metrics.Histograms

open SfRs.Lib

/-! ## Atomic operations -/

namespace Atomics

/-- The first of the three: the bucket. -/
def addToBucket (atomics : Atomics) (buckets : List ℚ) (v : ℚ) :
    Atomics × List HistogramWarning :=
  let index := bucketIndex buckets v
  match atomics.bucketCounts[index]? with
  | some bucketCounter =>
      ({ atomics with bucketCounts := atomics.bucketCounts.set index (bucketCounter + 1) }, [])
  | none =>
      ({ atomics with bucketCounts := atomics.bucketCounts.modifyLast (· + 1) },
        [.outOfBounds index buckets.length v])

def addToSum (atomics : Atomics) (v : ℚ) : Atomics := { atomics with sum := atomics.sum + v }

def addToCount (atomics : Atomics) : Atomics := { atomics with count := atomics.count + 1 }

end Atomics

namespace State

/-- An atomic operation on the atomics of one series. -/
def modify (s : State) (cell : Nat) (f : Atomics → Atomics) : State :=
  { s with atomics := Function.update s.atomics cell (f (s.atomics cell)) }

/-- What `histogram` warns of once it has the storage. -/
def registrationWarnings (s : State) (storage : Nat) (name : String) :
    Option (List Value) → List Warning
  | some provided =>
      if sameBuckets provided (s.storages storage).buckets then []
      else [.differentBuckets name provided (s.storages storage).buckets]
  | none => []

end State

/-! ## Threads -/

/-- A call in progress: what it has still to do, and its local variables. -/
inductive Frame where
  /-- `histogram` before `InMemoryHistogram::new`. -/
  | histogram (name : String) (metric : Nat)
  /-- `observe` before it adds to the sum. -/
  | sum (atomics : Nat) (v : ℚ) (timer : Option Nat)
  | count (atomics : Nat) (timer : Option Nat)

/-- A timer is borrowed mutably by `observe_duration`, and consumed by `drop`. -/
inductive Timer.Phase where
  | idle
  | borrowed
  | dropped
  deriving DecidableEq

/-- An `InMemoryHistogramTimer`, with the handle that it cloned. -/
structure Timer where
  histogram : Nat
  observed : Bool
  phase : Timer.Phase

/-- The end of `do_observe`. -/
def Timer.returned (t : Timer) : Timer where
  histogram := t.histogram
  observed := true
  phase := if t.phase = .borrowed then .idle else t.phase

structure Threads where
  shared : State
  calls : List Frame
  timers : List Timer

/-- What the threads do next.  The durations are measured by the clock. -/
inductive Action where
  | call (op : Op)
  | startTimer (handle : Nat)
  | observeDuration (timer : Nat) (elapsed : ℚ)
  | dropTimer (timer : Nat) (elapsed : ℚ)
  | resume (call : Nat)

inductive Event where
  /-- `histogram` has the storage. -/
  | registered (name : String) (buckets : Option (List Value))
  /-- `histogram` returns a handle. -/
  | created (name : String)
  | labelled (handle : Nat) (key : LabelKey)
  /-- `observe` begins, called by a timer or not. -/
  | observed (handle : Nat) (v : Value) (timer : Option Nat)
  | warned (w : Warning)

namespace Threads

def init : Threads := ⟨.init, [], []⟩

/-- `do_observe` returns to the caller of the timer, if one observes. -/
def returned (s : Threads) : Option Nat → Threads
  | some timer => { s with timers := s.timers.modify timer Timer.returned }
  | none => s

/-- `observe` up to the bucket. -/
def observe (s : Threads) (i : Nat) (v : Value) (timer : Option Nat) :
    Option (Threads × List Event) :=
  s.shared.handles[i]?.map fun handle =>
    match v with
    | .finite v =>
        let r := (s.shared.atomics handle.atomics).addToBucket
          (s.shared.storages handle.metrics).buckets v
        ({ s with
            shared := s.shared.modify handle.atomics fun _ => r.1
            calls := s.calls ++ [.sum handle.atomics v timer] },
          .observed i (.finite v) timer :: r.2.map (.warned <| .observation ·))
    | v => (s.returned timer, [.observed i v timer, .warned (.observation (.nonFinite v))])

def call (s : Threads) : Op → Option (Threads × List Event)
  | .histogram name buckets =>
      let r := s.shared.register name buckets
      some ({ s with shared := r.2, calls := s.calls ++ [.histogram name r.1] },
        .registered name buckets :: (r.2.registrationWarnings r.1 name buckets).map .warned)
  | .withLabels i labels =>
      s.shared.handles[i]?.map fun h =>
        ({ s with shared := s.shared.newHandle h.metrics (.new labels) },
          [.labelled i (.new labels)])
  | .withoutLabels i =>
      s.shared.handles[i]?.map fun h =>
        ({ s with shared := s.shared.newHandle h.metrics .empty }, [.labelled i .empty])
  | .observe i v => s.observe i v none

def resume (s : Threads) (i : Nat) : Option (Threads × List Event) :=
  s.calls[i]?.map fun frame =>
    match frame with
    | .histogram name metric =>
        ({ s with
            shared := s.shared.newHandle metric .empty
            calls := s.calls.eraseIdx i },
          [.created name])
    | .sum atomics v timer =>
        ({ s with
            shared := s.shared.modify atomics (·.addToSum v)
            calls := s.calls.eraseIdx i ++ [.count atomics timer] },
          [])
    | .count atomics timer =>
        ({ s with
            shared := s.shared.modify atomics Atomics.addToCount
            calls := s.calls.eraseIdx i }.returned timer,
          [])

/-- `do_observe` on an idle timer, which is borrowed or dropped by the call. -/
def doObserve (s : Threads) (i : Nat) (elapsed : ℚ) (phase : Timer.Phase) :
    Option (Threads × List Event) :=
  s.timers[i]?.bind fun t =>
    let called : Threads := { s with timers := s.timers.set i { t with phase := phase } }
    if t.phase ≠ .idle then none
    else if t.observed then some (called.returned (some i), [])
    else called.observe t.histogram (.finite elapsed) (some i)

def step (s : Threads) : Action → Option (Threads × List Event)
  | .call op => s.call op
  | .startTimer i =>
      s.shared.handles[i]?.map fun _ => ({ s with timers := s.timers ++ [⟨i, false, .idle⟩] }, [])
  | .observeDuration timer elapsed => s.doObserve timer elapsed .borrowed
  | .dropTimer timer elapsed => s.doObserve timer elapsed .dropped
  | .resume i => s.resume i

end Threads

/-- Any threads that share fresh metrics. -/
def threads : Machine Threads Action Event where
  init := .init
  step := Threads.step

/-! ## What the threads did -/

namespace History

def record (h : History) : Event → History
  | .registered name buckets => h.addLayout name buckets
  | .created name => h.addHandle (name, .empty)
  | .labelled handle key => h.handles[handle]?.elim h fun series => h.addHandle (series.1, key)
  | .observed handle v _ => h.handles[handle]?.elim h fun series => h.addObservation series v
  | .warned _ => h

def ofEvents (tr : List Event) : History := tr.foldl record ⟨[], [], []⟩

theorem ofEvents_append (tr es : List Event) :
    ofEvents (tr ++ es) = es.foldl record (ofEvents tr) := List.foldl_append

theorem record_warnings (h : History) {es : List Event} (hes : ∀ e ∈ es, ∃ w, e = .warned w) :
    es.foldl record h = h := by
  induction es with
  | nil => rfl
  | cons e es ih =>
      obtain ⟨w, rfl⟩ := hes e List.mem_cons_self
      exact ih fun e he => hes e (List.mem_cons_of_mem _ he)

end History

/-! ## What the calls in progress have still to do -/

namespace Atomics

variable (atomics : Atomics) (buckets : List ℚ) (v w : ℚ)

theorem observe_finite :
    atomics.observe buckets (.finite v) =
      (((atomics.addToBucket buckets v).1.addToSum v).addToCount,
        (atomics.addToBucket buckets v).2) := by
  cases hcounter : atomics.bucketCounts[bucketIndex buckets v]? <;>
    simp [observe, addToBucket, addToSum, addToCount, hcounter]

theorem addToBucket_addToSum :
    (atomics.addToSum w).addToBucket buckets v =
      ((atomics.addToBucket buckets v).1.addToSum w, (atomics.addToBucket buckets v).2) := by
  cases hcounter : atomics.bucketCounts[bucketIndex buckets v]? <;>
    simp [addToBucket, addToSum, hcounter]

theorem addToBucket_addToCount :
    atomics.addToCount.addToBucket buckets v =
      ((atomics.addToBucket buckets v).1.addToCount, (atomics.addToBucket buckets v).2) := by
  cases hcounter : atomics.bucketCounts[bucketIndex buckets v]? <;>
    simp [addToBucket, addToCount, hcounter]

theorem warnings_congr {a b : Atomics} (hcounts : a.bucketCounts = b.bucketCounts) :
    (a.addToBucket buckets v).2 = (b.addToBucket buckets v).2 := by
  simp only [addToBucket, hcounts]
  split <;> rfl

theorem addToSum_comm :
    (atomics.addToSum v).addToSum w = (atomics.addToSum w).addToSum v := by
  simp only [addToSum, add_right_comm]

end Atomics

/-- `f` commutes with the atomic operations of `observe`. -/
structure Adds (f : Atomics → Atomics) : Prop where
  bucketCounts : ∀ a, (f a).bucketCounts = a.bucketCounts
  bucket : ∀ a buckets v, (f a).addToBucket buckets v =
    (f (a.addToBucket buckets v).1, (a.addToBucket buckets v).2)
  sum : ∀ a v, (f a).addToSum v = f (a.addToSum v)
  count : ∀ a, (f a).addToCount = f a.addToCount

theorem adds_addToCount : Adds Atomics.addToCount where
  bucketCounts _ := rfl
  bucket a buckets v := a.addToBucket_addToCount buckets v
  sum _ _ := rfl
  count _ := rfl

theorem adds_addToSum_addToCount (v : ℚ) : Adds fun a => (a.addToSum v).addToCount where
  bucketCounts _ := rfl
  bucket a buckets w := by rw [Atomics.addToBucket_addToCount, Atomics.addToBucket_addToSum]
  sum a w := by
    show ((a.addToSum v).addToSum w).addToCount = _
    rw [Atomics.addToSum_comm]
  count _ := rfl

namespace State

variable {s : State} {cell cell' : Nat} {f g : Atomics → Atomics}

theorem modify_modify : (s.modify cell f).modify cell g = s.modify cell fun a => g (f a) := by
  simp [modify]

theorem modify_comm (hfg : ∀ a, f (g a) = g (f a)) :
    (s.modify cell g).modify cell' f = (s.modify cell' f).modify cell g := by
  rcases eq_or_ne cell cell' with rfl | hne
  · simp [modify, hfg]
  · simp [modify, hne, hne.symm, Function.update_comm hne]

theorem observe_eq_modify (handle : Handle) (v : ℚ) :
    s.observe handle (.finite v) =
      ((s.modify handle.atomics fun a =>
        (a.addToBucket (s.storages handle.metrics).buckets v).1).modify handle.atomics
          fun a => (a.addToSum v).addToCount,
        ((s.atomics handle.atomics).addToBucket
          (s.storages handle.metrics).buckets v).2.map .observation) := by
  rw [modify_modify, observe, Atomics.observe_finite]
  rfl

theorem register_modify (name : String) (buckets : Option (List Value)) :
    (s.modify cell f).register name buckets =
      ((s.register name buckets).1, (s.register name buckets).2.modify cell f) := by
  simp only [register, modify]
  split <;> rfl

/-- New atomics are not those that are modified. -/
theorem newHandle_modify (hlt : cell < s.atomicsCount) (storage : Nat) (key : LabelKey) :
    (s.modify cell f).newHandle storage key = (s.newHandle storage key).modify cell f := by
  simp only [newHandle, getOrCreate, modify]
  split
  case h_1 => rfl
  case h_2 =>
      have hne : cell ≠ s.atomicsCount := hlt.ne
      simp [hne, Function.update_comm hne]

theorem newHandle_frame (s : State) (storage : Nat) (key : LabelKey) :
    (s.newHandle storage key).histograms = s.histograms ∧
      s.atomicsCount ≤ (s.newHandle storage key).atomicsCount := by
  simp only [newHandle, getOrCreate]
  split
  case h_1 => exact ⟨rfl, le_rfl⟩
  case h_2 => exact ⟨rfl, Nat.le_succ _⟩

theorem register_frame (s : State) (name : String) (buckets : Option (List Value)) :
    (∀ name' storage, s.histograms.lookup name' = some storage →
      (s.register name buckets).2.histograms.lookup name' = some storage) ∧
      (s.register name buckets).2.atomicsCount = s.atomicsCount := by
  unfold register
  split
  case h_1 => exact ⟨fun _ _ h => h, rfl⟩
  case h_2 hnone =>
      refine ⟨fun name' storage hname => ?_, rfl⟩
      have hne : name' ≠ name := by
        rintro rfl
        exact Option.some_ne_none _ (hname.symm.trans hnone)
      exact (AList.lookup_insert_ne hne).trans hname

end State

namespace Frame

/-- What the call has still to add to the atomics of its series. -/
def rest : Frame → State → State
  | histogram _ _, s => s
  | sum cell v _, s => s.modify cell fun a => (a.addToSum v).addToCount
  | count cell _, s => s.modify cell Atomics.addToCount

/-- The metric and the atomics that the call refers to are there. -/
def InUse (s : State) : Frame → Prop
  | histogram name metric => s.histograms.lookup name = some metric
  | sum cell _ _ | count cell _ => cell < s.atomicsCount

theorem InUse.mono {s s' : State} {frame : Frame} (huse : frame.InUse s)
    (hmetrics : ∀ name storage, s.histograms.lookup name = some storage →
      s'.histograms.lookup name = some storage)
    (hcells : s.atomicsCount ≤ s'.atomicsCount) : frame.InUse s' := by
  cases frame with
  | histogram name metric => exact hmetrics name metric huse
  | sum | count => exact huse.trans_le hcells

theorem rest_cases (frame : Frame) :
    (∀ s, frame.rest s = s) ∨ ∃ cell f, Adds f ∧ ∀ s, frame.rest s = s.modify cell f := by
  cases frame with
  | histogram => exact Or.inl fun _ => rfl
  | sum cell v timer => exact Or.inr ⟨cell, _, adds_addToSum_addToCount v, fun _ => rfl⟩
  | count cell timer => exact Or.inr ⟨cell, _, adds_addToCount, fun _ => rfl⟩

theorem rest_modify (f : Atomics → Atomics) {cell : Nat}
    (hf : ∀ g, Adds g → ∀ a, f (g a) = g (f a)) (frame : Frame) (s : State) :
    (frame.rest s).modify cell f = frame.rest (s.modify cell f) := by
  rcases frame.rest_cases with hrest | ⟨cell', g, hg, hrest⟩
  · rw [hrest, hrest]
  · rw [hrest, hrest]
    exact State.modify_comm (hf g hg)

theorem rest_comm (f g : Frame) (s : State) : f.rest (g.rest s) = g.rest (f.rest s) := by
  cases f with
  | histogram => rfl
  | sum cell v timer =>
      have hadds : ∀ g, Adds g → ∀ a : Atomics,
          ((g a).addToSum v).addToCount = g (a.addToSum v).addToCount := by
        intro g hg a
        rw [hg.sum, hg.count]
      exact rest_modify (fun a => (a.addToSum v).addToCount) hadds g s
  | count cell timer => exact rest_modify _ (fun _ hg => hg.count) g s

/-- The rest of a call touches nothing but the sums and the counts. -/
theorem rest_frame (frame : Frame) (s : State) :
    frame.rest s = { s with atomics := (frame.rest s).atomics } ∧
      ∀ cell, ((frame.rest s).atomics cell).bucketCounts = (s.atomics cell).bucketCounts := by
  rcases frame.rest_cases with hrest | ⟨cell, f, hf, hrest⟩
  · rw [hrest]
    exact ⟨rfl, fun _ => rfl⟩
  · rw [hrest]
    refine ⟨rfl, fun cell' => ?_⟩
    rcases eq_or_ne cell' cell with rfl | hne
    · simp [State.modify, hf.bucketCounts]
    · simp [State.modify, hne]

end Frame

namespace Threads

/-- The metrics once the calls in progress have done their rests. -/
def settled (s : Threads) : State := settle Frame.rest s.calls s.shared

variable {s s' : Threads} {es : List Event} {frame : Frame} {i : Nat}

/-- An idle timer returns if it has observed, and else it observes now. -/
theorem doObserve_cases {elapsed : ℚ} {phase : Timer.Phase}
    (hstep : s.doObserve i elapsed phase = some (s', es)) :
    ∃ t called, s.timers[i]? = some t ∧ t.phase = .idle ∧
      called = { s with timers := s.timers.set i { t with phase := phase } } ∧
      (t.observed = true ∧ s' = called.returned (some i) ∧ es = [] ∨
        t.observed = false ∧
          called.observe t.histogram (.finite elapsed) (some i) = some (s', es)) := by
  obtain ⟨t, ht, hcalled⟩ := Option.bind_eq_some_iff.mp hstep
  simp only at hcalled
  split at hcalled
  case isTrue => exact absurd hcalled (Option.some_ne_none _).symm
  case isFalse hidle =>
      refine ⟨t, _, ht, not_not.mp hidle, rfl, ?_⟩
      split at hcalled
      case isTrue hobserved =>
          obtain ⟨rfl, rfl⟩ := Prod.mk.inj (Option.some.inj hcalled)
          exact Or.inl ⟨hobserved, rfl, rfl⟩
      case isFalse hobserved => exact Or.inr ⟨Bool.eq_false_iff.mpr hobserved, hcalled⟩

/-- What has not settled yet is in the sums and the counts. -/
theorem settled_frame (s : Threads) :
    s.settled = { s.shared with atomics := s.settled.atomics } ∧
      ∀ cell, (s.settled.atomics cell).bucketCounts = (s.shared.atomics cell).bucketCounts := by
  obtain ⟨shared, calls, timers⟩ := s
  simp only [settled]
  induction calls with
  | nil => exact ⟨rfl, fun _ => rfl⟩
  | cons frame calls ih =>
      obtain ⟨hframe, hcounts⟩ := frame.rest_frame (settle Frame.rest calls shared)
      rw [settle_cons]
      constructor
      · rw [hframe, ih.1]
      · intro cell
        rw [hcounts, ih.2]

theorem settled_handles (s : Threads) : s.settled.handles = s.shared.handles := by
  rw [s.settled_frame.1]

/-- A call of `observe` observes on the settled metrics. -/
theorem settled_observe (handle : Handle) (v : ℚ) (timer : Option Nat) :
    settle Frame.rest (s.calls ++ [.sum handle.atomics v timer])
        (s.shared.modify handle.atomics fun a =>
          (a.addToBucket (s.shared.storages handle.metrics).buckets v).1) =
      (s.settled.observe handle (.finite v)).1 := by
  set bucket := fun a : Atomics =>
    (a.addToBucket (s.shared.storages handle.metrics).buckets v).1 with hbucket
  have hadds : ∀ g, Adds g → ∀ a, bucket (g a) = g (bucket a) := by
    intro g hg a
    simp only [hbucket, hg.bucket]
  rw [settle_begin (·.modify handle.atomics bucket) Frame.rest_comm
    fun f _ s => Frame.rest_modify bucket hadds f s, State.observe_eq_modify]
  rw [show s.settled.storages = s.shared.storages by rw [s.settled_frame.1]]
  rfl

theorem settled_newHandle (huse : ∀ frame ∈ s.calls, frame.InUse s.shared) (storage : Nat)
    (key : LabelKey) :
    settle Frame.rest s.calls (s.shared.newHandle storage key) =
      s.settled.newHandle storage key := by
  refine (settle_commute (P := fun t : State => t.atomicsCount = s.shared.atomicsCount)
    (fun t => t.newHandle storage key) (fun frame _ t ht => ?_) (fun frame hframe t ht => ?_) rfl).1
  · rw [(frame.rest_frame t).1]
    exact ht
  · have hin := huse frame hframe
    cases frame with
    | histogram => rfl
    | sum | count =>
        simp only [Frame.rest]
        exact State.newHandle_modify (hin.trans_eq ht.symm) storage key

/-- A call of `histogram` registers in the settled metrics, and finds the same storage. -/
theorem settled_register (name : String) (buckets : Option (List Value)) (frame : Frame)
    (hframe : ∀ t, frame.rest t = t) :
    s.settled.register name buckets = ((s.shared.register name buckets).1,
      settle Frame.rest (s.calls ++ [frame]) (s.shared.register name buckets).2) := by
  have hregister : ∀ (frame : Frame) (t : State), (frame.rest t).register name buckets =
      ((t.register name buckets).1, frame.rest (t.register name buckets).2) := by
    intro frame t
    rcases frame.rest_cases with hrest | ⟨cell, f, -, hrest⟩
    · rw [hrest, hrest]
    · rw [hrest, hrest, State.register_modify]
  have hstorage : (s.settled.register name buckets).1 = (s.shared.register name buckets).1 := by
    rw [s.settled_frame.1]
    simp only [State.register]
    split <;> rfl
  rw [settle_begin (fun t => (t.register name buckets).2) Frame.rest_comm
    fun f _ t => congrArg Prod.snd (hregister f t), hframe, ← hstorage]
  rfl

/-! ## The settled metrics follow what the threads did -/

structure Follows (s : Threads) (h : History) : Prop where
  tracks : s.settled.Tracks h
  inUse : ∀ frame ∈ s.calls, frame.InUse s.shared

variable {h : History}

/-- When no call is in progress, nothing is left to settle. -/
theorem settled_eq_shared (hcalls : s.calls = []) : s.settled = s.shared := by
  rw [settled, hcalls, settle_nil]

theorem Follows.tracks_shared (hfollows : s.Follows h) (hcalls : s.calls = []) :
    s.shared.Tracks h := settled_eq_shared hcalls ▸ hfollows.tracks

theorem follows_init : init.Follows ⟨[], [], []⟩ where
  tracks := State.tracks_init
  inUse := by simp [init]

theorem settled_returned (s : Threads) (timer : Option Nat) :
    (s.returned timer).settled = s.settled ∧ (s.returned timer).calls = s.calls ∧
      (s.returned timer).shared = s.shared := by
  cases timer <;> exact ⟨rfl, rfl, rfl⟩

theorem Follows.returned (hfollows : s.Follows h) (timer : Option Nat) :
    (s.returned timer).Follows h := by
  obtain ⟨hsettled, hcalls, hshared⟩ := s.settled_returned timer
  refine ⟨?_, ?_⟩
  · rw [hsettled]
    exact hfollows.tracks
  · rw [hcalls, hshared]
    exact hfollows.inUse

theorem Follows.handle (hfollows : s.Follows h) {handle : Handle}
    (hi : s.shared.handles[i]? = some handle) :
    ∃ series, h.handles[i]? = some series ∧ s.settled.directory.Refers handle.ref series :=
  hfollows.tracks.getElem? (s.settled_handles ▸ hi)

/-- A handle is added with the series that it names. -/
theorem Follows.newHandle (hfollows : s.Follows h) {calls : List Frame} {name : String}
    {storage : Nat} {key : LabelKey}
    (hname : s.settled.histograms.lookup name = some storage) (hcalls : ∀ f ∈ calls, f ∈ s.calls)
    (hsettle : ∀ t, settle Frame.rest calls t = settle Frame.rest s.calls t) :
    Threads.Follows ⟨s.shared.newHandle storage key, calls, s.timers⟩
      (h.addHandle (name, key)) := by
  obtain ⟨hmetrics, hcells⟩ := s.shared.newHandle_frame storage key
  constructor
  · show State.Tracks (settle _ _ _) _
    rw [hsettle, settled_newHandle hfollows.inUse]
    exact hfollows.tracks.newHandle hname key
  · intro frame hframe
    refine (hfollows.inUse frame (hcalls frame hframe)).mono (fun name' storage' h => ?_) hcells
    rw [hmetrics]
    exact h

theorem Follows.observe (hfollows : s.Follows h) {v : Value} {timer : Option Nat}
    (hstep : s.observe i v timer = some (s', es)) :
    s'.Follows (es.foldl History.record h) ∧
      ∀ w, .warned w ∈ es → w = .observation (.nonFinite v) := by
  obtain ⟨handle, hi, hobserve⟩ := Option.map_eq_some_iff.mp hstep
  obtain ⟨series, hseries, hrefers⟩ := hfollows.handle hi
  obtain ⟨hobserved, hwarnings⟩ := hfollows.tracks.observe hrefers v
  cases v with
  | finite v =>
      obtain ⟨rfl, rfl⟩ := Prod.mk.inj hobserve
      have hcell : handle.atomics < s.shared.atomicsCount := by
        have hlt := hfollows.tracks.holds.proper.cell_lt ⟨handle.metrics, hrefers⟩
        rw [s.settled_frame.1] at hlt
        exact hlt
      refine ⟨⟨?_, ?_⟩, ?_⟩
      · rw [List.foldl_cons, History.record_warnings _ (by simp)]
        show State.Tracks (settle _ _ _) _
        rw [History.record, hseries]
        exact settled_observe (s := s) handle v timer ▸ hobserved
      · intro frame hframe
        rcases List.mem_append.mp hframe with hold | hnew
        · exact (hfollows.inUse frame hold).mono (fun _ _ h => h) le_rfl
        · rw [List.mem_singleton.mp hnew]
          exact hcell
      · intro w hw
        refine hwarnings w ?_
        have hbuckets : s.settled.storages = s.shared.storages := by rw [s.settled_frame.1]
        rw [State.observe_eq_modify, hbuckets, Atomics.warnings_congr _ _ (s.settled_frame.2 _)]
        simpa using hw
  | nan | negInf | posInf =>
      obtain ⟨rfl, rfl⟩ := Prod.mk.inj hobserve
      refine ⟨?_, by simp⟩
      refine Follows.returned ⟨?_, hfollows.inUse⟩ timer
      simpa [History.record, hseries, State.observe, Atomics.observe] using hobserved

theorem inBounds_registrationWarnings {t : State} {storage : Nat} {name : String}
    {buckets : Option (List Value)} {w : Warning}
    (hw : w ∈ t.registrationWarnings storage name buckets) : State.InBounds w := by
  unfold State.registrationWarnings at hw
  split at hw
  case h_1 =>
      split at hw
      case isTrue => exact absurd hw List.not_mem_nil
      case isFalse =>
          rw [List.mem_singleton.mp hw]
          trivial
  case h_2 => exact absurd hw List.not_mem_nil

theorem Follows.call (hfollows : s.Follows h) {op : Op} (hop : op.NoNan)
    (hstep : s.call op = some (s', es)) :
    s'.Follows (es.foldl History.record h) ∧ ∀ w, .warned w ∈ es → State.InBounds w := by
  cases op with
  | histogram name buckets =>
      obtain ⟨rfl, rfl⟩ := Prod.mk.inj (Option.some.inj hstep)
      have hregister := s.settled_register name buckets
        (.histogram name (s.shared.register name buckets).1) fun _ => rfl
      obtain ⟨hregistered, hname⟩ := hfollows.tracks.register hop hregister
      obtain ⟨hmetrics, hcells⟩ := s.shared.register_frame name buckets
      refine ⟨⟨?_, ?_⟩, fun w hw => ?_⟩
      · rw [List.foldl_cons, History.record_warnings _ (by simp)]
        exact hregistered
      · intro frame hframe
        rcases List.mem_append.mp hframe with hold | hnew
        · exact (hfollows.inUse frame hold).mono hmetrics hcells.ge
        · rw [List.mem_singleton.mp hnew]
          have hsettled := (settled_frame ⟨(s.shared.register name buckets).2,
            s.calls ++ [.histogram name (s.shared.register name buckets).1], s.timers⟩).1
          rw [show settle _ _ _ = _ from hsettled] at hname
          exact hname
      · obtain ⟨w', hw', rfl⟩ : ∃ w', w' ∈ _ ∧ w' = w := by simpa using hw
        exact inBounds_registrationWarnings hw'
  | withLabels i labels | withoutLabels i =>
      obtain ⟨handle, hi, hcreate⟩ := Option.map_eq_some_iff.mp hstep
      obtain ⟨rfl, rfl⟩ := Prod.mk.inj hcreate
      obtain ⟨series, hseries, hrefers⟩ := hfollows.handle hi
      refine ⟨?_, by simp⟩
      rw [List.foldl_cons, List.foldl_nil, History.record, hseries]
      exact hfollows.newHandle hrefers.1 (fun _ hf => hf) fun _ => rfl
  | observe i v =>
      obtain ⟨hobserved, hwarnings⟩ := hfollows.observe hstep
      refine ⟨hobserved, fun w hw => ?_⟩
      rw [hwarnings w hw]
      trivial

theorem Follows.resume (hfollows : s.Follows h) (hstep : s.resume i = some (s', es)) :
    s'.Follows (es.foldl History.record h) ∧ ∀ w, .warned w ∉ es := by
  obtain ⟨frame, hi, hresume⟩ := Option.map_eq_some_iff.mp hstep
  have hframe := hfollows.inUse frame (List.mem_of_getElem? hi)
  have hrest : ∀ f ∈ s.calls.eraseIdx i, f ∈ s.calls := fun f hf => List.mem_of_mem_eraseIdx hf
  cases frame with
  | histogram name metric =>
      obtain ⟨rfl, rfl⟩ := Prod.mk.inj hresume
      refine ⟨?_, by simp⟩
      have hname : s.settled.histograms.lookup name = some metric := by
        rw [s.settled_frame.1]
        exact hframe
      exact hfollows.newHandle hname hrest fun t =>
        settle_finish (s := t) Frame.rest_comm hi
  | sum cell v timer =>
      obtain ⟨rfl, rfl⟩ := Prod.mk.inj hresume
      have hadds : ∀ g, Adds g → ∀ a : Atomics, (g a).addToSum v = g (a.addToSum v) :=
        fun g hg a => hg.sum a v
      have hrest' : ∀ t, (Frame.count cell timer).rest (t.modify cell (·.addToSum v)) =
          (Frame.sum cell v timer).rest t := fun t => State.modify_modify
      have hsettled : settle Frame.rest (s.calls.eraseIdx i ++ [.count cell timer])
          (s.shared.modify cell (·.addToSum v)) = s.settled :=
        settle_resume (fun t => t.modify cell (·.addToSum v)) Frame.rest_comm hi
          (fun f _ t => Frame.rest_modify _ hadds f t) hrest'
      refine ⟨⟨?_, ?_⟩, by simp⟩
      · show State.Tracks (settle _ _ _) _
        rw [hsettled]
        exact hfollows.tracks
      · intro frame hmem
        rcases List.mem_append.mp hmem with hold | hnew
        · exact (hfollows.inUse frame (hrest frame hold)).mono (fun _ _ h => h) le_rfl
        · rw [List.mem_singleton.mp hnew]
          exact hframe
  | count cell timer =>
      obtain ⟨rfl, rfl⟩ := Prod.mk.inj hresume
      have hsettled : settle Frame.rest (s.calls.eraseIdx i)
          (s.shared.modify cell Atomics.addToCount) = s.settled :=
        settle_finish Frame.rest_comm hi
      refine ⟨Follows.returned ⟨?_, ?_⟩ timer, by simp⟩
      · show State.Tracks (settle _ _ _) _
        rw [hsettled]
        exact hfollows.tracks
      · intro frame hmem
        exact (hfollows.inUse frame (hrest frame hmem)).mono (fun _ _ h => h) le_rfl

end Threads

/-- No registration passes a NaN. -/
def Action.NoNan : Action → Prop
  | .call op => op.NoNan
  | _ => True

namespace Threads

variable {s s' : Threads} {es : List Event} {h : History}

theorem Follows.step (hfollows : s.Follows h) {a : Action} (ha : a.NoNan)
    (hstep : s.step a = some (s', es)) :
    s'.Follows (es.foldl History.record h) ∧ ∀ w, .warned w ∈ es → State.InBounds w := by
  have htimer : ∀ {i : Nat} {elapsed : ℚ} {phase : Timer.Phase},
      s.doObserve i elapsed phase = some (s', es) →
      s'.Follows (es.foldl History.record h) ∧ ∀ w, .warned w ∈ es → State.InBounds w := by
    intro i elapsed phase hstep
    obtain ⟨t, called, -, -, heq, hcases⟩ := doObserve_cases hstep
    have hcalled : called.Follows h := heq ▸ ⟨hfollows.tracks, hfollows.inUse⟩
    rcases hcases with ⟨-, rfl, rfl⟩ | ⟨-, hobserve⟩
    · exact ⟨hcalled.returned _, by simp⟩
    · obtain ⟨hobserved, hwarnings⟩ := hcalled.observe hobserve
      refine ⟨hobserved, fun w hw => ?_⟩
      rw [hwarnings w hw]
      trivial
  cases a with
  | call op => exact hfollows.call ha hstep
  | startTimer i =>
      obtain ⟨-, -, hstart⟩ := Option.map_eq_some_iff.mp hstep
      obtain ⟨rfl, rfl⟩ := Prod.mk.inj hstart
      exact ⟨⟨hfollows.tracks, hfollows.inUse⟩, by simp⟩
  | observeDuration | dropTimer => exact htimer hstep
  | resume i =>
      obtain ⟨hresumed, hnone⟩ := hfollows.resume hstep
      exact ⟨hresumed, fun w hw => absurd hw (hnone w)⟩

end Threads

theorem follows_of_run {acts : List Action} {s : Threads} {tr : List Event}
    (hrun : threads.Run acts s tr) (hacts : ∀ a ∈ acts, a.NoNan) :
    s.Follows (.ofEvents tr) ∧ ∀ w, .warned w ∈ tr → State.InBounds w := by
  induction hrun with
  | nil => exact ⟨Threads.follows_init, by simp⟩
  | @snoc acts s tr a s' es _ hstep ih =>
      obtain ⟨hfollows, hbounds⟩ := ih fun a ha => hacts a (List.mem_append_left _ ha)
      obtain ⟨hfollows', hbounds'⟩ := hfollows.step (hacts a (by simp)) hstep
      rw [History.ofEvents_append]
      refine ⟨hfollows', fun w hw => ?_⟩
      rcases List.mem_append.mp hw with hold | hnew
      · exact hbounds w hold
      · exact hbounds' w hnew

/-! ## Timers -/

namespace Frame

/-- The timer that the call observes for. -/
def timer? : Frame → Option Nat
  | histogram _ _ => none
  | sum _ _ timer | count _ timer => timer

@[simp] theorem timer?_histogram (name : String) (metric : Nat) :
    (histogram name metric).timer? = none := rfl

@[simp] theorem timer?_sum (cell : Nat) (v : ℚ) (timer : Option Nat) :
    (sum cell v timer).timer? = timer := rfl

@[simp] theorem timer?_count (cell : Nat) (timer : Option Nat) :
    (count cell timer).timer? = timer := rfl

end Frame

namespace Event

def timer? : Event → Option Nat
  | observed _ _ timer => timer
  | _ => none

@[simp] theorem timer?_observed (handle : Nat) (v : Value) (timer : Option Nat) :
    (observed handle v timer).timer? = timer := rfl

@[simp] theorem timer?_created (name : String) : (created name).timer? = none := rfl

@[simp] theorem timer?_labelled (handle : Nat) (key : LabelKey) :
    (labelled handle key).timer? = none := rfl

@[simp] theorem timer?_warned (w : Warning) : (warned w).timer? = none := rfl

end Event

namespace Timer

/-- How many observations of the timer are in progress. -/
def running (t : Timer) : Nat := if t.observed = false ∧ t.phase ≠ .idle then 1 else 0

/-- How many observations of the timer have begun. -/
def begun (t : Timer) : Nat := if t.observed = true ∨ t.phase ≠ .idle then 1 else 0

end Timer

namespace Threads

/-- Every timer that observed or was called is accounted for by one observation. -/
structure Timed (s : Threads) (tr : List Event) : Prop where
  calls : ∀ i, s.calls.countP (·.timer? = some i) = (s.timers[i]?).elim 0 Timer.running
  events : ∀ i, tr.countP (·.timer? = some i) = (s.timers[i]?).elim 0 Timer.begun
  own : ∀ i handle v, .observed handle v (some i) ∈ tr →
    ∃ t, s.timers[i]? = some t ∧ t.histogram = handle

variable {s s' : Threads} {tr es : List Event} {i : Nat}

theorem timed_init : init.Timed [] where
  calls _ := rfl
  events _ := rfl
  own := by simp

/-- A step that no timer takes part in. -/
theorem Timed.other (htimed : s.Timed tr) (htimers : s'.timers = s.timers)
    (hcalls : ∀ i, s'.calls.countP (·.timer? = some i) = s.calls.countP (·.timer? = some i))
    (hes : ∀ e ∈ es, e.timer? = none) : s'.Timed (tr ++ es) where
  calls i := by rw [hcalls, htimers, htimed.calls]
  events i := by
    have hnone : es.countP (·.timer? = some i) = 0 :=
      List.countP_eq_zero.mpr fun e he => by simp [hes e he]
    rw [List.countP_append, hnone, htimers, htimed.events]
    rfl
  own i handle v hmem := by
    rw [htimers]
    rcases List.mem_append.mp hmem with hold | hnew
    · exact htimed.own i handle v hold
    · exact absurd (hes _ hnew) (Option.some_ne_none i)

theorem Timed.observe (htimed : s.Timed tr) {v : Value}
    (hstep : s.observe i v none = some (s', es)) : s'.Timed (tr ++ es) := by
  obtain ⟨handle, -, hobserve⟩ := Option.map_eq_some_iff.mp hstep
  cases v with
  | finite v =>
      obtain ⟨rfl, rfl⟩ := Prod.mk.inj hobserve
      refine htimed.other rfl (fun i => ?_) ?_
      · simp
      · intro e he
        rcases List.mem_cons.mp he with rfl | he
        · rfl
        · obtain ⟨w, -, rfl⟩ := List.mem_map.mp he
          rfl
  | nan | negInf | posInf =>
      obtain ⟨rfl, rfl⟩ := Prod.mk.inj hobserve
      exact htimed.other rfl (fun _ => rfl) (by simp)

/-- A step that one timer takes part in. -/
theorem Timed.replace (htimed : s.Timed tr) {t : Timer} (t' : Timer) (ht : s.timers[i]? = some t)
    (hsame : t'.histogram = t.histogram) (htimers : s'.timers = s.timers.set i t')
    (hcalls : s'.calls.countP (·.timer? = some i) + t.running =
      s.calls.countP (·.timer? = some i) + t'.running)
    (hrest : ∀ j ≠ i, s'.calls.countP (·.timer? = some j) = s.calls.countP (·.timer? = some j))
    (hevents : es.countP (·.timer? = some i) + t.begun = t'.begun)
    (hown : ∀ e ∈ es, ∀ j, e.timer? = some j →
      j = i ∧ ∃ v, e = .observed t.histogram v (some i)) : s'.Timed (tr ++ es) := by
  have hlt : i < s.timers.length := (List.getElem?_eq_some_iff.mp ht).1
  have hself : s'.timers[i]? = some t' := by simp [htimers, hlt]
  have hother : ∀ j ≠ i, s'.timers[j]? = s.timers[j]? := by
    intro j hne
    rw [htimers, List.getElem?_set_ne hne.symm]
  refine ⟨fun j => ?_, fun j => ?_, fun j handle v hmem => ?_⟩
  · rcases eq_or_ne j i with rfl | hne
    · have hbefore := htimed.calls j
      rw [ht, Option.elim_some] at hbefore
      rw [hself, Option.elim_some]
      omega
    · rw [hrest j hne, hother j hne, htimed.calls]
  · rw [List.countP_append]
    rcases eq_or_ne j i with rfl | hne
    · have hbefore := htimed.events j
      rw [ht, Option.elim_some] at hbefore
      rw [hself, Option.elim_some]
      omega
    · have hnone : es.countP (·.timer? = some j) = 0 :=
        List.countP_eq_zero.mpr fun e he heq => hne (hown e he j (of_decide_eq_true heq)).1
      rw [hnone, hother j hne, htimed.events]
      rfl
  · rcases List.mem_append.mp hmem with hold | hnew
    · obtain ⟨u, hu, hhistogram⟩ := htimed.own j handle v hold
      rcases eq_or_ne j i with rfl | hne
      · obtain rfl : t = u := Option.some.inj (ht.symm.trans hu)
        exact ⟨t', hself, hsame.trans hhistogram⟩
      · exact ⟨u, (hother j hne).trans hu, hhistogram⟩
    · obtain ⟨rfl, w, heq⟩ := hown _ hnew j rfl
      obtain ⟨rfl, -⟩ := Event.observed.inj heq
      exact ⟨t', hself, hsame⟩

/-- The timer of a call that returns is the timer with its observation over. -/
theorem returned_timers {t : Timer} (ht : s.timers[i]? = some t) :
    (s.returned (some i)).timers = s.timers.set i t.returned := by
  refine List.ext_getElem? fun j => ?_
  obtain ⟨hlt, rfl⟩ := List.getElem?_eq_some_iff.mp ht
  rcases eq_or_ne i j with rfl | hne
  · simp [returned, hlt]
  · simp [returned, hne]

/-- A call of an idle timer begins its observation, or returns when there was one. -/
theorem Timed.doObserve (htimed : s.Timed tr) {elapsed : ℚ} {phase : Timer.Phase}
    (hphase : phase ≠ .idle) (hstep : s.doObserve i elapsed phase = some (s', es)) :
    s'.Timed (tr ++ es) := by
  obtain ⟨t, called, ht, hidle, rfl, hcases⟩ := doObserve_cases hstep
  have hlt : i < s.timers.length := (List.getElem?_eq_some_iff.mp ht).1
  rcases hcases with ⟨hobserved, rfl, rfl⟩ | ⟨hobserved, hobserve⟩
  · refine htimed.replace (Timer.returned { t with phase := phase }) ht rfl ?_ ?_
      (fun _ _ => rfl) ?_ (by simp)
    · rw [returned_timers (t := { t with phase := phase }) (by simp [hlt])]
      simp
    · simp [Timer.running, Timer.returned, hobserved, returned]
    · simp [Timer.begun, Timer.returned, hobserved]
  · obtain ⟨handle, -, heq⟩ := Option.map_eq_some_iff.mp hobserve
    obtain ⟨rfl, rfl⟩ := Prod.mk.inj heq
    refine htimed.replace { t with phase := phase } ht rfl rfl ?_ ?_ ?_ ?_
    · simp [Timer.running, hidle, hobserved, hphase]
    · intro j hne
      simp [hne.symm]
    · simp [Timer.begun, hidle, hobserved, hphase, List.countP_map]
    · intro e he j hj
      rcases List.mem_cons.mp he with rfl | he
      · exact ⟨(Option.some.inj hj).symm, _, rfl⟩
      · obtain ⟨w, -, rfl⟩ := List.mem_map.mp he
        exact absurd hj (Option.some_ne_none j).symm

theorem Timed.resume (htimed : s.Timed tr) (hstep : s.resume i = some (s', es)) :
    s'.Timed (tr ++ es) := by
  obtain ⟨frame, hi, hresume⟩ := Option.map_eq_some_iff.mp hstep
  obtain ⟨hlt, hget⟩ := List.getElem?_eq_some_iff.mp hi
  have hperm : (frame :: s.calls.eraseIdx i).Perm s.calls :=
    hget ▸ List.getElem_cons_eraseIdx_perm hlt
  have hcount : ∀ j, s.calls.countP (·.timer? = some j) =
      (s.calls.eraseIdx i).countP (·.timer? = some j) +
        if decide (frame.timer? = some j) then 1 else 0 := by
    intro j
    rw [← hperm.countP_eq, List.countP_cons]
  cases frame with
  | histogram name metric =>
      obtain ⟨rfl, rfl⟩ := Prod.mk.inj hresume
      refine htimed.other rfl (fun j => ?_) (by simp)
      rw [hcount]
      simp
  | sum cell v timer =>
      obtain ⟨rfl, rfl⟩ := Prod.mk.inj hresume
      refine htimed.other rfl (fun j => ?_) (by simp)
      rw [hcount, List.countP_append, List.countP_singleton]
      rfl
  | count cell timer =>
      obtain ⟨rfl, rfl⟩ := Prod.mk.inj hresume
      cases timer with
      | none =>
          refine htimed.other rfl (fun j => ?_) (by simp)
          rw [hcount]
          simp [returned]
      | some k =>
          -- the call is the one that is in progress for the timer
          have hcalls := htimed.calls k
          rw [hcount, Frame.timer?_count, if_pos (decide_eq_true rfl)] at hcalls
          obtain ⟨t, ht⟩ : ∃ t, s.timers[k]? = some t := by
            cases ht : s.timers[k]? with
            | none => exact absurd (hcalls.trans (by rw [ht]; rfl)) (Nat.succ_ne_zero _)
            | some t => exact ⟨t, rfl⟩
          rw [ht, Option.elim_some, Timer.running] at hcalls
          obtain ⟨hobserved, hphase⟩ : t.observed = false ∧ t.phase ≠ .idle := by
            by_contra hnot
            rw [if_neg hnot] at hcalls
            exact Nat.succ_ne_zero _ hcalls
          refine htimed.replace t.returned ht rfl (returned_timers ht) ?_ (fun j hne => ?_) ?_
            (by simp)
          · rw [hcount]
            simp [returned, Timer.running, Timer.returned, hobserved, hphase]
          · rw [hcount]
            simp [returned, hne.symm]
          · simp [Timer.begun, Timer.returned, hphase]

theorem Timed.step (htimed : s.Timed tr) {a : Action} (hstep : s.step a = some (s', es)) :
    s'.Timed (tr ++ es) := by
  cases a with
  | call op =>
      cases op with
      | histogram name buckets =>
          obtain ⟨rfl, rfl⟩ := Prod.mk.inj (Option.some.inj hstep)
          refine htimed.other rfl (fun j => ?_) ?_
          · simp
          · intro e he
            rcases List.mem_cons.mp he with rfl | he
            · rfl
            · obtain ⟨w, -, rfl⟩ := List.mem_map.mp he
              rfl
      | withLabels | withoutLabels =>
          obtain ⟨handle, -, hcreate⟩ := Option.map_eq_some_iff.mp hstep
          obtain ⟨rfl, rfl⟩ := Prod.mk.inj hcreate
          exact htimed.other rfl (fun _ => rfl) (by simp)
      | observe => exact htimed.observe hstep
  | startTimer i =>
      obtain ⟨handle, -, hstart⟩ := Option.map_eq_some_iff.mp hstep
      obtain ⟨rfl, rfl⟩ := Prod.mk.inj hstart
      have htimers : ∀ (f : Timer → Nat) (j : Nat), f ⟨i, false, .idle⟩ = 0 →
          ((s.timers ++ [⟨i, false, .idle⟩])[j]?).elim 0 f = (s.timers[j]?).elim 0 f := by
        intro f j hf
        rcases Nat.lt_trichotomy j s.timers.length with hlt | rfl | hgt
        · rw [List.getElem?_append_left hlt]
        · simp [hf]
        · have hnone : (s.timers ++ [⟨i, false, .idle⟩])[j]? = none :=
            List.getElem?_eq_none (by simp only [List.length_append, List.length_singleton]; omega)
          rw [hnone, List.getElem?_eq_none hgt.le]
      rw [List.append_nil]
      refine ⟨fun j => ?_, fun j => ?_, fun j handle v hmem => ?_⟩
      · rw [htimers _ j rfl, htimed.calls]
      · rw [htimers _ j rfl, htimed.events]
      · obtain ⟨t, ht, hhistogram⟩ := htimed.own j handle v hmem
        have hlt : j < s.timers.length := (List.getElem?_eq_some_iff.mp ht).1
        exact ⟨t, (List.getElem?_append_left hlt).trans ht, hhistogram⟩
  | observeDuration | dropTimer => exact htimed.doObserve (by decide) hstep
  | resume => exact htimed.resume hstep

end Threads

variable {acts : List Action} {s : Threads} {tr : List Event}

theorem timed_of_run (hrun : threads.Run acts s tr) : s.Timed tr :=
  Machine.invariant Threads.timed_init (fun _ _ _ _ _ htimed hstep => htimed.step hstep) hrun

/-! ## Calls come to their end -/

namespace Frame

/-- How many atomic operations the call has still to do. -/
def left : Frame → Nat
  | histogram _ _ | count _ _ => 1
  | sum _ _ _ => 2

end Frame

namespace Threads

def left (s : Threads) : Nat := (s.calls.map Frame.left).sum

theorem exists_resume {s : Threads} (hcalls : s.calls ≠ []) :
    ∃ s' es, s.step (.resume 0) = some (s', es) ∧ s'.left < s.left := by
  obtain ⟨shared, calls, timers⟩ := s
  obtain ⟨frame, calls, rfl⟩ := List.exists_cons_of_ne_nil hcalls
  cases frame with
  | histogram name metric => exact ⟨_, _, rfl, by simp [left, Frame.left]⟩
  | sum cell v timer =>
      refine ⟨_, _, rfl, ?_⟩
      simp only [left, List.eraseIdx_cons_zero, List.map_append, List.map_cons, List.map_nil,
        List.sum_append, List.sum_cons, List.sum_nil, Frame.left]
      omega
  | count cell timer =>
      refine ⟨_, _, rfl, ?_⟩
      rw [left, (settled_returned _ timer).2.1]
      simp [left, Frame.left]

end Threads

/-- The calls in progress can be done, whatever they are. -/
theorem exists_finished (hrun : threads.Run acts s tr) :
    ∃ n s' es, threads.Run (acts ++ List.replicate n (.resume 0)) s' (tr ++ es) ∧
      s'.calls = [] := by
  induction hleft : s.left using Nat.strong_induction_on generalizing acts s tr with
  | _ n ih =>
      by_cases hcalls : s.calls = []
      · exact ⟨0, s, [], by simpa using hrun, hcalls⟩
      · obtain ⟨s₁, es₁, hstep, hlt⟩ := Threads.exists_resume hcalls
        have hrun₁ : threads.Run (acts ++ [.resume 0]) s₁ (tr ++ es₁) := hrun.snoc hstep
        obtain ⟨k, s', es, hfinished, hnone⟩ := ih _ (hleft ▸ hlt) hrun₁ rfl
        refine ⟨k + 1, s', es₁ ++ es, ?_, hnone⟩
        simpa [List.replicate_succ, List.append_assoc] using hfinished

/-! ## Programs are threads whose calls do not overlap -/

/-- A call that is not interrupted is a step of a program. -/
theorem exists_uninterrupted {s s' : State} {op : Op} {ws : List Warning}
    (hstep : s.step op = some (s', ws)) (timers : List Timer) (h : History) :
    ∃ n es, threads.execFrom ⟨s, [], timers⟩ (.call op :: List.replicate n (.resume 0)) =
        some (⟨s', [], timers⟩, es) ∧ es.foldl History.record h = h.extend op ∧
      ∀ w, .warned w ∈ es ↔ w ∈ ws := by
  cases op with
  | histogram name buckets =>
      obtain ⟨rfl, rfl⟩ : (s.histogram name buckets).1 = s' ∧
          (s.histogram name buckets).2 = ws := Prod.mk.inj (Option.some.inj hstep)
      refine ⟨1, (.registered name buckets :: (s.histogram name buckets).2.map .warned) ++
        [.created name], rfl, ?_, by simp⟩
      simp only [List.foldl_append, List.foldl_cons, List.foldl_nil]
      rw [History.record_warnings _ (by simp)]
      rfl
  | withLabels i labels =>
      obtain ⟨handle, hi, hcreate⟩ := Option.map_eq_some_iff.mp hstep
      obtain ⟨rfl, rfl⟩ := Prod.mk.inj hcreate
      refine ⟨0, [.labelled i (.new labels)], ?_, rfl, by simp⟩
      simp [Machine.execFrom, threads, Threads.step, Threads.call, hi]
  | withoutLabels i =>
      obtain ⟨handle, hi, hcreate⟩ := Option.map_eq_some_iff.mp hstep
      obtain ⟨rfl, rfl⟩ := Prod.mk.inj hcreate
      refine ⟨0, [.labelled i .empty], ?_, rfl, by simp⟩
      simp [Machine.execFrom, threads, Threads.step, Threads.call, hi]
  | observe i v =>
      obtain ⟨handle, hi, hobserve⟩ := Option.map_eq_some_iff.mp hstep
      obtain ⟨rfl, rfl⟩ : (s.observe handle v).1 = s' ∧ (s.observe handle v).2 = ws :=
        Prod.ext_iff.mp hobserve
      refine ⟨if v.finite?.isSome then 2 else 0,
        .observed i v none :: (s.observe handle v).2.map .warned, ?_, ?_, by simp⟩
      · cases v with
        | finite v =>
            rw [State.observe_eq_modify, List.map_map,
              ← State.modify_modify (f := (·.addToSum v)) (g := Atomics.addToCount)]
            simp [Machine.execFrom, threads, Threads.step, Threads.call, Threads.observe, hi,
              Threads.resume, Value.finite?, Threads.returned, List.replicate]
            rfl
        | nan | negInf | posInf =>
            simp [Machine.execFrom, threads, Threads.step, Threads.call, Threads.observe, hi,
              Value.finite?, Threads.returned, State.observe, Atomics.observe]
      · rw [List.foldl_cons, History.record_warnings _ (by simp)]
        rfl

/-- A program leaves the metrics as threads that do its operations one after the other. -/
theorem exists_threads_of_run {ops : List Op} {s : State} {ws : List Warning}
    (hrun : inMemoryHistograms.Run ops s ws) :
    ∃ acts tr, threads.Run acts ⟨s, [], []⟩ tr ∧ History.ofEvents tr = .ofOps ops ∧
      ∀ w, .warned w ∈ tr ↔ w ∈ ws := by
  induction hrun with
  | nil => exact ⟨[], [], .nil, rfl, by simp⟩
  | @snoc ops s ws op s' ws' _ hstep ih =>
      obtain ⟨acts, tr, hthreads, hhistory, hwarnings⟩ := ih
      obtain ⟨n, es, hexec, hrecord, hnew⟩ := exists_uninterrupted hstep [] (.ofOps ops)
      refine ⟨_, tr ++ es, hthreads.append_execFrom hexec, ?_, fun w => ?_⟩
      · rw [History.ofEvents_append, hhistory, hrecord, History.ofOps_concat]
      · rw [List.mem_append, List.mem_append, hwarnings, hnew]

/-! ## What the threads leave -/

/-- Two threads register one metric at the same time and observe on it, and so does a timer
while they do. -/
def overlapping : List Action :=
  [.call (.histogram "latency" (some [.finite 1, .finite 2])),
    .call (.histogram "latency" (some [.finite 9])),
    .resume 1, .resume 0,
    .startTimer 0,
    .call (.observe 0 (.finite 3)),
    .call (.observe 1 (.finite 1)),
    .observeDuration 0 2,
    .resume 1, .resume 0, .resume 0, .resume 0, .resume 0, .resume 0,
    .dropTimer 0 5]

end SfRs.Metrics.Histograms
