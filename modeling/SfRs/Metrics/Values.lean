import Mathlib.Algebra.Order.Ring.Rat
import SfRs.Lib.Directory
import SfRs.Lib.Machine
import SfRs.Metrics.Common
/-!
# Counters and gauges

A handle shares the storage of its metric and the cell of its series with every handle
obtained for the same labels, whichever way it was obtained.  Storages and cells live on
a heap, and a handle is a pair of references.  The abstract model is a `History`: the
series of each handle and the updates of each series.  A value is computed from it by what
each update sets and adds, and not by the operations of the cells.
-/

namespace SfRs.Metrics

open SfRs.Lib

/-- The storages and cells allocated so far.  `CounterStorage` and `GaugeStorage` are the
same type. -/
structure Heap where
  storages : Nat → AList fun _ : LabelKey => Nat
  storageCount : Nat
  cells : Nat → ℚ
  cellCount : Nat

inductive Kind where
  | counter
  | gauge
  deriving DecidableEq

structure InMemoryMetrics where
  counters : AList fun _ : String => Nat
  gauges : AList fun _ : String => Nat

/-- An `InMemoryCounter` or an `InMemoryGauge`. -/
structure Handle where
  kind : Kind
  metrics : Nat
  value : Nat

inductive Update where
  | increment
  | incrementBy (v : ℚ)
  | decrement
  | set (v : ℚ)
  | add (v : ℚ)
  | subtract (v : ℚ)

/-- The operations of a program, which names its handles in the order it got them. -/
inductive Op where
  | counter (name : String)
  | gauge (name : String)
  | withLabels (handle : Nat) (labels : Labels)
  | withoutLabels (handle : Nat)
  | clone (handle : Nat)
  | update (handle : Nat) (u : Update)

/-- The labels that the operation passes have distinct keys. -/
def Op.Distinct : Op → Prop
  | .withLabels _ labels => DistinctKeys labels
  | _ => True

instance : DecidablePred Op.Distinct
  | .withLabels _ labels => inferInstanceAs (Decidable (DistinctKeys labels))
  | .counter _ | .gauge _ | .withoutLabels _ | .clone _ | .update _ _ => .isTrue trivial

inductive Warning where
  | negativeIncrement (v : ℚ)

structure State where
  heap : Heap
  metrics : InMemoryMetrics
  handles : List Handle

/-- The methods of `Counter` and of `Gauge`. -/
def Update.IsOf : Update → Kind → Bool
  | .increment, _ => true
  | .incrementBy _, kind => kind = .counter
  | .decrement, kind | .set _, kind | .add _, kind | .subtract _, kind => kind = .gauge

def Update.apply : Update → ℚ → ℚ
  | .increment, value => value + 1
  | .incrementBy v, value => if v < 0 then value else value + v
  | .decrement, value => value - 1
  | .set v, _ => v
  | .add v, value => value + v
  | .subtract v, value => value - v

def Update.warnings : Update → List Warning
  | .incrementBy v => if v < 0 then [.negativeIncrement v] else []
  | _ => []

def InMemoryMetrics.field (metrics : InMemoryMetrics) :
    Kind → AList fun _ : String => Nat
  | .counter => metrics.counters
  | .gauge => metrics.gauges

def InMemoryMetrics.setField (metrics : InMemoryMetrics) (kind : Kind)
    (field : AList fun _ : String => Nat) : InMemoryMetrics :=
  match kind with
  | .counter => { metrics with counters := field }
  | .gauge => { metrics with gauges := field }

namespace Heap

/-- `MetricStorage::new`. -/
def newStorage (heap : Heap) : Nat × Heap :=
  (heap.storageCount,
    { heap with
      storages := Function.update heap.storages heap.storageCount ∅
      storageCount := heap.storageCount + 1 })

/-- `MetricStorage::get_or_create_default`. -/
def getOrCreateDefault (heap : Heap) (storage : Nat) (key : LabelKey) : Nat × Heap :=
  match (heap.storages storage).lookup key with
  | some cell => (cell, heap)
  | none =>
      (heap.cellCount,
        { heap with
          storages := Function.update heap.storages storage
            ((heap.storages storage).insert key heap.cellCount)
          cells := Function.update heap.cells heap.cellCount 0
          cellCount := heap.cellCount + 1 })

def modify (heap : Heap) (cell : Nat) (f : ℚ → ℚ) : Heap :=
  { heap with cells := Function.update heap.cells cell (f (heap.cells cell)) }

end Heap

namespace State

def init : State where
  heap := { storages := fun _ => ∅, storageCount := 0, cells := fun _ => 0, cellCount := 0 }
  metrics := { counters := ∅, gauges := ∅ }
  handles := []

/-- The storage of the metric `name`, which is created if there is none. -/
def register (s : State) (kind : Kind) (name : String) : Nat × State :=
  match (s.metrics.field kind).lookup name with
  | some storage => (storage, s)
  | none =>
      let r := s.heap.newStorage
      let field := (s.metrics.field kind).insert name r.1
      (r.1, { s with heap := r.2, metrics := s.metrics.setField kind field })

/-- `InMemoryCounter::new` and `InMemoryGauge::new`. -/
def newHandle (s : State) (kind : Kind) (storage : Nat) (key : LabelKey) : State :=
  let r := s.heap.getOrCreateDefault storage key
  { s with
    heap := r.2
    handles := s.handles ++ [{ kind := kind, metrics := storage, value := r.1 }] }

def create (s : State) (kind : Kind) (name : String) : State :=
  let r := s.register kind name
  r.2.newHandle kind r.1 .empty

def counter (s : State) (name : String) : State := s.create .counter name

def gauge (s : State) (name : String) : State := s.create .gauge name

def step (s : State) : Op → Option (State × List Warning)
  | .counter name => some (s.counter name, [])
  | .gauge name => some (s.gauge name, [])
  | .withLabels handle labels =>
      s.handles[handle]?.map fun h => (s.newHandle h.kind h.metrics (.new labels), [])
  | .withoutLabels handle =>
      s.handles[handle]?.map fun h => (s.newHandle h.kind h.metrics .empty, [])
  | .clone handle =>
      s.handles[handle]?.map fun h => ({ s with handles := s.handles ++ [h] }, [])
  | .update handle u =>
      s.handles[handle]?.bind fun h =>
        if u.IsOf h.kind then
          some ({ s with heap := s.heap.modify h.value u.apply }, u.warnings)
        else none

def getValue (s : State) (kind : Kind) (name : String) (labels : Labels) : Option ℚ :=
  ((s.metrics.field kind).lookup name).bind fun storage =>
    ((s.heap.storages storage).lookup (.new labels)).map s.heap.cells

def getCounterValue (s : State) (name : String) (labels : Labels) : Option ℚ :=
  s.getValue .counter name labels

def getGaugeValue (s : State) (name : String) (labels : Labels) : Option ℚ :=
  s.getValue .gauge name labels

end State

/-- Any program on fresh metrics. -/
def inMemoryMetrics : Machine State Op Warning where
  init := .init
  step := State.step

/-! ## The history of a program -/

/-- A metric with a set of labels. -/
structure Series where
  kind : Kind
  name : String
  labels : Finset (String × String)

-- the derived instance does not evaluate on label sets listed in two orders
instance : DecidableEq Series := fun a b =>
  decidable_of_iff (a.kind = b.kind ∧ a.name = b.name ∧ a.labels = b.labels)
    (by cases a; cases b; simp)

/-- The value that an update starts again from. -/
def Update.start : Update → Option ℚ
  | .set v => some v
  | _ => none

/-- What an update adds.  A counter does not go back. -/
def Update.amount : Update → ℚ
  | .increment => 1
  | .incrementBy v => max v 0
  | .decrement => -1
  | .set _ => 0
  | .add v => v
  | .subtract v => -v

/-- The series of each handle, and the updates in the order they were made. -/
structure History where
  handles : List Series
  updates : List (Series × Update)

namespace History

/-- The series that an operation is about. -/
def target (h : History) : Op → Option Series
  | .counter name => some ⟨.counter, name, ∅⟩
  | .gauge name => some ⟨.gauge, name, ∅⟩
  | .withLabels handle labels =>
      h.handles[handle]?.map fun series => { series with labels := labels.toFinset }
  | .withoutLabels handle => h.handles[handle]?.map fun series => { series with labels := ∅ }
  | .clone handle | .update handle _ => h.handles[handle]?

def addHandle (h : History) (series : Series) : History :=
  { h with handles := h.handles ++ [series] }

def addUpdate (h : History) (series : Series) (u : Update) : History :=
  { h with updates := h.updates ++ [(series, u)] }

def extend (h : History) (op : Op) : History :=
  match op, h.target op with
  | .update _ u, some series => h.addUpdate series u
  | _, some series => h.addHandle series
  | _, none => h

def ofOps (ops : List Op) : History := ops.foldl extend ⟨[], []⟩

/-- What the updates of a series come to in their order, from zero. -/
def total (h : History) (series : Series) : ℚ :=
  (h.updates.filter (·.1 = series)).foldl
    (fun value e => e.2.start.getD value + e.2.amount) 0

/-- The value of a series: none if no handle was created for it. -/
def value (h : History) (series : Series) : Option ℚ :=
  if series ∈ h.handles then some (h.total series) else none

end History

/-- The cells compute what the updates set and add. -/
theorem Update.apply_eq (u : Update) (value : ℚ) :
    u.apply value = u.start.getD value + u.amount := by
  cases u with
  | increment | add v => rfl
  | decrement => exact sub_eq_add_neg value 1
  | set v => exact (add_zero v).symm
  | subtract v => exact sub_eq_add_neg value v
  | incrementBy v =>
      rcases lt_or_ge v 0 with hneg | hpos
      · simp [apply, start, amount, hneg, hneg.le]
      · simp [apply, start, amount, hpos, hpos.not_gt]

/-! ## What the history records -/

namespace History

variable {h : History}

theorem ofOps_concat (ops : List Op) (op : Op) :
    ofOps (ops ++ [op]) = (ofOps ops).extend op := by
  rw [ofOps, List.foldl_concat]
  rfl

@[simp] theorem total_addHandle (series series' : Series) :
    (h.addHandle series).total series' = h.total series' := rfl

theorem total_addUpdate_self (series : Series) (u : Update) :
    (h.addUpdate series u).total series = u.apply (h.total series) := by
  simp [total, addUpdate, List.filter_append, Update.apply_eq]

theorem total_addUpdate_ne {series series' : Series} (hne : series ≠ series') (u : Update) :
    (h.addUpdate series u).total series' = h.total series' := by
  simp [total, addUpdate, List.filter_append, hne]

/-- Before a series has a handle it has no updates. -/
theorem total_eq_zero {series : Series} (hupdates : ∀ e ∈ h.updates, e.1 ∈ h.handles)
    (hseries : series ∉ h.handles) : h.total series = 0 := by
  have hnone : h.updates.filter (·.1 = series) = [] := by
    refine List.filter_eq_nil_iff.mpr fun e he heq => hseries ?_
    rw [← of_decide_eq_true heq]
    exact hupdates e he
  rw [total, hnone]
  rfl

end History

/-! ## The state as a directory -/

@[simp] theorem InMemoryMetrics.field_setField_self (metrics : InMemoryMetrics) (kind : Kind)
    (field : AList fun _ : String => Nat) : (metrics.setField kind field).field kind = field := by
  cases kind <;> rfl

theorem InMemoryMetrics.field_setField_ne (metrics : InMemoryMetrics) {kind kind' : Kind}
    (hne : kind ≠ kind') (field : AList fun _ : String => Nat) :
    (metrics.setField kind field).field kind' = metrics.field kind' := by
  cases kind <;> cases kind' <;> first | rfl | exact absurd rfl hne

/-- The series of the key under the name. -/
def seriesOf (e : (Kind × String) × LabelKey) : Series := ⟨e.1.1, e.1.2, e.2.labels.toFinset⟩

/-- The storage and the cell that the handle refers to. -/
def Handle.ref (handle : Handle) : Nat × Nat := (handle.metrics, handle.value)

namespace State

/-- The storages are found by kind and name, and their cells by label key. -/
def directory (s : State) : Directory (Kind × String) LabelKey where
  stores name := (s.metrics.field name.1).lookup name.2
  cells storage key := (s.heap.storages storage).lookup key
  storeCount := s.heap.storageCount
  cellCount := s.heap.cellCount

section

variable {s : State} {kind : Kind} {name : String} {storage : Nat} {key : LabelKey}

theorem register_spec {r : Nat × State} (hr : s.register kind name = r) :
    s.directory.findStore (kind, name) = (r.1, r.2.directory) ∧
      r.2.handles = s.handles ∧ r.2.heap.cells = s.heap.cells := by
  subst hr
  cases hstorage : (s.metrics.field kind).lookup name with
  | some storage => simp [register, Directory.findStore, directory, hstorage]
  | none =>
      simp only [register, Directory.findStore, directory, hstorage]
      refine ⟨Prod.ext rfl (Directory.ext (funext fun name' => ?_) (funext fun storage => ?_)
        rfl rfl), trivial, rfl⟩
      · obtain ⟨kind', name'⟩ := name'
        rcases eq_or_ne kind kind' with rfl | hkind
        · rcases eq_or_ne name' name with rfl | hname
          · simp [Directory.addStore, Heap.newStorage]
          · simp [Directory.addStore, hname]
        · simp [Directory.addStore, InMemoryMetrics.field_setField_ne _ hkind, hkind.symm]
      · rcases eq_or_ne storage s.heap.storageCount with rfl | hne
        · simp [Directory.addStore, Heap.newStorage]
        · simp [Directory.addStore, Heap.newStorage, hne]

theorem newHandle_spec (kind : Kind) {r : Nat × Directory (Kind × String) LabelKey}
    (hr : s.directory.findCell storage key = r) :
    (s.newHandle kind storage key).directory = r.2 ∧
      (s.newHandle kind storage key).handles = s.handles ++ [⟨kind, storage, r.1⟩] ∧
      (∀ cell, s.directory.cells storage key = some cell →
        (s.newHandle kind storage key).heap.cells = s.heap.cells) ∧
      (s.directory.cells storage key = none → (s.newHandle kind storage key).heap.cells =
        Function.update s.heap.cells s.heap.cellCount 0) := by
  subst hr
  cases hcell : (s.heap.storages storage).lookup key with
  | some cell => simp [newHandle, Heap.getOrCreateDefault, Directory.findCell, directory, hcell]
  | none =>
      simp only [newHandle, Heap.getOrCreateDefault, Directory.findCell, directory, hcell]
      refine ⟨Directory.ext rfl (funext fun storage' => ?_) rfl rfl, trivial, by simp, by simp⟩
      rcases eq_or_ne storage' storage with rfl | hne
      · simp [Directory.addCell, lookup_insert_eq_update]
      · simp [Directory.addCell, hne]

end

/-! ## The state follows the history -/

/-- `keys` lists what was asked for by each handle of the history. -/
structure Tracks (s : State) (h : History) (keys : List ((Kind × String) × LabelKey)) :
    Prop where
  holds : s.directory.Holds s.heap.cells (h.total <| seriesOf ·) (s.handles.map Handle.ref) keys
  kinds : s.handles.map Handle.kind = keys.map fun e => e.1.1
  canonical : ∀ e ∈ keys, e.2.Canonical
  handles : h.handles = keys.map seriesOf
  updated : ∀ e ∈ h.updates, e.1 ∈ h.handles

variable {s s' : State} {h : History} {keys : List ((Kind × String) × LabelKey)} {kind : Kind}
  {name : String} {storage : Nat} {key : LabelKey} {handle : Handle}

theorem tracks_init : init.Tracks ⟨[], []⟩ [] where
  holds := .of_stores fun name => by
    obtain ⟨kind, name⟩ := name
    cases kind <;> simp [directory, init, InMemoryMetrics.field]
  kinds := rfl
  canonical := by simp
  handles := rfl
  updated := by simp

/-- Exactly the series that have a handle have a cell. -/
theorem Tracks.mem_handles_iff (htracks : s.Tracks h keys) (hkey : key.Canonical) :
    seriesOf ((kind, name), key) ∈ h.handles ↔
      ∃ cell, s.directory.Reaches (kind, name) key cell := by
  rw [← htracks.holds.mem_iff, htracks.handles, List.mem_map]
  constructor
  · rintro ⟨⟨⟨kind', name'⟩, key'⟩, hmem, heq⟩
    obtain ⟨rfl, rfl, hlabels⟩ : kind' = kind ∧ name' = name ∧
      key'.labels.toFinset = key.labels.toFinset := by simpa [seriesOf] using heq
    obtain rfl := (htracks.canonical _ hmem).eq_of_toFinset hkey hlabels
    exact hmem
  · exact fun hmem => ⟨_, hmem, rfl⟩

/-- One series is one key. -/
theorem Tracks.eq_of_seriesOf (htracks : s.Tracks h keys) {e e' : (Kind × String) × LabelKey}
    (he : e ∈ keys) (he' : e' ∈ keys) (heq : seriesOf e = seriesOf e') : e = e' := by
  obtain ⟨⟨kind, name⟩, key⟩ := e
  obtain ⟨⟨kind', name'⟩, key'⟩ := e'
  obtain ⟨rfl, rfl, hlabels⟩ : kind = kind' ∧ name = name' ∧
    key.labels.toFinset = key'.labels.toFinset := by simpa [seriesOf] using heq
  obtain rfl := (htracks.canonical _ he).eq_of_toFinset (htracks.canonical _ he') hlabels
  rfl

theorem Tracks.register (htracks : s.Tracks h keys) {r : Nat × State}
    (hr : s.register kind name = r) :
    r.2.Tracks h keys ∧ r.2.directory.stores (kind, name) = some r.1 := by
  obtain ⟨hdirectory, hhandles, hcells⟩ := register_spec hr
  obtain ⟨hholds, hstore⟩ := htracks.holds.findStore hdirectory
  refine ⟨⟨?_, hhandles ▸ htracks.kinds, htracks.canonical, htracks.handles, htracks.updated⟩,
    hstore⟩
  rw [hcells, hhandles]
  exact hholds

theorem Tracks.newHandle (htracks : s.Tracks h keys)
    (hstore : s.directory.stores (kind, name) = some storage) (hkey : key.Canonical) :
    (s.newHandle kind storage key).Tracks (h.addHandle (seriesOf ((kind, name), key)))
      (keys ++ [((kind, name), key)]) := by
  generalize hr : s.directory.findCell storage key = r
  obtain ⟨hdirectory, hhandles, hold, hnew⟩ := newHandle_spec kind hr
  have hholds := htracks.holds.findCell hstore hr hold fun hnone hunlisted => by
    -- a fresh cell is zero, and the series has no updates yet
    rw [hnew hnone]
    refine congrArg _ (History.total_eq_zero htracks.updated fun hmem => hunlisted ?_).symm
    exact htracks.holds.mem_iff.mpr ((htracks.mem_handles_iff hkey).mp hmem)
  refine ⟨?_, ?_, ?_, ?_, fun e he => List.mem_append_left _ (htracks.updated e he)⟩
  · rw [hdirectory, hhandles, List.map_append]
    exact hholds
  · rw [hhandles, List.map_append, List.map_append, htracks.kinds]
    rfl
  · intro e he
    rcases List.mem_append.mp he with hold | hnew
    · exact htracks.canonical e hold
    · rw [List.mem_singleton.mp hnew]
      exact hkey
  · rw [History.addHandle, htracks.handles, List.map_append]
    rfl

/-- The handle is one of the series of the key. -/
theorem Tracks.getElem? (htracks : s.Tracks h keys) {i : Nat} (hi : s.handles[i]? = some handle) :
    ∃ name key, h.handles[i]? = some (seriesOf ((handle.kind, name), key)) ∧
      ((handle.kind, name), key) ∈ keys ∧
      s.directory.Refers handle.ref ((handle.kind, name), key) := by
  have href : (s.handles.map Handle.ref)[i]? = some handle.ref := by simp [hi]
  obtain ⟨⟨⟨kind, name⟩, key⟩, hkeys, hrefers⟩ := htracks.holds.getElem? href
  have hkinds : (s.handles.map Handle.kind)[i]? = some handle.kind := by simp [hi]
  obtain rfl : handle.kind = kind := by
    rw [htracks.kinds, List.getElem?_map, hkeys] at hkinds
    exact (Option.some.inj hkinds).symm
  refine ⟨name, key, ?_, List.mem_of_getElem? hkeys, hrefers⟩
  rw [htracks.handles, List.getElem?_map, hkeys]
  rfl

theorem Tracks.clone (htracks : s.Tracks h keys)
    (hrefers : s.directory.Refers handle.ref ((handle.kind, name), key)) (hkey : key.Canonical) :
    Tracks { s with handles := s.handles ++ [handle] }
      (h.addHandle (seriesOf ((handle.kind, name), key)))
      (keys ++ [((handle.kind, name), key)]) where
  holds := by
    rw [List.map_append]
    exact htracks.holds.clone hrefers
  kinds := by
    rw [List.map_append, List.map_append, htracks.kinds]
    rfl
  canonical := by
    intro e he
    rcases List.mem_append.mp he with hold | hnew
    · exact htracks.canonical e hold
    · rw [List.mem_singleton.mp hnew]
      exact hkey
  handles := by
    rw [History.addHandle, htracks.handles, List.map_append]
    rfl
  updated := fun e he => List.mem_append_left _ (htracks.updated e he)

theorem Tracks.modify (htracks : s.Tracks h keys)
    (hrefers : s.directory.Refers handle.ref ((kind, name), key))
    (hmem : ((kind, name), key) ∈ keys) (u : Update) :
    Tracks { s with heap := s.heap.modify handle.value u.apply }
      (h.addUpdate (seriesOf ((kind, name), key)) u) keys where
  holds := by
    have hcell := htracks.holds.contents ⟨handle.metrics, hrefers⟩
    refine htracks.holds.write hrefers ?_ fun e he hne => ?_
    · rw [History.total_addUpdate_self, ← hcell]
      rfl
    · refine History.total_addUpdate_ne (fun heq => hne ?_) u
      exact (htracks.eq_of_seriesOf hmem he heq).symm
  kinds := htracks.kinds
  canonical := htracks.canonical
  handles := htracks.handles
  updated := by
    intro e he
    rcases List.mem_append.mp he with hold | hnew
    · exact htracks.updated e hold
    · rw [List.mem_singleton.mp hnew, History.addUpdate, htracks.handles]
      exact List.mem_map_of_mem hmem

theorem Tracks.create (htracks : s.Tracks h keys) (kind : Kind) (name : String) :
    (s.create kind name).Tracks (h.addHandle ⟨kind, name, ∅⟩)
      (keys ++ [((kind, name), .empty)]) := by
  unfold State.create
  generalize hr : s.register kind name = r
  obtain ⟨hregistered, hstore⟩ := htracks.register hr
  exact hregistered.newHandle hstore canonical_empty

theorem Tracks.step (htracks : s.Tracks h keys) {op : Op} (hop : op.Distinct)
    {ws : List Warning} (hstep : s.step op = some (s', ws)) :
    ∃ keys', s'.Tracks (h.extend op) keys' := by
  cases op with
  | counter name =>
      obtain ⟨rfl, -⟩ : s.counter name = s' ∧ _ := by simpa [State.step] using hstep
      exact ⟨_, htracks.create .counter name⟩
  | gauge name =>
      obtain ⟨rfl, -⟩ : s.gauge name = s' ∧ _ := by simpa [State.step] using hstep
      exact ⟨_, htracks.create .gauge name⟩
  | withLabels i labels =>
      obtain ⟨handle, hi, rfl, -⟩ : ∃ handle, s.handles[i]? = some handle ∧
          s.newHandle handle.kind handle.metrics (.new labels) = s' ∧ _ := by
        simpa [State.step] using hstep
      obtain ⟨name, key, hseries, -, hrefers⟩ := htracks.getElem? hi
      have hnew := htracks.newHandle hrefers.1 (canonical_new hop)
      refine ⟨keys ++ [((handle.kind, name), .new labels)], ?_⟩
      simpa [History.extend, History.target, hseries, seriesOf, toFinset_new, Handle.ref] using hnew
  | withoutLabels i =>
      obtain ⟨handle, hi, rfl, -⟩ : ∃ handle, s.handles[i]? = some handle ∧
          s.newHandle handle.kind handle.metrics .empty = s' ∧ _ := by
        simpa [State.step] using hstep
      obtain ⟨name, key, hseries, -, hrefers⟩ := htracks.getElem? hi
      have hnew := htracks.newHandle hrefers.1 canonical_empty
      refine ⟨keys ++ [((handle.kind, name), .empty)], ?_⟩
      simpa [History.extend, History.target, hseries, seriesOf, Handle.ref] using hnew
  | clone i =>
      obtain ⟨handle, hi, rfl, -⟩ : ∃ handle, s.handles[i]? = some handle ∧
          { s with handles := s.handles ++ [handle] } = s' ∧ _ := by
        simpa [State.step] using hstep
      obtain ⟨name, key, hseries, hmem, hrefers⟩ := htracks.getElem? hi
      refine ⟨keys ++ [((handle.kind, name), key)], ?_⟩
      simpa [History.extend, History.target, hseries] using
        htracks.clone hrefers (htracks.canonical _ hmem)
  | update i u =>
      obtain ⟨handle, hi, -, rfl, -⟩ : ∃ handle, s.handles[i]? = some handle ∧
          u.IsOf handle.kind ∧ { s with heap := s.heap.modify handle.value u.apply } = s' ∧ _ := by
        simpa [State.step, Option.bind_eq_some_iff] using hstep
      obtain ⟨name, key, hseries, hmem, hrefers⟩ := htracks.getElem? hi
      refine ⟨keys, ?_⟩
      simpa [History.extend, History.target, hseries] using htracks.modify hrefers hmem u

/-- The value of a series is what is read through its canonical key. -/
theorem Tracks.lookup (htracks : s.Tracks h keys) (kind : Kind) (name : String)
    (hkey : key.Canonical) :
    (((s.metrics.field kind).lookup name).bind fun storage =>
      ((s.heap.storages storage).lookup key).map s.heap.cells) =
        h.value (seriesOf ((kind, name), key)) := by
  by_cases hseries : seriesOf ((kind, name), key) ∈ h.handles
  · obtain ⟨cell, hreaches⟩ := (htracks.mem_handles_iff hkey).mp hseries
    have hcell := htracks.holds.contents hreaches
    obtain ⟨storage, hstorage, hlookup⟩ := hreaches
    simp only [directory] at hstorage hlookup
    simp [hstorage, hlookup, hcell, History.value, hseries]
  · rw [History.value, if_neg hseries, Option.bind_eq_none_iff]
    intro storage hstorage
    rw [Option.map_eq_none_iff, Option.eq_none_iff_forall_ne_some]
    exact fun cell hcell => hseries ((htracks.mem_handles_iff hkey).mpr
      ⟨cell, storage, hstorage, hcell⟩)

theorem Tracks.getValue (htracks : s.Tracks h keys) (kind : Kind) (name : String)
    {labels : Labels} (hlabels : DistinctKeys labels) :
    s.getValue kind name labels = h.value ⟨kind, name, labels.toFinset⟩ := by
  rw [← toFinset_new]
  exact htracks.lookup kind name (canonical_new hlabels)

end State

theorem run_tracks {ops : List Op} {s : State} {ws : List Warning}
    (hrun : inMemoryMetrics.Run ops s ws) (hops : ∀ op ∈ ops, op.Distinct) :
    ∃ keys, s.Tracks (.ofOps ops) keys := by
  induction hrun with
  | nil => exact ⟨[], State.tracks_init⟩
  | snoc _ hstep ih =>
      rw [History.ofOps_concat]
      obtain ⟨keys, htracks⟩ := ih fun op hop => hops op (List.mem_append_left _ hop)
      exact htracks.step (hops _ (List.mem_append_right _ List.mem_cons_self)) hstep

namespace History

theorem value_addHandle_ne {h : History} {series series' : Series} (hne : series' ≠ series) :
    (h.addHandle series).value series' = h.value series' := by
  simp [value, addHandle, hne, total]

theorem value_addUpdate_ne {h : History} {series series' : Series} (hne : series' ≠ series)
    (u : Update) : (h.addUpdate series u).value series' = h.value series' := by
  simp only [value, total_addUpdate_ne hne.symm]
  rfl

/-- An operation changes no other series than its own. -/
theorem value_extend_ne {h : History} {op : Op} {series : Series}
    (hne : h.target op ≠ some series) : (h.extend op).value series = h.value series := by
  unfold extend
  split
  case h_1 =>
      refine value_addUpdate_ne ?_ _
      rintro rfl
      exact hne ‹_›
  case h_2 =>
      refine value_addHandle_ne ?_
      rintro rfl
      exact hne ‹_›
  case h_3 => rfl

end History

/-- After every program the values are those of its history, and no operation changes a
series that it is not about. -/
theorem run_values {ops : List Op} {s : State} {ws : List Warning}
    (hrun : inMemoryMetrics.Run ops s ws) (hops : ∀ op ∈ ops, op.Distinct) :
    (∀ name labels, DistinctKeys labels →
      s.getCounterValue name labels =
          (History.ofOps ops).value ⟨.counter, name, labels.toFinset⟩ ∧
        s.getGaugeValue name labels =
          (History.ofOps ops).value ⟨.gauge, name, labels.toFinset⟩) ∧
    ∀ op s' ws', op.Distinct → s.step op = some (s', ws') →
      ∀ kind name labels, DistinctKeys labels →
        (History.ofOps ops).target op ≠ some ⟨kind, name, labels.toFinset⟩ →
        s'.getValue kind name labels = s.getValue kind name labels := by
  obtain ⟨keys, htracks⟩ := run_tracks hrun hops
  constructor
  · intro name labels hlabels
    exact ⟨htracks.getValue .counter name hlabels, htracks.getValue .gauge name hlabels⟩
  · intro op s' ws' hop hstep kind name labels hlabels hother
    obtain ⟨keys', htracks'⟩ := htracks.step hop hstep
    rw [htracks'.getValue kind name hlabels, htracks.getValue kind name hlabels,
      History.value_extend_ne hother]

/-- Two routes to a series, with the labels in two orders and a clone, and every update. -/
def twoRoutes : List Op :=
  [.counter "requests",
    .withLabels 0 [("method", "GET"), ("code", "200")],
    .update 1 (.incrementBy 3),
    .withLabels 1 [("code", "200"), ("method", "GET")],
    .clone 2,
    .update 3 (.incrementBy (-2)),
    .update 3 .increment,
    .gauge "requests",
    .update 4 (.add 1),
    .update 4 (.set 7),
    .update 4 .decrement,
    .withLabels 4 [("code", "200"), ("method", "GET")],
    .withoutLabels 5,
    .update 6 (.add 5),
    .update 4 (.subtract 3),
    .update 6 .increment,
    .withLabels 6 [("method", "GET"), ("code", "200")],
    .update 7 .decrement]

theorem run_values_twoRoutes :
    ∃ s ws, inMemoryMetrics.Run twoRoutes s ws ∧
      s.getCounterValue "requests" [("code", "200"), ("method", "GET")] = some 4 ∧
      s.getCounterValue "requests" [] = some 0 ∧
      s.getGaugeValue "requests" [] = some 9 ∧
      s.getGaugeValue "requests" [("code", "200"), ("method", "GET")] = some (-1) ∧
      s.getGaugeValue "requests" [("code", "200")] = none ∧
      ∃ s' ws', s.step (.update 1 .increment) = some (s', ws') ∧
        s'.getGaugeValue "requests" [] = s.getGaugeValue "requests" [] := by
  obtain ⟨⟨s, ws⟩, hexec⟩ : ∃ r, inMemoryMetrics.exec twoRoutes = some r :=
    Option.isSome_iff_exists.mp (by decide +kernel)
  have hrun : inMemoryMetrics.Run twoRoutes s ws := Machine.run_of_exec hexec
  obtain ⟨hvalues, hothers⟩ := run_values hrun (by decide +kernel)
  obtain ⟨⟨s', ws'⟩, hstep⟩ : ∃ r, s.step (.update 1 .increment) = some r := by
    have hexec' : (inMemoryMetrics.exec twoRoutes).any
        fun r => (r.1.step (.update 1 .increment)).isSome := by decide +kernel
    rw [hexec] at hexec'
    exact Option.isSome_iff_exists.mp hexec'
  refine ⟨s, ws, hrun, ?_, ?_, ?_, ?_, ?_, s', ws', hstep, ?_⟩
  · rw [(hvalues "requests" _ (by decide +kernel)).1]
    decide +kernel
  · rw [(hvalues "requests" _ (by decide +kernel)).1]
    decide +kernel
  · rw [(hvalues "requests" _ (by decide +kernel)).2]
    decide +kernel
  · rw [(hvalues "requests" _ (by decide +kernel)).2]
    decide +kernel
  · rw [(hvalues "requests" _ (by decide +kernel)).2]
    decide +kernel
  · exact hothers (.update 1 .increment) _ _ trivial hstep .gauge "requests" [] (by decide +kernel)
      (by decide +kernel)

end SfRs.Metrics
