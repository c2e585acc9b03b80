import Mathlib.Data.List.AList
import Mathlib.Data.List.Forall2
/-!
# Directories of shared cells

A directory gives each name a store of its own, and each key of a store a cell of its own.
Both are added when they are first asked for, and a reference that was once handed out leads
to the same cell for ever.  So the cells hold one value for each series, which is a name
with a key, and the references agree exactly as their series do.
-/

namespace SfRs.Lib

/-- An entry more is an update of the lookups. -/
theorem lookup_insert_eq_update {κ : Type*} [DecidableEq κ] (m : AList fun _ : κ => Nat)
    (key : κ) (value : Nat) :
    (fun key' => (m.insert key value).lookup key') =
      Function.update (fun key' => m.lookup key') key (some value) := by
  funext key'
  rcases eq_or_ne key' key with rfl | hne
  · simp
  · simp [hne]

@[ext] structure Directory (ν κ : Type*) where
  stores : ν → Option Nat
  cells : Nat → κ → Option Nat
  storeCount : Nat
  cellCount : Nat

namespace Directory

variable {ν κ β : Type*}

/-- The cell is the one of the key in the store of the name. -/
def Reaches (d : Directory ν κ) (name : ν) (key : κ) (cell : Nat) : Prop :=
  ∃ store, d.stores name = some store ∧ d.cells store key = some cell

/-- Stores and cells are allocated, and no two names or series share one. -/
structure Proper (d : Directory ν κ) : Prop where
  store_lt : ∀ {name store}, d.stores name = some store → store < d.storeCount
  store_inj : ∀ {name name' store}, d.stores name = some store →
    d.stores name' = some store → name = name'
  cell_lt : ∀ {name key cell}, d.Reaches name key cell → cell < d.cellCount
  cell_inj : ∀ {name name' key key' cell}, d.Reaches name key cell →
    d.Reaches name' key' cell → name = name' ∧ key = key'

section

variable {d : Directory ν κ} {name : ν} {key : κ} {store cell cell' : Nat}

theorem reaches_iff (hstore : d.stores name = some store) :
    d.Reaches name key cell ↔ d.cells store key = some cell := by
  simp [Reaches, hstore]

theorem not_reaches (hnone : d.stores name = none) : ¬ d.Reaches name key cell := by
  rintro ⟨store, hstore, -⟩
  exact Option.some_ne_none _ (hstore.symm.trans hnone)

theorem Proper.of_stores (hnone : ∀ name, d.stores name = none) : d.Proper where
  store_lt := fun hstore => absurd (hstore.symm.trans (hnone _)) (Option.some_ne_none _)
  store_inj := fun hstore => absurd (hstore.symm.trans (hnone _)) (Option.some_ne_none _)
  cell_lt := fun hcell => absurd hcell (not_reaches (hnone _))
  cell_inj := fun hcell => absurd hcell (not_reaches (hnone _))

theorem Reaches.unique (h : d.Reaches name key cell) (h' : d.Reaches name key cell') :
    cell = cell' := by
  obtain ⟨store, hstore, hcell⟩ := h
  exact Option.some.inj (hcell.symm.trans ((reaches_iff hstore).mp h'))

end

/-! ## Asking for a store -/

section FindStore

variable [DecidableEq ν]

def addStore (d : Directory ν κ) (name : ν) : Directory ν κ where
  stores := Function.update d.stores name (some d.storeCount)
  cells := Function.update d.cells d.storeCount fun _ => none
  storeCount := d.storeCount + 1
  cellCount := d.cellCount

/-- The store of the name, which is added if there is none. -/
def findStore (d : Directory ν κ) (name : ν) : Nat × Directory ν κ :=
  match d.stores name with
  | some store => (store, d)
  | none => (d.storeCount, d.addStore name)

variable {d : Directory ν κ} {name name' : ν} {key : κ} {store cell : Nat}

theorem cells_addStore (hlt : store < d.storeCount) :
    (d.addStore name).cells store = d.cells store := Function.update_of_ne (Nat.ne_of_lt hlt) _ _

theorem stores_addStore_iff :
    (d.addStore name).stores name' = some store ↔
      name' = name ∧ store = d.storeCount ∨ name' ≠ name ∧ d.stores name' = some store := by
  rcases eq_or_ne name' name with rfl | hne
  · simp [addStore, eq_comm]
  · simp [addStore, hne]

/-- A new store keeps no cell. -/
theorem reaches_addStore (hproper : d.Proper) (hnone : d.stores name = none) :
    (d.addStore name).Reaches name' key cell ↔ d.Reaches name' key cell := by
  constructor
  · rintro ⟨store, hstore, hcell⟩
    rcases stores_addStore_iff.mp hstore with ⟨-, rfl⟩ | ⟨-, hold⟩
    · simp [addStore] at hcell
    · refine ⟨store, hold, ?_⟩
      rwa [cells_addStore (hproper.store_lt hold)] at hcell
  · intro hreached
    have hne : name' ≠ name := by
      rintro rfl
      exact not_reaches hnone hreached
    obtain ⟨store, hold, hcell⟩ := hreached
    refine ⟨store, stores_addStore_iff.mpr (.inr ⟨hne, hold⟩), ?_⟩
    rwa [cells_addStore (hproper.store_lt hold)]

theorem Proper.addStore (hproper : d.Proper) (hnone : d.stores name = none) :
    (d.addStore name).Proper where
  store_lt := by
    intro name' store hstore
    rcases stores_addStore_iff.mp hstore with ⟨-, rfl⟩ | ⟨-, hold⟩
    · exact Nat.lt_succ_self _
    · exact Nat.lt_succ_of_lt (hproper.store_lt hold)
  store_inj := by
    intro name₁ name₂ store h₁ h₂
    rcases stores_addStore_iff.mp h₁ with ⟨rfl, rfl⟩ | ⟨-, hold₁⟩
    · rcases stores_addStore_iff.mp h₂ with ⟨rfl, -⟩ | ⟨-, hold₂⟩
      · rfl
      · exact absurd (hproper.store_lt hold₂) (Nat.lt_irrefl _)
    · rcases stores_addStore_iff.mp h₂ with ⟨-, rfl⟩ | ⟨-, hold₂⟩
      · exact absurd (hproper.store_lt hold₁) (Nat.lt_irrefl _)
      · exact hproper.store_inj hold₁ hold₂
  cell_lt := fun h => hproper.cell_lt ((reaches_addStore hproper hnone).mp h)
  cell_inj := fun h h' => hproper.cell_inj ((reaches_addStore hproper hnone).mp h)
    ((reaches_addStore hproper hnone).mp h')

/-- Asking for a store finds it or adds it, and changes no other. -/
theorem findStore_spec (hproper : d.Proper) {r : Nat × Directory ν κ}
    (hr : d.findStore name = r) :
    r.2.Proper ∧
      (∀ name' store, r.2.stores name' = some store ↔
        d.stores name' = some store ∨ name' = name ∧ store = r.1) ∧
      ∀ name' key cell, r.2.Reaches name' key cell ↔ d.Reaches name' key cell := by
  subst hr
  unfold findStore
  split
  case h_1 store hstore =>
      refine ⟨hproper, fun name' store' => ⟨.inl, ?_⟩, fun _ _ _ => Iff.rfl⟩
      rintro (hold | ⟨rfl, rfl⟩)
      · exact hold
      · exact hstore
  case h_2 hnone =>
      refine ⟨hproper.addStore hnone, fun name' store => ?_,
        fun _ _ _ => reaches_addStore hproper hnone⟩
      rw [stores_addStore_iff]
      rcases eq_or_ne name' name with rfl | hne
      · simp [hnone]
      · simp [hne]

end FindStore

/-! ## Asking for a cell -/

section FindCell

variable [DecidableEq κ]

def addCell (d : Directory ν κ) (store : Nat) (key : κ) : Directory ν κ where
  stores := d.stores
  cells := Function.update d.cells store
    (Function.update (d.cells store) key (some d.cellCount))
  storeCount := d.storeCount
  cellCount := d.cellCount + 1

/-- The cell of the key, which is added if there is none. -/
def findCell (d : Directory ν κ) (store : Nat) (key : κ) : Nat × Directory ν κ :=
  match d.cells store key with
  | some cell => (cell, d)
  | none => (d.cellCount, d.addCell store key)

variable {d : Directory ν κ} {name name' : ν} {key key' : κ} {store store' cell : Nat}

theorem cells_addCell_ne (hne : store' ≠ store) :
    (d.addCell store key).cells store' = d.cells store' := Function.update_of_ne hne _ _

/-- A new cell is the one of its series and of no other. -/
theorem reaches_addCell (hproper : d.Proper) (hstore : d.stores name = some store)
    (hnone : d.cells store key = none) :
    (d.addCell store key).Reaches name' key' cell ↔
      d.Reaches name' key' cell ∨ name' = name ∧ key' = key ∧ cell = d.cellCount := by
  rcases eq_or_ne name' name with rfl | hname
  · have hstore' : (d.addCell store key).stores name' = some store := hstore
    rw [reaches_iff hstore, reaches_iff hstore']
    rcases eq_or_ne key' key with rfl | hkey
    · simp [addCell, hnone, eq_comm]
    · simp [addCell, hkey]
  · simp only [hname, false_and, or_false]
    refine exists_congr fun store' => and_congr_right fun hstore' => ?_
    have hne : store' ≠ store := by
      rintro rfl
      exact hname (hproper.store_inj hstore' hstore)
    rw [cells_addCell_ne hne]

theorem Proper.addCell (hproper : d.Proper) (hstore : d.stores name = some store)
    (hnone : d.cells store key = none) : (d.addCell store key).Proper where
  store_lt := hproper.store_lt
  store_inj := hproper.store_inj
  cell_lt := by
    intro name' key' cell h
    rcases (reaches_addCell hproper hstore hnone).mp h with hold | ⟨-, -, rfl⟩
    · exact Nat.lt_succ_of_lt (hproper.cell_lt hold)
    · exact Nat.lt_succ_self _
  cell_inj := by
    intro name₁ name₂ key₁ key₂ cell h₁ h₂
    rcases (reaches_addCell hproper hstore hnone).mp h₁ with hold₁ | ⟨rfl, rfl, rfl⟩
    · rcases (reaches_addCell hproper hstore hnone).mp h₂ with hold₂ | ⟨-, -, rfl⟩
      · exact hproper.cell_inj hold₁ hold₂
      · exact absurd (hproper.cell_lt hold₁) (Nat.lt_irrefl _)
    · rcases (reaches_addCell hproper hstore hnone).mp h₂ with hold₂ | ⟨rfl, rfl, -⟩
      · exact absurd (hproper.cell_lt hold₂) (Nat.lt_irrefl _)
      · exact ⟨rfl, rfl⟩

/-- Asking for a cell finds it or adds a new one, and changes no other. -/
theorem findCell_spec (hproper : d.Proper) (hstore : d.stores name = some store)
    {r : Nat × Directory ν κ} (hr : d.findCell store key = r) :
    r.2.Proper ∧ r.2.stores = d.stores ∧
      (d.cells store key = some r.1 ∧ r.2 = d ∨ d.cells store key = none ∧ r.1 = d.cellCount) ∧
      ∀ name' key' cell, r.2.Reaches name' key' cell ↔
        d.Reaches name' key' cell ∨ name' = name ∧ key' = key ∧ cell = r.1 := by
  subst hr
  unfold findCell
  split
  case h_1 cell hcell =>
      refine ⟨hproper, rfl, .inl ⟨hcell, rfl⟩, fun name' key' cell' => ⟨.inl, ?_⟩⟩
      rintro (hold | ⟨rfl, rfl, rfl⟩)
      · exact hold
      · exact ⟨store, hstore, hcell⟩
  case h_2 hnone =>
      exact ⟨hproper.addCell hstore hnone, rfl, .inr ⟨hnone, rfl⟩,
        fun _ _ _ => reaches_addCell hproper hstore hnone⟩

end FindCell

/-! ## What the cells hold -/

/-- The reference, to a store and to one of its cells, is one to the series. -/
def Refers (d : Directory ν κ) (ref : Nat × Nat) (series : ν × κ) : Prop :=
  d.stores series.1 = some ref.1 ∧ d.cells ref.1 series.2 = some ref.2

/-- A reference stays one while no store and no cell is lost. -/
theorem Refers.mono {d d' : Directory ν κ} {ref : Nat × Nat} {e : ν × κ} (h : d.Refers ref e)
    (hstore : d'.stores e.1 = some ref.1)
    (hreaches : d.Reaches e.1 e.2 ref.2 → d'.Reaches e.1 e.2 ref.2) : d'.Refers ref e :=
  ⟨hstore, (reaches_iff hstore).mp (hreaches ⟨ref.1, h⟩)⟩

/-- The cells hold the values of their series, all of which have references. -/
structure Holds (d : Directory ν κ) (contents : Nat → β) (value : ν × κ → β)
    (refs : List (Nat × Nat)) (series : List (ν × κ)) : Prop where
  proper : d.Proper
  contents : ∀ {name key cell}, d.Reaches name key cell → contents cell = value (name, key)
  listed : ∀ {name key cell}, d.Reaches name key cell → (name, key) ∈ series
  refs : List.Forall₂ d.Refers refs series

namespace Holds

variable {d : Directory ν κ} {contents contents' : Nat → β} {value value' : ν × κ → β}
  {refs : List (Nat × Nat)} {series : List (ν × κ)} {ref : Nat × Nat} {name : ν} {key : κ}
  {store : Nat}

/-- Nothing was asked for yet. -/
theorem of_stores (hnone : ∀ name, d.stores name = none) : d.Holds contents value [] [] where
  proper := Proper.of_stores hnone
  contents := fun hcell => absurd hcell (not_reaches (hnone _))
  listed := fun hcell => absurd hcell (not_reaches (hnone _))
  refs := .nil

/-- Exactly the series that were asked for have a cell. -/
theorem mem_iff (h : d.Holds contents value refs series) :
    (name, key) ∈ series ↔ ∃ cell, d.Reaches name key cell := by
  constructor
  · intro hmem
    obtain ⟨i, hi, heq⟩ := List.getElem_of_mem hmem
    have hi' : i < refs.length := h.refs.length_eq ▸ hi
    have href := h.refs.get hi' hi
    simp only [List.get_eq_getElem, heq] at href
    exact ⟨refs[i].2, refs[i].1, href⟩
  · rintro ⟨cell, hcell⟩
    exact h.listed hcell

theorem getElem? (h : d.Holds contents value refs series) {i : Nat} (hi : refs[i]? = some ref) :
    ∃ e, series[i]? = some e ∧ d.Refers ref e := by
  obtain ⟨hlt, rfl⟩ := List.getElem?_eq_some_iff.mp hi
  have hlt' : i < series.length := h.refs.length_eq ▸ hlt
  exact ⟨series[i], List.getElem?_eq_getElem hlt', h.refs.get hlt hlt'⟩

theorem congr (h : d.Holds contents value refs series)
    (hvalue : ∀ {name key cell}, d.Reaches name key cell → value' (name, key) = value (name, key)) :
    d.Holds contents value' refs series :=
  ⟨h.proper, fun hcell => (h.contents hcell).trans (hvalue hcell).symm, h.listed, h.refs⟩

/-- A reference is handed out again. -/
theorem clone (h : d.Holds contents value refs series) {e : ν × κ} (href : d.Refers ref e) :
    d.Holds contents value (refs ++ [ref]) (series ++ [e]) :=
  ⟨h.proper, h.contents, fun hcell => List.mem_append_left _ (h.listed hcell),
    List.rel_append h.refs (.cons href .nil)⟩

theorem findStore [DecidableEq ν] (h : d.Holds contents value refs series)
    {r : Nat × Directory ν κ} (hr : d.findStore name = r) :
    r.2.Holds contents value refs series ∧ r.2.stores name = some r.1 := by
  obtain ⟨hproper, hstores, hreaches⟩ := findStore_spec h.proper hr
  refine ⟨⟨hproper, fun hcell => h.contents ((hreaches _ _ _).mp hcell),
    fun hcell => h.listed ((hreaches _ _ _).mp hcell), ?_⟩, (hstores _ _).mpr (.inr ⟨rfl, rfl⟩)⟩
  exact h.refs.imp fun ref e href =>
    href.mono ((hstores _ _).mpr (.inl href.1)) (hreaches _ _ _).mpr

/-- A new cell starts with the value of its series. -/
theorem findCell [DecidableEq κ] (h : d.Holds contents value refs series)
    (hstore : d.stores name = some store) {r : Nat × Directory ν κ}
    (hr : d.findCell store key = r)
    (hold : ∀ cell, d.cells store key = some cell → contents' = contents)
    (hnew : d.cells store key = none → (name, key) ∉ series →
      contents' = Function.update contents d.cellCount (value (name, key))) :
    r.2.Holds contents' value (refs ++ [(store, r.1)]) (series ++ [(name, key)]) := by
  obtain ⟨hproper, hstores, hcases, hreaches⟩ := findCell_spec h.proper hstore hr
  refine ⟨hproper, ?_, ?_, List.rel_append (h.refs.imp fun ref e href => ?_) (.cons ?_ .nil)⟩
  · intro name' key' cell hcell
    rcases hcases with ⟨hfound, heq⟩ | ⟨hnone, hfresh⟩
    · rw [hold _ hfound]
      exact h.contents (heq ▸ hcell)
    · have hunlisted : (name, key) ∉ series := fun hmem => by
        obtain ⟨cell, hreached⟩ := h.mem_iff.mp hmem
        exact Option.some_ne_none _ (((reaches_iff hstore).mp hreached).symm.trans hnone)
      rw [hnew hnone hunlisted]
      rcases (hreaches _ _ _).mp hcell with hcell | ⟨rfl, rfl, rfl⟩
      · rw [Function.update_of_ne (Nat.ne_of_lt (h.proper.cell_lt hcell))]
        exact h.contents hcell
      · rw [hfresh, Function.update_self]
  · intro name' key' cell hcell
    rcases (hreaches _ _ _).mp hcell with hcell | ⟨rfl, rfl, -⟩
    · exact List.mem_append_left _ (h.listed hcell)
    · exact List.mem_append_right _ List.mem_cons_self
  · exact href.mono (hstores ▸ href.1) fun hreached => (hreaches _ _ _).mpr (.inl hreached)
  · have hstore' : r.2.stores name = some store := hstores ▸ hstore
    exact ⟨hstore', (reaches_iff hstore').mp ((hreaches _ _ _).mpr (.inr ⟨rfl, rfl, rfl⟩))⟩

/-- Writing through a reference changes the value of its series and no other. -/
theorem write (h : d.Holds contents value refs series) (href : d.Refers ref (name, key)) {b : β}
    (hself : value' (name, key) = b)
    (hother : ∀ e ∈ series, e ≠ (name, key) → value' e = value e) :
    d.Holds (Function.update contents ref.2 b) value' refs series := by
  refine ⟨h.proper, fun {name' key' cell} hcell => ?_, h.listed, h.refs⟩
  have hown : d.Reaches name key ref.2 := ⟨ref.1, href⟩
  rcases eq_or_ne cell ref.2 with rfl | hne
  · obtain ⟨rfl, rfl⟩ := h.proper.cell_inj hcell hown
    rw [Function.update_self, hself]
  · have hseries : (name', key') ≠ (name, key) := by
      intro heq
      obtain ⟨rfl, rfl⟩ := Prod.mk.inj heq
      exact hne (hcell.unique hown)
    rw [Function.update_of_ne hne, hother _ (h.listed hcell) hseries]
    exact h.contents hcell

end Holds

end Directory

end SfRs.Lib
