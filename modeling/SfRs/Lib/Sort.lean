import Mathlib.Data.List.Destutter
import Mathlib.Data.List.Sort
import Mathlib.Order.Compare
import Mathlib.Order.OrderDual
/-!
# Sorting

A stable sort by a key keeps the entries of each key in their order, and a list that is
sorted by key is determined by these.  The insertion sort of a slice shifts every entry
to the left past the entries it is less than, for any comparison; an entry that compares
as equal to all others is never passed.  Dropping adjacent repetitions leaves no entry
twice when the list was sorted.
-/

namespace SfRs.Lib

variable {α κ : Type*}

/-! ## Stable sorts -/

section Key

variable [LinearOrder κ] {key : α → κ} {r : α → α → Prop} [DecidableRel r] {l l' : List α}

theorem filter_orderedInsert (hr : ∀ a b, r a b ↔ key a ≤ key b) (k : κ) (a : α) (l : List α) :
    (l.orderedInsert r a).filter (fun b => key b = k) =
      (a :: l).filter (fun b => key b = k) := by
  induction l with
  | nil => rfl
  | cons b l ih =>
      rw [List.orderedInsert_cons]
      by_cases hab : r a b
      · rw [if_pos hab]
      · rw [if_neg hab, List.filter_cons, ih]
        have hlt : key b < key a := not_le.mp fun h => hab ((hr a b).mpr h)
        by_cases ha : key a = k
        · have hb : key b ≠ k := fun h => hlt.ne (h.trans ha.symm)
          simp [ha, hb]
        · simp [List.filter_cons, ha]

theorem filter_insertionSort (hr : ∀ a b, r a b ↔ key a ≤ key b) (k : κ) (l : List α) :
    (l.insertionSort r).filter (fun b => key b = k) = l.filter (fun b => key b = k) := by
  induction l with
  | nil => rfl
  | cons a l ih =>
      rw [List.insertionSort_cons, filter_orderedInsert hr]
      simp only [List.filter_cons, ih]

theorem pairwise_insertionSort_key (hr : ∀ a b, r a b ↔ key a ≤ key b) (l : List α) :
    (l.insertionSort r).Pairwise fun a b => key a ≤ key b := by
  have htotal : Std.Total r := ⟨fun a b => by simp only [hr]; exact le_total _ _⟩
  have htrans : IsTrans α r := ⟨fun a b c => by simp only [hr]; exact le_trans⟩
  exact (List.pairwise_insertionSort r l).imp fun h => (hr _ _).mp h

/-- Sorted lists with the same entries of each key, in the same order, are equal. -/
theorem eq_of_filter_key_eq (hl : l.Pairwise fun a b => key a ≤ key b)
    (hl' : l'.Pairwise fun a b => key a ≤ key b)
    (h : ∀ k, l.filter (fun b => key b = k) = l'.filter (fun b => key b = k)) : l = l' := by
  have hmem : ∀ a, a ∈ l ↔ a ∈ l' := by
    intro a
    have := congrArg (a ∈ ·) (h (key a))
    simpa [List.mem_filter] using this
  induction l generalizing l' with
  | nil =>
      refine (List.eq_nil_iff_forall_not_mem.mpr fun a ha => ?_).symm
      exact List.not_mem_nil ((hmem a).mpr ha)
  | cons a l ih =>
      obtain ⟨b, t, rfl⟩ : ∃ b t, l' = b :: t :=
        List.exists_cons_of_ne_nil (List.ne_nil_of_mem ((hmem a).mp List.mem_cons_self))
      have hba : key b ≤ key a := by
        rcases List.mem_cons.mp ((hmem a).mp List.mem_cons_self) with rfl | ha
        · exact le_rfl
        · exact (List.pairwise_cons.mp hl').1 a ha
      have hab : key a ≤ key b := by
        rcases List.mem_cons.mp ((hmem b).mpr List.mem_cons_self) with rfl | hb
        · exact le_rfl
        · exact (List.pairwise_cons.mp hl).1 b hb
      have hkey : key b = key a := le_antisymm hba hab
      obtain rfl : a = b := by simpa [hkey] using congrArg List.head? (h (key a))
      have htail : ∀ k, l.filter (fun b => key b = k) = t.filter (fun b => key b = k) := by
        intro k
        have hk := h k
        by_cases ha : key a = k
        · simpa [ha] using hk
        · simpa [ha] using hk
      refine congrArg (a :: ·) (ih (List.pairwise_cons.mp hl).2 (List.pairwise_cons.mp hl').2
        htail fun c => ?_)
      have := congrArg (c ∈ ·) (htail (key c))
      simpa [List.mem_filter] using this

/-- A stable sort distinguishes lists only by the order within each key. -/
theorem insertionSort_eq_iff (hr : ∀ a b, r a b ↔ key a ≤ key b) :
    l.insertionSort r = l'.insertionSort r ↔
      ∀ k, l.filter (fun b => key b = k) = l'.filter (fun b => key b = k) := by
  constructor
  · intro h k
    rw [← filter_insertionSort hr, h, filter_insertionSort hr]
  · intro h
    refine eq_of_filter_key_eq (pairwise_insertionSort_key hr l) (pairwise_insertionSort_key hr l')
      fun k => ?_
    rw [filter_insertionSort hr, filter_insertionSort hr]
    exact h k

end Key

/-! ## Insertion sort of a slice -/

/-- Shift `a` in among the entries before it, which are listed from the right. -/
def insertTail (cmp : α → α → Ordering) (a : α) : List α → List α
  | [] => [a]
  | b :: before => if cmp a b = .lt then b :: insertTail cmp a before else a :: b :: before

def insertionSortShiftLeft (cmp : α → α → Ordering) (l : List α) : List α :=
  (l.foldl (fun before a => insertTail cmp a before) []).reverse

variable {cmp : α → α → Ordering} {l : List α}

theorem insertTail_eq (a : α) (l : List α) :
    insertTail cmp a l = l.orderedInsert (fun a b => cmp a b ≠ .lt) a := by
  induction l with
  | nil => rfl
  | cons b l ih =>
      rw [insertTail, List.orderedInsert_cons, ih]
      by_cases hlt : cmp a b = .lt
      · simp [hlt]
      · simp [hlt]

theorem insertionSortShiftLeft_eq (l : List α) :
    insertionSortShiftLeft cmp l =
      (l.reverse.insertionSort fun a b => cmp a b ≠ .lt).reverse := by
  rw [insertionSortShiftLeft, List.insertionSort, List.foldr_reverse]
  simp only [insertTail_eq]

theorem perm_insertionSortShiftLeft (cmp : α → α → Ordering) (l : List α) :
    (insertionSortShiftLeft cmp l).Perm l := by
  rw [insertionSortShiftLeft_eq]
  exact (List.reverse_perm _).trans ((List.perm_insertionSort _ _).trans (List.reverse_perm l))

/-- For a comparison of keys it is the stable sort. -/
theorem insertionSortShiftLeft_key [LinearOrder κ] {key : α → κ} {r : α → α → Prop}
    [DecidableRel r] (hcmp : ∀ a b, cmp a b = compare (key a) (key b))
    (hr : ∀ a b, r a b ↔ key a ≤ key b) (l : List α) :
    insertionSortShiftLeft cmp l = l.insertionSort r := by
  have hdual : ∀ a b, cmp a b ≠ .lt ↔
      OrderDual.toDual (key a) ≤ OrderDual.toDual (key b) := by
    intro a b
    rw [hcmp, Ne, compare_lt_iff_lt, not_lt, OrderDual.toDual_le_toDual]
  rw [insertionSortShiftLeft_eq]
  have hsorted : (l.reverse.insertionSort fun a b => cmp a b ≠ .lt).reverse.Pairwise
      fun a b => key a ≤ key b := by
    rw [List.pairwise_reverse]
    exact pairwise_insertionSort_key hdual l.reverse
  refine eq_of_filter_key_eq hsorted (pairwise_insertionSort_key hr l) fun k => ?_
  have hfilter := filter_insertionSort hdual (OrderDual.toDual k) l.reverse
  simp only [OrderDual.toDual_inj] at hfilter
  rw [List.filter_reverse, hfilter, List.filter_reverse, List.reverse_reverse,
    filter_insertionSort hr]

/-- An entry that compares as equal to all others stays, and nothing passes it. -/
theorem insertionSort_append_cons {r : α → α → Prop} [DecidableRel r] {z : α}
    (hleft : ∀ a, r a z) (hright : ∀ a, r z a) (before after : List α) :
    (before ++ z :: after).insertionSort r =
      before.insertionSort r ++ z :: after.insertionSort r := by
  have hinsert : ∀ a (l rest : List α),
      (l ++ z :: rest).orderedInsert r a = l.orderedInsert r a ++ z :: rest := by
    intro a l rest
    induction l with
    | nil => simp [hleft a]
    | cons b l ih =>
        rw [List.cons_append, List.orderedInsert_cons, List.orderedInsert_cons, ih]
        by_cases hab : r a b
        · simp [hab]
        · simp [hab]
  induction before with
  | nil =>
      rw [List.nil_append, List.insertionSort_cons]
      cases after.insertionSort r with
      | nil => rfl
      | cons b rest => simp [hright b]
  | cons a before ih =>
      rw [List.cons_append, List.insertionSort_cons, ih, hinsert, List.insertionSort_cons]

theorem insertionSortShiftLeft_append_cons {z : α} (hleft : ∀ a, cmp a z ≠ .lt)
    (hright : ∀ a, cmp z a ≠ .lt) (before after : List α) :
    insertionSortShiftLeft cmp (before ++ z :: after) =
      insertionSortShiftLeft cmp before ++ z :: insertionSortShiftLeft cmp after := by
  simp only [insertionSortShiftLeft_eq, List.reverse_append, List.reverse_cons,
    List.append_assoc, List.singleton_append]
  rw [insertionSort_append_cons hleft hright]
  simp

/-! ## Adjacent repetitions -/

theorem exists_destutter'_eq_cons {r : α → α → Prop} [DecidableRel r] (b : α) (l : List α) :
    ∃ tail, l.destutter' r b = b :: tail := by
  induction l with
  | nil => exact ⟨[], rfl⟩
  | cons c l ih =>
      by_cases hbc : r b c
      · exact ⟨_, List.destutter'_cons_pos _ hbc⟩
      · rw [List.destutter'_cons_neg _ hbc]
        exact ih

theorem isChain_destutter'_iff [LinearOrder α] (b : α) (l : List α) :
    (l.destutter' (· ≠ ·) b).IsChain (· < ·) ↔ (b :: l).IsChain (· ≤ ·) := by
  induction l generalizing b with
  | nil => simp
  | cons c l ih =>
      rw [List.isChain_cons_cons]
      by_cases hne : b ≠ c
      · obtain ⟨tail, htail⟩ := exists_destutter'_eq_cons (r := (· ≠ ·)) c l
        rw [List.destutter'_cons_pos _ hne, ← ih c, htail, List.isChain_cons_cons]
        exact and_congr_left fun _ => ⟨le_of_lt, fun h => lt_of_le_of_ne h hne⟩
      · rw [List.destutter'_cons_neg _ hne, ih b, not_not.mp hne]
        simp

/-- What is left without adjacent repetitions is strictly increasing exactly when the
list is in order. -/
theorem pairwise_destutter_iff [LinearOrder α] (l : List α) :
    (l.destutter (· ≠ ·)).Pairwise (· < ·) ↔ l.Pairwise (· ≤ ·) := by
  cases l with
  | nil => simp
  | cons b l =>
      rw [← List.isChain_iff_pairwise, ← List.isChain_iff_pairwise, List.destutter_cons']
      exact isChain_destutter'_iff b l

/-! ## Sorts that are known by their contract -/

/-- The comparison is a total order on the entries of `l`. -/
structure OrderOn (cmp : α → α → Ordering) (l : List α) : Prop where
  swap : ∀ a ∈ l, ∀ b ∈ l, cmp b a = (cmp a b).swap
  trans : ∀ a ∈ l, ∀ b ∈ l, ∀ c ∈ l, cmp a b ≠ .gt → cmp b c ≠ .gt → cmp a c ≠ .gt

/-- What is known of `sort_unstable_by`.  On a slice that is too long for the insertion sort
the real one may also notice that the comparison is no order and panic; here it returns. -/
structure SortUnstableBy (cmp : α → α → Ordering) (sort : List α → List α) : Prop where
  perm : ∀ l, (sort l).Perm l
  sorted : ∀ l, OrderOn cmp l → (sort l).Pairwise fun a b => cmp a b ≠ .gt
  short : ∀ l, l.length ≤ 20 → sort l = insertionSortShiftLeft cmp l

theorem OrderOn.pairwise_insertionSortShiftLeft (h : OrderOn cmp l) :
    (insertionSortShiftLeft cmp l).Pairwise fun a b => cmp a b ≠ .gt := by
  -- on the entries of `l` the comparison is total and transitive
  let onEntries : { a // a ∈ l.reverse } → { a // a ∈ l.reverse } → Prop :=
    fun a b => cmp a.1 b.1 ≠ .lt
  have hentry : ∀ a : { a // a ∈ l.reverse }, a.1 ∈ l := fun a => List.mem_reverse.mp a.2
  have hswap : ∀ a b : { a // a ∈ l.reverse }, cmp a.1 b.1 ≠ .lt ↔ cmp b.1 a.1 ≠ .gt := by
    intro a b
    rw [h.swap a.1 (hentry a) b.1 (hentry b)]
    cases cmp a.1 b.1 <;> simp
  have htotal : Std.Total onEntries := by
    refine ⟨fun a b => ?_⟩
    simp only [onEntries, h.swap a.1 (hentry a) b.1 (hentry b)]
    cases cmp a.1 b.1 <;> simp
  have htrans : IsTrans _ onEntries := by
    refine ⟨fun a b c hab hbc => ?_⟩
    simp only [onEntries, hswap] at hab hbc ⊢
    exact h.trans _ (hentry c) _ (hentry b) _ (hentry a) hbc hab
  have hdecidable : DecidableRel onEntries := fun a b =>
    inferInstanceAs (Decidable (cmp a.1 b.1 ≠ .lt))
  have hsorted := List.pairwise_insertionSort onEntries l.reverse.attach
  have hmap := List.map_insertionSort onEntries (fun a b => cmp a b ≠ .lt) Subtype.val
    l.reverse.attach fun _ _ _ _ => Iff.rfl
  rw [insertionSortShiftLeft_eq, List.pairwise_reverse, ← List.attach_map_subtype_val l.reverse,
    ← hmap, List.pairwise_map]
  exact hsorted.imp fun {a b} hab => (hswap a b).mp hab

/-- The insertion sort is such a sort. -/
theorem sortUnstableBy_shiftLeft (cmp : α → α → Ordering) :
    SortUnstableBy cmp (insertionSortShiftLeft cmp) where
  perm := perm_insertionSortShiftLeft cmp
  sorted := fun _ h => h.pairwise_insertionSortShiftLeft
  short := fun _ _ => rfl

end SfRs.Lib
