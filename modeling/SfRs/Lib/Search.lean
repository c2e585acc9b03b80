import Mathlib.Data.List.Basic
/-!
# Binary search

The search is given the order of every entry relative to what is looked for.  It
returns the place of an equal entry, or the place where one would have to be inserted.
-/

namespace SfRs.Lib

variable {α : Type*}

/-- Halve the window of `size` entries from `base` until one is left. -/
def halve (cmp : Nat → Ordering) : Nat → Nat → Nat → Nat
  | 0, base, _ => base
  | fuel + 1, base, size =>
      if size ≤ 1 then base
      else
        let half := size / 2
        halve cmp fuel (if cmp (base + half) = .gt then base else base + half) (size - half)

/-- The order of the entry at an index, and greater past the end. -/
def orderAt (f : α → Ordering) (xs : List α) (i : Nat) : Ordering :=
  (xs[i]?).elim .gt f

def binarySearchBy (xs : List α) (f : α → Ordering) : Except Nat Nat :=
  if xs.length = 0 then .error 0
  else
    let base := halve (orderAt f xs) xs.length 0 xs.length
    if orderAt f xs base = .eq then .ok base
    else if orderAt f xs base = .lt then .error (base + 1)
    else .error base

/-- Less comes before equal, and equal before greater. -/
def Ascending (cmp : Nat → Ordering) : Prop :=
  ∀ i j, i ≤ j → (cmp i = .gt → cmp j = .gt) ∧ (cmp j = .lt → cmp i = .lt)

variable {cmp : Nat → Ordering} {fuel base size : Nat}

theorem Ascending.gt_of_le {i j : Nat} (h : Ascending cmp) (hij : i ≤ j)
    (hi : cmp i = .gt) : cmp j = .gt :=
  (h i j hij).1 hi

theorem Ascending.lt_of_le {i j : Nat} (h : Ascending cmp) (hij : i ≤ j)
    (hj : cmp j = .lt) : cmp i = .lt :=
  (h i j hij).2 hj

/-- The entries past the window are greater, and its first entry is not unless it is the
first of all. -/
theorem halve_spec (hcmp : Ascending cmp) (hfuel : size ≤ fuel + 1) (hsize : 0 < size)
    (hbase : base = 0 ∨ cmp base ≠ .gt) (hpast : ∀ i, base + size ≤ i → cmp i = .gt) :
    (halve cmp fuel base size = 0 ∨ cmp (halve cmp fuel base size) ≠ .gt) ∧
      ∀ i, halve cmp fuel base size < i → cmp i = .gt := by
  induction fuel generalizing base size with
  | zero =>
      refine ⟨hbase, fun i hi => hpast i ?_⟩
      simp only [halve] at hi
      omega
  | succ fuel ih =>
      unfold halve
      split
      case isTrue hone => exact ⟨hbase, fun i hi => hpast i (by omega)⟩
      case isFalse hmany =>
          by_cases hmid : cmp (base + size / 2) = .gt
          · simp only [hmid, if_true]
            refine ih (by omega) (by omega) hbase fun i hi => ?_
            rcases Nat.lt_or_ge i (base + size) with hlt | hge
            · exact hcmp.gt_of_le (by omega) hmid
            · exact hpast i hge
          · simp only [hmid, if_false]
            exact ih (by omega) (by omega) (.inr hmid) fun i hi => hpast i (by omega)

variable {xs : List α} {f : α → Ordering}

theorem orderAt_of_le {i : Nat} (h : xs.length ≤ i) : orderAt f xs i = .gt := by
  simp [orderAt, List.getElem?_eq_none h]

theorem orderAt_of_lt {i : Nat} (h : i < xs.length) : orderAt f xs i = f xs[i] := by
  simp [orderAt, h]

/-- An index that is found holds an equal entry, and otherwise everything before the
insertion point is less and everything from it on is greater. -/
theorem binarySearchBy_spec (hcmp : Ascending (orderAt f xs)) :
    (∀ i, binarySearchBy xs f = .ok i → orderAt f xs i = .eq) ∧
      ∀ i, binarySearchBy xs f = .error i →
        (∀ j, j < i → orderAt f xs j = .lt) ∧ ∀ j, i ≤ j → orderAt f xs j = .gt := by
  by_cases hempty : xs.length = 0
  · have hres : binarySearchBy xs f = .error 0 := by simp [binarySearchBy, hempty]
    rw [hres]
    refine ⟨fun i hi => by simp at hi, fun i hi => ?_⟩
    obtain rfl : 0 = i := by simpa using hi
    exact ⟨fun j hj => absurd hj (Nat.not_lt_zero j), fun j _ => orderAt_of_le (by omega)⟩
  · have hhalve := halve_spec hcmp (Nat.le_succ xs.length) (Nat.pos_of_ne_zero hempty)
      (.inl rfl) fun i hi => orderAt_of_le (by omega)
    unfold binarySearchBy
    rw [if_neg hempty]
    generalize halve (orderAt f xs) xs.length 0 xs.length = base at hhalve
    obtain ⟨hfirst, hpast⟩ := hhalve
    cases hbase : orderAt f xs base with
    | eq =>
        refine ⟨fun i hi => ?_, fun i hi => by simp [hbase] at hi⟩
        obtain rfl : base = i := by simpa [hbase] using hi
        exact hbase
    | lt =>
        refine ⟨fun i hi => by simp [hbase] at hi, fun i hi => ?_⟩
        obtain rfl : base + 1 = i := by simpa [hbase] using hi
        exact ⟨fun j hj => hcmp.lt_of_le (by omega) hbase, fun j hj => hpast j (by omega)⟩
    | gt =>
        refine ⟨fun i hi => by simp [hbase] at hi, fun i hi => ?_⟩
        obtain rfl : base = i := by simpa [hbase] using hi
        have hzero : base = 0 := hfirst.resolve_right (absurd hbase)
        exact ⟨fun j hj => by omega, fun j hj => hcmp.gt_of_le hj hbase⟩

end SfRs.Lib
