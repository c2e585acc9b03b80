import Mathlib.Algebra.BigOperators.Group.List.Basic
import Mathlib.Data.List.Nodup
import Mathlib.Data.List.Perm.Basic
import Mathlib.Data.Multiset.Count
import Mathlib.Data.Multiset.MapFold
import Mathlib.Tactic.Abel
/-!
# Ledgers over event lists

A ledger reads the entries owed by a list of events with a partial function `f`, as
`events.filterMap f`.  A step that makes one event's entry fall due changes the
function, not the list: `filterMap_perm_of_unique` says that exactly one entry is then
added.
-/

namespace SfRs.Lib

variable {α β : Type*}

/-- If at most one element satisfies `p` and it is `a`, a function that agrees with `f`
off `p` and gains an entry at `a` reads exactly one entry more. -/
theorem filterMap_perm_of_unique {f g : α → Option β} {p : α → Bool} {l : List α}
    {a : α} {b : β} (hcount : l.countP p ≤ 1) (ha : a ∈ l) (hpa : p a) (hfa : f a = none)
    (hga : g a = some b) (hfg : ∀ x ∈ l, ¬ p x → f x = g x) :
    (l.filterMap g).Perm (b :: l.filterMap f) := by
  obtain ⟨l₁, l₂, rfl⟩ := List.append_of_mem ha
  have hne : ∀ x ∈ l₁ ++ l₂, ¬ p x := by
    simp only [List.countP_append, List.countP_cons, hpa, if_true] at hcount
    rw [← List.countP_eq_zero, List.countP_append]
    omega
  have h₁ : l₁.filterMap f = l₁.filterMap g := by
    refine List.filterMap_congr fun x hx => hfg x ?_ (hne x (List.mem_append_left _ hx))
    exact List.mem_append_left _ hx
  have h₂ : l₂.filterMap f = l₂.filterMap g := by
    refine List.filterMap_congr fun x hx => hfg x ?_ (hne x (List.mem_append_right _ hx))
    exact List.mem_append_right _ (List.mem_cons_of_mem _ hx)
  simp only [List.filterMap_append, List.filterMap_cons, hfa, hga, h₁, h₂]
  exact List.perm_middle

theorem filterMap_perm_eraseIdx {f : α → Option β} {l : List α} {i : Nat} {a : α}
    (hi : l[i]? = some a) :
    (l.filterMap f).Perm ((f a).toList ++ (l.eraseIdx i).filterMap f) := by
  obtain ⟨hlt, rfl⟩ := List.getElem?_eq_some_iff.mp hi
  have hperm := ((List.getElem_cons_eraseIdx_perm hlt).filterMap f).symm
  refine hperm.trans ?_
  cases h : f l[i] with
  | none => simp [h]
  | some b => simp [h]

/-- A list has at most one split around its only element with `P`. -/
theorem split_unique {P : α → Prop} {pre pre' post post' : List α} {a a' : α}
    (h : pre ++ a :: post = pre' ++ a' :: post') (ha : P a) (hpre : ∀ x ∈ pre', ¬ P x)
    (hpost : ∀ x ∈ post', ¬ P x) : pre = pre' ∧ a = a' ∧ post = post' := by
  rcases List.append_eq_append_iff.mp h with ⟨m, rfl, hm⟩ | ⟨m, rfl, hm⟩
  · cases m with
    | nil =>
        cases hm
        exact ⟨by simp, rfl, rfl⟩
    | cons b m =>
        cases hm
        exact absurd ha (hpre a (by simp))
  · cases m with
    | nil =>
        cases hm
        exact ⟨by simp, rfl, rfl⟩
    | cons b m =>
        cases hm
        exact absurd ha (hpost a (by simp))

/-- Replacing an element exchanges its entry. -/
theorem filterMap_perm_set {f : α → Option β} {l : List α} {i : Nat} {a : α}
    (hi : l[i]? = some a) (b : α) :
    ((f a).toList ++ (l.set i b).filterMap f).Perm ((f b).toList ++ l.filterMap f) := by
  have hlt : i < l.length := (List.getElem?_eq_some_iff.mp hi).1
  have hset : (l.set i b)[i]? = some b := by simp [hlt]
  have hold := filterMap_perm_eraseIdx (f := f) hi
  have hnew := filterMap_perm_eraseIdx (f := f) hset
  rw [List.eraseIdx_set_eq] at hnew
  refine (hnew.append_left _).trans ?_
  refine (List.perm_append_comm_assoc _ _ _).trans ?_
  exact hold.symm.append_left _

/-- How a sum changes when one summand changes. -/
theorem sum_map_of_eq_off {M : Type*} [AddCommMonoid M] {f g : α → M} {l : List α} {a : α}
    (hl : l.Nodup) (ha : a ∈ l) (hfg : ∀ x, x ≠ a → g x = f x) :
    (l.map g).sum + f a = (l.map f).sum + g a := by
  obtain ⟨l₁, l₂, rfl⟩ := List.append_of_mem ha
  have hne : ∀ x ∈ l₁ ++ l₂, x ≠ a := by
    rintro x hx rfl
    have hperm : (l₁ ++ x :: l₂).Perm (x :: (l₁ ++ l₂)) := List.perm_middle
    exact (List.nodup_cons.mp (hperm.nodup_iff.mp hl)).1 hx
  have h₁ : l₁.map g = l₁.map f :=
    List.map_congr_left fun x hx => hfg x (hne x (List.mem_append_left _ hx))
  have h₂ : l₂.map g = l₂.map f :=
    List.map_congr_left fun x hx => hfg x (hne x (List.mem_append_right _ hx))
  simp only [List.map_append, List.map_cons, List.sum_append, List.sum_cons, h₁, h₂]
  abel

theorem perm_eraseIdx {l : List α} {i : Nat} {a : α} (hi : l[i]? = some a) :
    l.Perm (a :: l.eraseIdx i) := by
  obtain ⟨hlt, rfl⟩ := List.getElem?_eq_some_iff.mp hi
  exact (List.getElem_cons_eraseIdx_perm hlt).symm

theorem mem_eraseIdx_of_ne {l : List α} {i : Nat} {a b : α} (hi : l[i]? = some a)
    (hb : b ∈ l) (hne : b ≠ a) : b ∈ l.eraseIdx i :=
  (List.mem_cons.mp ((perm_eraseIdx hi).mem_iff.mp hb)).resolve_left hne

theorem not_mem_eraseIdx {l : List α} {i : Nat} {a : α} (hi : l[i]? = some a)
    (hl : l.Nodup) : a ∉ l.eraseIdx i :=
  (List.nodup_cons.mp ((perm_eraseIdx hi).nodup_iff.mp hl)).1

/-- What comes after the second of two entries does not matter to their order. -/
theorem pair_sublist_of_append {l₁ l₂ : List α} {a b : α} (h : [a, b].Sublist (l₁ ++ l₂))
    (hb : b ∉ l₂) : [a, b].Sublist l₁ := by
  obtain ⟨m₁, m₂, hm, hsub₁, hsub₂⟩ := List.sublist_append_iff.mp h
  rcases List.eq_nil_or_concat m₂ with rfl | ⟨m, c, rfl⟩
  · rw [List.append_nil] at hm
    rwa [hm]
  · have hlast : [a, b].getLast? = (m₁ ++ m.concat c).getLast? := by rw [hm]
    obtain rfl : b = c := by simpa using hlast
    exact absurd (hsub₂.subset (by simp)) hb

/-- Two entries of a list are equal or one of them comes first. -/
theorem pair_sublist_total {l : List α} {a b : α} (ha : a ∈ l) (hb : b ∈ l) :
    a = b ∨ [a, b].Sublist l ∨ [b, a].Sublist l := by
  obtain ⟨l₁, l₂, rfl⟩ := List.append_of_mem ha
  rcases List.mem_append.mp hb with hb | hb
  · have hpair : ([b] ++ [a]).Sublist (l₁ ++ a :: l₂) :=
      (List.singleton_sublist.mpr hb).append (by simp)
    exact Or.inr (Or.inr hpair)
  · rcases List.mem_cons.mp hb with rfl | hb
    · exact Or.inl rfl
    · have hpair : [a, b].Sublist (a :: l₂) := (List.singleton_sublist.mpr hb).cons_cons a
      exact Or.inr (Or.inl (hpair.trans (List.sublist_append_right _ _)))

theorem eq_of_countP_le_one {p : α → Bool} {l : List α} (hcount : l.countP p ≤ 1) {a b : α}
    (ha : a ∈ l) (hb : b ∈ l) (hpa : p a) (hpb : p b) : a = b := by
  have htwo : ∀ {x y : α}, p x → p y → ¬ [x, y].Sublist l := by
    intro x y hx hy hsub
    have hle := hsub.countP_le (p := p)
    simp only [List.countP_cons, List.countP_nil, hx, hy, if_true] at hle
    omega
  rcases pair_sublist_total ha hb with heq | hsub | hsub
  · exact heq
  · exact absurd hsub (htwo hpa hpb)
  · exact absurd hsub (htwo hpb hpa)

/-- Entries that are all different were read from different elements. -/
theorem eq_of_filterMap_nodup {f : α → Option β} {l : List α} (hl : (l.filterMap f).Nodup)
    {a b : α} {x : β} (ha : a ∈ l) (hb : b ∈ l) (hfa : f a = some x) (hfb : f b = some x) :
    a = b := by
  have htwice := List.nodup_iff_sublist.mp hl x
  rcases pair_sublist_total ha hb with heq | hsub | hsub
  · exact heq
  · exact absurd (by simpa [hfa, hfb] using hsub.filterMap f) htwice
  · exact absurd (by simpa [hfa, hfb] using hsub.filterMap f) htwice

/-! ## Entries by owner -/

section Owners

variable [DecidableEq α]

/-- The entries that belong to `a`. -/
def entriesOf (a : α) (l : List (α × β)) : List β :=
  l.filterMap fun e => if e.1 = a then some e.2 else none

theorem mem_entriesOf {a : α} {b : β} {l : List (α × β)} : b ∈ entriesOf a l ↔ (a, b) ∈ l := by
  simp [entriesOf, Prod.exists]

theorem entriesOf_append (a : α) (l l' : List (α × β)) :
    entriesOf a (l ++ l') = entriesOf a l ++ entriesOf a l' :=
  List.filterMap_append

theorem entriesOf_map_self (a : α) (bs : List β) : entriesOf a (bs.map (a, ·)) = bs := by
  simp [entriesOf, List.filterMap_map]

theorem entriesOf_map_of_ne {a a' : α} (hne : a' ≠ a) (bs : List β) :
    entriesOf a (bs.map (a', ·)) = [] := by
  simp [entriesOf, List.filterMap_map, hne]

variable [DecidableEq β]

theorem count_entriesOf (a : α) (b : β) (l : List (α × β)) :
    (entriesOf a l).count b = Multiset.count (a, b) l := by
  induction l with
  | nil => rfl
  | cons e l ih =>
      obtain ⟨a', b'⟩ := e
      unfold entriesOf at ih ⊢
      rw [← Multiset.cons_coe, Multiset.count_cons, ← ih]
      by_cases ha : a' = a
      · by_cases hb : b' = b
        · simp [ha, hb]
        · simp [ha, hb, Ne.symm hb]
      · simp [ha, Ne.symm ha]

/-- If every owner has as many entries in `l'` as in `l`, then so have all of them
together. -/
theorem count_map_snd_le {l l' : List (α × β)}
    (h : ∀ a b, (entriesOf a l).count b ≤ (entriesOf a l').count b) (b : β) :
    (l.map Prod.snd).count b ≤ (l'.map Prod.snd).count b := by
  have hle : (l : Multiset (α × β)) ≤ l' := by
    rw [Multiset.le_iff_count]
    rintro ⟨a, b⟩
    rw [← count_entriesOf, ← count_entriesOf]
    exact h a b
  have hcount := Multiset.count_le_of_le b (Multiset.map_le_map hle (f := Prod.snd))
  simpa only [Multiset.map_coe, Multiset.coe_count] using hcount

end Owners

end SfRs.Lib
