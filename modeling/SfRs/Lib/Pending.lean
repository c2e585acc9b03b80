import Mathlib.Data.List.Perm.Basic
/-!
# Calls in progress

A call is an atomic operation that begins it and a rest that is done later, in one or more
atomic operations.  `settle` does the rests of all calls in progress.  When the rests commute
with each other and with what happens meanwhile, the settled state takes one whole operation
where a call begins, and nothing else.
-/

namespace SfRs.Lib

variable {S F : Type*} {rest : F → S → S} {calls calls' : List F} {f : F} {s : S}

/-- The state once the calls in progress have done their rests. -/
def settle (rest : F → S → S) (calls : List F) (s : S) : S := calls.foldr rest s

@[simp] theorem settle_nil : settle rest [] s = s := rfl

theorem settle_cons : settle rest (f :: calls) s = rest f (settle rest calls s) := rfl

theorem settle_perm (hcomm : ∀ f g s, rest f (rest g s) = rest g (rest f s))
    (hperm : calls.Perm calls') : settle rest calls s = settle rest calls' s := by
  have : LeftCommutative rest := ⟨hcomm⟩
  exact hperm.foldr_eq s

/-- An operation that commutes with the rests can be done before or after them. -/
theorem settle_commute {P : S → Prop} (op : S → S) (hP : ∀ f ∈ calls, ∀ s, P s → P (rest f s))
    (hop : ∀ f ∈ calls, ∀ s, P s → op (rest f s) = rest f (op s)) (hs : P s) :
    settle rest calls (op s) = op (settle rest calls s) ∧ P (settle rest calls s) := by
  induction calls with
  | nil => exact ⟨rfl, hs⟩
  | cons f calls ih =>
      obtain ⟨heq, hsettled⟩ := ih (fun g hg => hP g (List.mem_cons_of_mem f hg))
        (fun g hg => hop g (List.mem_cons_of_mem f hg))
      rw [settle_cons, settle_cons, heq, hop f List.mem_cons_self _ hsettled]
      exact ⟨rfl, hP f List.mem_cons_self _ hsettled⟩

/-- A call that begins is done as a whole. -/
theorem settle_begin (op : S → S) (hcomm : ∀ f g s, rest f (rest g s) = rest g (rest f s))
    (hop : ∀ f ∈ calls, ∀ s, op (rest f s) = rest f (op s)) :
    settle rest (calls ++ [f]) (op s) = rest f (op (settle rest calls s)) := by
  have hperm : (calls ++ [f]).Perm (f :: calls) := List.perm_append_singleton f calls
  rw [settle_perm hcomm hperm, settle_cons]
  congr 1
  exact (settle_commute (P := fun _ => True) op (fun _ _ _ _ => trivial)
    (fun g hg s _ => hop g hg s) trivial).1

/-- A call that goes on does a part of its rest. -/
theorem settle_resume (op : S → S) {g : F} {i : Nat}
    (hcomm : ∀ f g s, rest f (rest g s) = rest g (rest f s)) (hi : calls[i]? = some f)
    (hop : ∀ f ∈ calls, ∀ s, op (rest f s) = rest f (op s))
    (hrest : ∀ s, rest g (op s) = rest f s) :
    settle rest (calls.eraseIdx i ++ [g]) (op s) = settle rest calls s := by
  obtain ⟨hlt, rfl⟩ := List.getElem?_eq_some_iff.mp hi
  have hperm : (calls[i] :: calls.eraseIdx i).Perm calls := List.getElem_cons_eraseIdx_perm hlt
  rw [settle_begin op hcomm fun f hf => hop f (List.mem_of_mem_eraseIdx hf), hrest]
  exact settle_perm hcomm hperm

/-- The last operation of a call is its rest. -/
theorem settle_finish {i : Nat} (hcomm : ∀ f g s, rest f (rest g s) = rest g (rest f s))
    (hi : calls[i]? = some f) :
    settle rest (calls.eraseIdx i) (rest f s) = settle rest calls s := by
  obtain ⟨hlt, rfl⟩ := List.getElem?_eq_some_iff.mp hi
  have hperm : (calls[i] :: calls.eraseIdx i).Perm calls := List.getElem_cons_eraseIdx_perm hlt
  rw [← settle_perm hcomm hperm, settle_cons]
  exact (settle_commute (P := fun _ => True) (rest calls[i]) (fun _ _ _ _ => trivial)
    (fun f _ s _ => hcomm calls[i] f s) trivial).1

end SfRs.Lib
