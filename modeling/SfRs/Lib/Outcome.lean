import Mathlib.Data.List.Basic
import Mathlib.Data.Vector.Basic
/-!
# Calls that return or panic

`Outcome α` is the result of a call in a language with panics.  Errors that the
program handles are values (`Except`) inside the outcome; a panic is not.  The
slice operations below panic exactly where bounds-checked indexing does.
-/

namespace SfRs.Lib

/-- A call either returns a value or panics. -/
inductive Outcome (α : Type*) where
  | done (a : α)
  | panicked
  deriving DecidableEq

namespace Outcome

variable {α β ε : Type*}

/-- Sequencing: a panic ends the call. -/
def bind : Outcome α → (α → Outcome β) → Outcome β
  | done a, f => f a
  | panicked, _ => panicked

/-- The call returned. -/
def Returns (o : Outcome α) : Prop := o ≠ panicked

@[simp] theorem done_bind (a : α) (f : α → Outcome β) : (done a).bind f = f a := rfl

@[simp] theorem panicked_bind (f : α → Outcome β) :
    (panicked : Outcome α).bind f = panicked := rfl

@[simp] theorem returns_done (a : α) : (done a).Returns := by
  simp [Returns]

@[simp] theorem not_returns_panicked : ¬ (panicked : Outcome α).Returns := by
  simp [Returns]

theorem bind_eq_done {o : Outcome α} {f : α → Outcome β} {b : β} :
    o.bind f = done b ↔ ∃ a, o = done a ∧ f a = done b := by
  cases o <;> simp

/-- `Result::unwrap`. -/
def unwrap : Except ε α → Outcome α
  | .ok a => done a
  | .error _ => panicked

/-- `Option::expect`. -/
def expect : Option α → Outcome α
  | some a => done a
  | none => panicked

@[simp] theorem unwrap_ok (a : α) : unwrap (.ok a : Except ε α) = done a := rfl

@[simp] theorem unwrap_error (e : ε) : unwrap (.error e : Except ε α) = panicked := rfl

@[simp] theorem expect_some (a : α) : expect (some a) = done a := rfl

@[simp] theorem expect_none : expect (none : Option α) = panicked := rfl

/-! ## Slices -/

/-- `xs[i]`. -/
def index (xs : List α) (i : Nat) : Outcome α :=
  match xs[i]? with
  | some a => done a
  | none => panicked

/-- `xs[i] = v` on a fixed-size array. -/
def store {n : Nat} (xs : Vector α n) (i : Nat) (v : α) : Outcome (Vector α n) :=
  if h : i < n then done (xs.set i v h) else panicked

/-- `&xs[..n]`. -/
def sliceTo (xs : List α) (n : Nat) : Outcome (List α) :=
  if n ≤ xs.length then done (xs.take n) else panicked

/-- `&xs[n..]`. -/
def sliceFrom (xs : List α) (n : Nat) : Outcome (List α) :=
  if n ≤ xs.length then done (xs.drop n) else panicked

/-- `dst.copy_from_slice(src)`: the new contents of `dst`. -/
def copyFromSlice (dst src : List α) : Outcome (List α) :=
  if dst.length = src.length then done src else panicked

theorem store_of_lt {n : Nat} {xs : Vector α n} {i : Nat} {v : α} (h : i < n) :
    store xs i v = done (xs.set i v h) := by
  simp [store, h]

theorem sliceTo_of_le {xs : List α} {n : Nat} (h : n ≤ xs.length) :
    sliceTo xs n = done (xs.take n) := by
  simp [sliceTo, h]

theorem sliceTo_of_gt {xs : List α} {n : Nat} (h : xs.length < n) :
    sliceTo xs n = panicked := by
  simp [sliceTo, Nat.not_le.mpr h]

theorem sliceFrom_of_le {xs : List α} {n : Nat} (h : n ≤ xs.length) :
    sliceFrom xs n = done (xs.drop n) := by
  simp [sliceFrom, h]

theorem copyFromSlice_of_eq {dst src : List α} (h : dst.length = src.length) :
    copyFromSlice dst src = done src := by
  simp [copyFromSlice, h]

/-- `dst[..n].copy_from_slice(&src[..n])`: the new contents of all of `dst`. -/
def copyPrefix (dst src : List α) (n : Nat) : Outcome (List α) :=
  (sliceTo dst n).bind fun head =>
    (sliceTo src n).bind fun new =>
      (copyFromSlice head new).bind fun head' => done (head' ++ dst.drop n)

theorem copyPrefix_of_le {dst src : List α} {n : Nat} (hdst : n ≤ dst.length)
    (hsrc : n ≤ src.length) : copyPrefix dst src n = done (src.take n ++ dst.drop n) := by
  have hlen : (dst.take n).length = (src.take n).length := by
    rw [List.length_take_of_le hdst, List.length_take_of_le hsrc]
  simp [copyPrefix, sliceTo_of_le hdst, sliceTo_of_le hsrc, copyFromSlice_of_eq hlen]

theorem copyPrefix_of_gt {dst src : List α} {n : Nat} (hsrc : src.length < n) :
    copyPrefix dst src n = panicked := by
  unfold copyPrefix
  by_cases hdst : n ≤ dst.length
  · simp [sliceTo_of_le hdst, sliceTo_of_gt hsrc]
  · simp [sliceTo_of_gt (Nat.not_le.mp hdst)]

end Outcome

/-- The result of polling a future or a stream. -/
inductive Poll (α : Type*) where
  | ready (a : α)
  | pending
  deriving DecidableEq

end SfRs.Lib
