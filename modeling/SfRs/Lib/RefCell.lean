import SfRs.Lib.Outcome
/-!
# Cells with dynamic borrows

A cell counts the borrows of its value that are outstanding.  The count is negative while
the value is borrowed mutably, and a borrow that conflicts with it is refused.
-/

namespace SfRs.Lib

/-- `RefCell<T>`: the value and the borrow flag. -/
structure RefCell (T : Type*) where
  value : T
  borrows : Int

namespace RefCell

variable {T α : Type*}

def new (value : T) : RefCell T := ⟨value, 0⟩

def tryBorrow (c : RefCell T) : Option (RefCell T) :=
  if c.borrows < 0 then none else some { c with borrows := c.borrows + 1 }

def tryBorrowMut (c : RefCell T) : Option (RefCell T) :=
  if c.borrows = 0 then some { c with borrows := -1 } else none

/-- The end of a `Ref`. -/
def dropRef (c : RefCell T) : RefCell T := { c with borrows := c.borrows - 1 }

/-- The end of a `RefMut`. -/
def dropRefMut (c : RefCell T) : RefCell T := { c with borrows := c.borrows + 1 }

/-- A statement that reads through a borrow it holds to its own end. -/
def tryRead (c : RefCell T) (f : T → α) : Option α := c.tryBorrow.map fun c => f c.value

/-- A statement that writes through a mutable borrow it holds to its own end. -/
def tryWrite (c : RefCell T) (f : T → T) : Option (RefCell T) :=
  c.tryBorrowMut.map fun c => dropRefMut { c with value := f c.value }

@[simp] theorem borrows_dropRef (c : RefCell T) : c.dropRef.borrows = c.borrows - 1 := rfl

theorem tryBorrow_of_nonneg {c : RefCell T} (h : 0 ≤ c.borrows) :
    c.tryBorrow = some { c with borrows := c.borrows + 1 } := by
  rw [tryBorrow, if_neg (by omega)]

theorem tryRead_of_nonneg {c : RefCell T} (h : 0 ≤ c.borrows) (f : T → α) :
    c.tryRead f = some (f c.value) := by
  rw [tryRead, tryBorrow_of_nonneg h]
  rfl

theorem eq_of_tryRead {c : RefCell T} {f : T → α} {a : α} (h : c.tryRead f = some a) :
    a = f c.value := by
  unfold tryRead tryBorrow at h
  split at h <;> cases h
  rfl

/-- Writing needs a cell without borrows, and leaves one. -/
theorem tryWrite_of_eq {c : RefCell T} (h : c.borrows = 0) (f : T → T) :
    c.tryWrite f = some { c with value := f c.value } := by
  obtain ⟨value, borrows⟩ := c
  obtain rfl : borrows = 0 := h
  rfl

theorem tryWrite_of_ne {c : RefCell T} (h : c.borrows ≠ 0) (f : T → T) : c.tryWrite f = none := by
  rw [tryWrite, tryBorrowMut, if_neg h]
  rfl

end RefCell

end SfRs.Lib
