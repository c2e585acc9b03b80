import SfRs.Lib.Json
import SfRs.Lib.Outcome
/-!
# Derived serialisation

The representation of derived types in JSON: a struct is an object of its fields, an
enumeration is externally tagged, and an option is null or its value.  A struct is read
from an object whose unknown fields are ignored, or from an array of all its fields.
-/

namespace SfRs.Lib

inductive SerError where
  | custom (msg : String)

inductive DeError where
  | text
  | invalidType
  | invalidValue
  | invalidLength (len : Nat)
  | unknownVariant (name : String)
  | missingField (name : String)
  | duplicateField (name : String)
  | custom (msg : String)

/-- The result of a serialiser, which may fail or panic. -/
abbrev Ser (α : Type*) := Outcome (Except SerError α)

namespace Ser

def ok {α : Type*} (a : α) : Ser α := .done (.ok a)

def bind {α β : Type*} (m : Ser α) (f : α → Ser β) : Ser β :=
  Outcome.bind m fun
    | .ok a => f a
    | .error e => .done (.error e)

@[simp] theorem ok_bind {α β : Type*} (a : α) (f : α → Ser β) : (ok a).bind f = f a := rfl

end Ser

abbrev Deserialize (α : Type*) := Json → Except DeError α

namespace Serde

/-! ## Writing -/

def optionJson {α : Type*} (write : α → Json) : Option α → Json
  | none => .null
  | some a => write a

/-- A struct variant. -/
def tagged (name : String) (fields : List (String × Json)) : Json :=
  .object [(name, .object fields)]

/-! ## Reading -/

def string : Deserialize String
  | .string s => .ok s
  | _ => .error .invalidType

/-- A number of a type with `size` values. -/
def unsigned (size : Nat) : Deserialize Nat
  | .number n => if n < size then .ok n else .error .invalidValue
  | _ => .error .invalidType

def option {α : Type*} (read : Deserialize α) : Deserialize (Option α)
  | .null => .ok none
  | v => (read v).map some

/-- The fields of a struct with the given names. -/
def structFields (names : List String) : Deserialize (List (String × Json))
  | .object fields => .ok fields
  | .array items =>
      if items.length = names.length then .ok (names.zip items)
      else .error (.invalidLength items.length)
  | _ => .error .invalidType

def field (name : String) (fields : List (String × Json)) : Except DeError (Option Json) :=
  match fields.filter (·.1 = name) with
  | [] => .ok none
  | [f] => .ok (some f.2)
  | _ => .error (.duplicateField name)

def required {α : Type} (name : String) (read : Deserialize α)
    (fields : List (String × Json)) : Except DeError α := do
  match ← field name fields with
  | some v => read v
  | none => throw (.missingField name)

/-- A field of an option type, which may be missing. -/
def optional {α : Type} (name : String) (read : Deserialize α)
    (fields : List (String × Json)) : Except DeError (Option α) := do
  match ← field name fields with
  | some v => option read v
  | none => return none

/-- The name of a variant, and its contents if it has any. -/
def variant : Deserialize (String × Option Json)
  | .string name => .ok (name, none)
  | .object [(name, v)] => .ok (name, some v)
  | .object _ => .error .invalidValue
  | _ => .error .invalidType

def unitVariant : Option Json → Except DeError Unit
  | none | some .null => .ok ()
  | some _ => .error .invalidType

def structVariant (names : List String) : Option Json → Except DeError (List (String × Json))
  | some v => structFields names v
  | none => .error .invalidType

/-! ## What is written is read -/

@[simp] theorem variant_tagged (name : String) (fields : List (String × Json)) :
    variant (tagged name fields) = .ok (name, some (.object fields)) := rfl

@[simp] theorem structVariant_object (names : List String) (fields : List (String × Json)) :
    structVariant names (some (.object fields)) = .ok fields := rfl

@[simp] theorem structFields_object (names : List String) (fields : List (String × Json)) :
    structFields names (.object fields) = .ok fields := rfl

@[simp] theorem string_string (s : String) : string (.string s) = .ok s := rfl

theorem option_optionJson {α β : Type*} {read : Deserialize β} {write : α → Json} {f : α → β}
    {a : Option α} (hread : ∀ x ∈ a, read (write x) = .ok (f x))
    (hnull : ∀ x ∈ a, write x ≠ .null) :
    option read (optionJson write a) = .ok (a.map f) := by
  cases a with
  | none => rfl
  | some x =>
      have hoption : option read (write x) = (read (write x)).map some := by
        have := hnull x rfl
        unfold option
        split
        · contradiction
        · rfl
      rw [optionJson, hoption, hread x rfl]
      rfl

end Serde

end SfRs.Lib
