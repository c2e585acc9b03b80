import SfRs.Lib.Outcome
/-!
# Peer identifiers

`FixedSizePeerID<S>` stores a size byte and `S` bytes of capacity.  This module
holds the type, its errors and the hexadecimal text parser `from_str`, whose
chunk loop indexes without checking and can therefore panic.
-/

namespace SfRs.PeerId

open SfRs.Lib

/-- The kinds of `io::Error` the codecs meet. -/
inductive IoErrorKind where
  | unexpectedEof
  | writeZero
  | other
  deriving DecidableEq

/-- `unsigned_varint::decode::Error`. -/
inductive VarintError where
  | insufficient
  | overflow
  | notMinimal
  deriving DecidableEq

/-- `sf_peer_id::Error`.  Its `PartialEq` compares an I/O error by its kind. -/
inductive Error where
  | invalidLength (expected actual : Nat)
  | invalidHexEncoding (c : Char) (index : Nat)
  | io (kind : IoErrorKind)
  | varint (e : VarintError)
  deriving DecidableEq

structure FixedSizePeerID (S : Nat) where
  size : UInt8
  bytes : Vector UInt8 S
  deriving DecidableEq

abbrev PeerID := FixedSizePeerID 32

/-- The identifier that a text of two digits stands for. -/
def FixedSizePeerID.ofByte (b : UInt8) : PeerID where
  size := 1
  bytes := (Vector.replicate 32 0).set 0 b

/-- `byte as char`. -/
def asChar (b : UInt8) : Char := Char.ofNat b.toNat

/-- `s.as_bytes()`. -/
def asBytes (s : String) : List UInt8 := s.toUTF8.data.toList

def hexCharToValue (c : Char) (i : Nat) : Except Error UInt8 :=
  if '0' ≤ c ∧ c ≤ '9' then .ok (c.toUInt8 - '0'.toUInt8)
  else if 'a' ≤ c ∧ c ≤ 'f' then .ok (c.toUInt8 - 'a'.toUInt8 + 10)
  else if 'A' ≤ c ∧ c ≤ 'F' then .ok (c.toUInt8 - 'A'.toUInt8 + 10)
  else .error (.invalidHexEncoding c i)

/-- `slice.chunks(2)`: the last chunk of an odd-length slice has one element. -/
def chunksTwo {α : Type*} : List α → List (List α)
  | [] => []
  | [a] => [[a]]
  | a :: b :: rest => [a, b] :: chunksTwo rest

/-- The loop of `from_str` over `s.as_bytes().chunks(2).enumerate()`, from chunk `i`. -/
def fromStrLoop {S : Nat} :
    Nat → List (List UInt8) → Vector UInt8 S → Outcome (Except Error (Vector UInt8 S))
  | _, [], bytes => .done (.ok bytes)
  | i, chars :: rest, bytes =>
      let index := i * 2
      (Outcome.index chars 0).bind fun c₀ =>
        match hexCharToValue (asChar c₀) index with
        | .error e => .done (.error e)
        | .ok highVal =>
            -- an odd-length string reaches this index with a one-byte chunk
            (Outcome.index chars 1).bind fun c₁ =>
              match hexCharToValue (asChar c₁) (index + 1) with
              | .error e => .done (.error e)
              | .ok lowVal =>
                  (Outcome.store bytes i ((highVal <<< 4) ||| lowVal)).bind fun bytes' =>
                    fromStrLoop (i + 1) rest bytes'

/-- `FixedSizePeerID::<S>::from_str`. -/
def fromStr (S : Nat) (s : String) : Outcome (Except Error (FixedSizePeerID S)) :=
  let expectedLen := 2 * S
  let currentLen := (asBytes s).length
  if currentLen > expectedLen then
    .done (.error (.invalidLength expectedLen currentLen))
  else
    (fromStrLoop 0 (chunksTwo (asBytes s)) (Vector.replicate S 0)).bind fun
      | .error e => .done (.error e)
      | .ok bytes => .done (.ok { size := UInt8.ofNat (currentLen / 2), bytes := bytes })

end SfRs.PeerId
