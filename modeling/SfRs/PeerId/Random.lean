import SfRs.PeerId.FromStr
/-!
# Random peer identifiers

`random` draws one 128-bit seed and writes 64 digits from it, four bits at a time.  The
text is read back by `from_str`, which accepts it whatever the seed is.
-/

namespace SfRs.PeerId

open SfRs.Lib

/-- The character pushed for a value of four bits. -/
def hexChar (nibble : UInt8) : Char :=
  if nibble ≤ 9 then asChar ('0'.toUInt8 + nibble)
  else asChar ('a'.toUInt8 + (nibble - 10))

/-- The loop of `random`, for the given number of rounds. -/
def randomChars : Nat → BitVec 128 → List Char
  | 0, _ => []
  | n + 1, seed =>
      let nibble := UInt8.ofBitVec ((seed &&& 0xF#128).setWidth 8)
      hexChar nibble :: randomChars n (seed.rotateLeft 5 ^^^ seed * 31#128)

/-- `FixedSizePeerID::<S>::random`, for the seed that `get_random_u128` returns. -/
def random (S : Nat) (seed : BitVec 128) : Outcome (Except Error (FixedSizePeerID S)) :=
  fromStr S (String.ofList (randomChars 64 seed))

theorem encode_hexChar_fin (i : Fin 16) :
    String.utf8EncodeChar (hexChar (UInt8.ofNat i)) = [(hexChar (UInt8.ofNat i)).toUInt8] ∧
      IsHexDigit (hexChar (UInt8.ofNat i)).toUInt8 := by
  decide +revert +kernel

/-- The character is one byte long, and a digit. -/
theorem encode_hexChar (seed : BitVec 128) :
    let c := hexChar (UInt8.ofBitVec ((seed &&& 0xF#128).setWidth 8))
    String.utf8EncodeChar c = [c.toUInt8] ∧ IsHexDigit c.toUInt8 := by
  have hlt : ((seed &&& 0xF#128).setWidth 8).toNat < 16 := by
    have hand : (seed &&& 0xF#128).toNat ≤ 15 := by
      simpa using Nat.and_le_right
    rw [BitVec.toNat_setWidth]
    omega
  generalize (seed &&& 0xF#128).setWidth 8 = nibble at hlt ⊢
  have hnibble : UInt8.ofBitVec nibble = UInt8.ofNat (⟨nibble.toNat, hlt⟩ : Fin 16).val := by
    apply UInt8.toNat.inj
    simp
  rw [hnibble]
  exact encode_hexChar_fin ⟨_, hlt⟩

theorem asBytes_ofList_cons {c : Char} {b : UInt8} (hc : String.utf8EncodeChar c = [b])
    (cs : List Char) : asBytes (String.ofList (c :: cs)) = b :: asBytes (String.ofList cs) := by
  simp only [asBytes, String.toUTF8_eq_toByteArray, String.toByteArray_ofList]
  rw [List.utf8Encode_cons, List.utf8Encode_singleton, hc]
  simp [ByteArray.data_append]

theorem asBytes_randomChars (n : Nat) (seed : BitVec 128) :
    (asBytes (String.ofList (randomChars n seed))).length = n ∧
      ∀ x ∈ asBytes (String.ofList (randomChars n seed)), IsHexDigit x := by
  induction n generalizing seed with
  | zero => exact ⟨rfl, by simp [randomChars, asBytes]⟩
  | succ n ih =>
      obtain ⟨hencode, hdigit⟩ := encode_hexChar seed
      obtain ⟨hlen, hhex⟩ := ih (seed.rotateLeft 5 ^^^ seed * 31#128)
      rw [randomChars, asBytes_ofList_cons hencode]
      refine ⟨by rw [List.length_cons, hlen], fun x hx => ?_⟩
      rcases List.mem_cons.mp hx with rfl | hx
      · exact hdigit
      · exact hhex x hx

/-- `PeerID::random` succeeds on every seed. -/
theorem random_ok (seed : BitVec 128) : ∃ id, random 32 seed = .done (.ok id) := by
  obtain ⟨hlen, hhex⟩ := asBytes_randomChars 64 seed
  exact fromStr_even (by rw [hlen]) hhex (by rw [hlen])

end SfRs.PeerId
