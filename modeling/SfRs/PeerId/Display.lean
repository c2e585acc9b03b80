import SfRs.PeerId.Random
import SfRs.PeerId.Serde
/-!
# The text form of a peer identifier

`Display` writes the first `size` bytes as two digits each, and `from_str` reads the
identifier back, with zeros in place of the bytes past its size.
-/

namespace SfRs.PeerId

open SfRs.Lib

/-- `{byte:02x}`. -/
def lowerHex (byte : UInt8) : List Char :=
  [Nat.digitChar (byte.toNat / 16), Nat.digitChar (byte.toNat % 16)]

def hexText (bytes : List UInt8) : List Char := bytes.flatMap lowerHex

/-- `Display for FixedSizePeerID`. -/
def FixedSizePeerID.display {S : Nat} (id : FixedSizePeerID S) : Outcome String :=
  id.sizedBytes.bind fun bytes => .done (.ofList (hexText bytes))

/-! ## Text of one byte for each character -/

theorem asBytes_ofList_ascii {cs : List Char} (hascii : ∀ c ∈ cs, c.toNat < 128) :
    asBytes (String.ofList cs) = cs.map Char.toUInt8 := by
  induction cs with
  | nil => rfl
  | cons c cs ih =>
      obtain ⟨hc, hcs⟩ := List.forall_mem_cons.mp hascii
      have hencode : String.utf8EncodeChar c = [c.toUInt8] := by
        have hle : c.val.toNat ≤ 127 := Nat.le_of_lt_succ hc
        rw [String.utf8EncodeChar, if_pos hle]
        rfl
      rw [asBytes_ofList_cons hencode, ih hcs, List.map_cons]

/-- A character of `{byte:02x}`. -/
def IsLowerHex (c : Char) : Prop := ∃ n < 16, c = Nat.digitChar n

theorem isLowerHex_of_mem_hexText {bytes : List UInt8} {c : Char} (hc : c ∈ hexText bytes) :
    IsLowerHex c := by
  obtain ⟨byte, -, hmem⟩ := List.mem_flatMap.mp hc
  have hlt : byte.toNat < 256 := byte.toNat_lt
  rcases List.mem_cons.mp hmem with rfl | hmem
  · exact ⟨byte.toNat / 16, by omega, rfl⟩
  · exact ⟨byte.toNat % 16, by omega, List.mem_singleton.mp hmem⟩

theorem digitChar_fin (n : Fin 16) :
    (Nat.digitChar n).toNat < 128 ∧
      hexCharToValue (asChar (Nat.digitChar n).toUInt8) 0 = .ok (UInt8.ofNat n) := by
  decide +revert +kernel

theorem IsLowerHex.lt {c : Char} (h : IsLowerHex c) : c.toNat < 128 := by
  obtain ⟨n, hn, rfl⟩ := h
  exact (digitChar_fin ⟨n, hn⟩).1

/-- The index is only used for the error. -/
theorem hexCharToValue_ok {c : Char} {i j : Nat} {v : UInt8} (h : hexCharToValue c i = .ok v) :
    hexCharToValue c j = .ok v := by
  unfold hexCharToValue at h ⊢
  split_ifs at h ⊢ <;> exact h

theorem hexCharToValue_digitChar {n : Nat} (hn : n < 16) (i : Nat) :
    hexCharToValue (asChar (Nat.digitChar n).toUInt8) i = .ok (UInt8.ofNat n) :=
  hexCharToValue_ok (digitChar_fin ⟨n, hn⟩).2

theorem join_nibbles_fin (n : Fin 256) :
    (UInt8.ofNat (n / 16) <<< 4) ||| UInt8.ofNat (n % 16) = UInt8.ofNat n := by
  decide +revert +kernel

theorem join_nibbles (byte : UInt8) :
    (UInt8.ofNat (byte.toNat / 16) <<< 4) ||| UInt8.ofNat (byte.toNat % 16) = byte := by
  have h := join_nibbles_fin ⟨byte.toNat, byte.toNat_lt⟩
  rwa [UInt8.ofNat_toNat] at h

/-! ## Reading the text back -/

variable {S : Nat} {id : FixedSizePeerID S}

theorem set_padded {bytes : List UInt8} (hlt : bytes.length < S) (byte : UInt8) :
    (padded S bytes).set bytes.length byte hlt = padded S (bytes ++ [byte]) := by
  ext i hi
  rcases Nat.lt_trichotomy i bytes.length with hbefore | rfl | hafter
  · simp [padded, Vector.getElem_set_ne _ _ hbefore.ne', List.getElem?_append_left hbefore]
  · simp [padded]
  · have hpast : (bytes ++ [byte]).length ≤ i := by
      rw [List.length_append]
      exact hafter
    simp [padded, Vector.getElem_set_ne _ _ hafter.ne, List.getElem?_eq_none hpast,
      List.getElem?_eq_none hafter.le]

/-- The loop of `from_str` stores the bytes after those that it has read. -/
theorem fromStrLoop_hexText (bytes : List UInt8) (done : List UInt8)
    (hfit : done.length + bytes.length ≤ S) :
    fromStrLoop done.length (chunksTwo ((hexText bytes).map Char.toUInt8)) (padded S done) =
      .done (.ok (padded S (done ++ bytes))) := by
  induction bytes generalizing done with
  | nil => simp [hexText, chunksTwo, fromStrLoop]
  | cons byte bytes ih =>
      rw [List.length_cons] at hfit
      have hlt : byte.toNat < 256 := byte.toNat_lt
      have hhigh := hexCharToValue_digitChar (n := byte.toNat / 16) (by omega) (done.length * 2)
      have hlow := hexCharToValue_digitChar (n := byte.toNat % 16) (by omega)
        (done.length * 2 + 1)
      have hrest := ih (done ++ [byte]) (by
        simp only [List.length_append, List.length_singleton]
        omega)
      have hroom : done.length < S := by omega
      simp only [hexText, List.flatMap_cons, lowerHex, List.cons_append, List.nil_append,
        List.map_cons, chunksTwo, fromStrLoop, Outcome.index, List.getElem?_cons_zero,
        List.getElem?_cons_succ, Outcome.done_bind, hhigh, hlow, join_nibbles]
      rw [Outcome.store_of_lt hroom, Outcome.done_bind, set_padded hroom]
      simpa [hexText] using hrest

theorem length_hexText (bytes : List UInt8) : (hexText bytes).length = 2 * bytes.length := by
  induction bytes with
  | nil => rfl
  | cons byte bytes ih =>
      simp only [hexText, List.flatMap_cons, List.length_append, List.length_cons] at ih ⊢
      rw [ih]
      simp only [lowerHex, List.length_cons, List.length_nil]
      omega

/-- The text of some bytes is read back as an identifier of these bytes. -/
theorem fromStr_hexText_bytes {bytes : List UInt8} (hfit : bytes.length ≤ S) :
    fromStr S (String.ofList (hexText bytes)) =
      .done (.ok { size := UInt8.ofNat bytes.length, bytes := padded S bytes }) := by
  have hascii : asBytes (String.ofList (hexText bytes)) = (hexText bytes).map Char.toUInt8 :=
    asBytes_ofList_ascii fun c hc => (isLowerHex_of_mem_hexText hc).lt
  have hloop : fromStrLoop 0 _ (padded S []) = .done (.ok (padded S ([] ++ bytes))) :=
    fromStrLoop_hexText bytes [] (by simp [hfit])
  have hzero : padded S [] = Vector.replicate S 0 := by
    ext i hi
    simp [padded]
  rw [hzero, List.nil_append] at hloop
  have hlen : ((hexText bytes).map Char.toUInt8).length = 2 * bytes.length := by
    rw [List.length_map, length_hexText]
  have hshort : ¬ 2 * S < 2 * bytes.length := by omega
  simp only [fromStr, hascii, hlen, gt_iff_lt, hshort, if_false, hloop, Outcome.done_bind]
  simp

/-- The text of an identifier is read back as its normal form. -/
theorem fromStr_hexText (hsize : id.size.toNat ≤ S) :
    fromStr S (String.ofList (hexText (id.bytes.toList.take id.size.toNat))) =
      .done (.ok id.normal) := by
  have hlen := length_take_bytes hsize
  rw [fromStr_hexText_bytes (hlen.trans_le hsize), hlen, UInt8.ofNat_toNat]
  rfl

theorem display_eq (hsize : id.size.toNat ≤ S) :
    id.display = .done (.ofList (hexText (id.bytes.toList.take id.size.toNat))) := by
  rw [FixedSizePeerID.display, sizedBytes_eq hsize, Outcome.done_bind]

/-- An identifier is equal to its normal form. -/
theorem normal_eq (hsize : id.size.toNat ≤ S) : id.normal.eq id = .done true := by
  have hnormal : id.normal.normal = id.normal := by
    simp only [FixedSizePeerID.normal, take_padded_take hsize]
  exact eq_of_normal_eq hsize hsize hnormal

end SfRs.PeerId
