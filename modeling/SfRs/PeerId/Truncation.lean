import SfRs.PeerId.Text
/-!
# Capacities that a byte cannot count

The size of an identifier is one byte and its capacity any number.  `from_str` cuts the
number of bytes it has stored down to one byte, and `read_peer_id` the capacity; neither
loses anything as long as the capacity is at most 255.
-/

namespace SfRs.PeerId

open SfRs.Lib

/-- An identifier that is read from `s` has a size of half the length of `s`. -/
def CountsDigits (S : Nat) (s : String) : Prop :=
  ∀ id, fromStr S s = .done (.ok id) → id.size.toNat * 2 = (asBytes s).length

/-- `read_peer_id` has no objection to the size that `data` declares. -/
def SizeAccepted (varint : UnsignedVarint) (S : Nat) (data : List UInt8) : Prop :=
  ∀ expected actual, readPeerId varint S data ≠ .error (.invalidLength expected actual)

/-- The declared size `n` is accepted when it is at most the capacity, and read when as many
bytes follow. -/
structure ChecksSize (varint : UnsignedVarint) (S : Nat) (n : UInt8) : Prop where
  accepts : ∀ data rest, varint.readU8 data = (.ok n, rest) →
    (SizeAccepted varint S data ↔ n.toNat ≤ S)
  reads : ∀ data rest, varint.readU8 data = (.ok n, rest) → n.toNat ≤ rest.length →
    ((∃ res, readPeerId varint S data = .ok res) ↔ n.toNat ≤ S)

/-- Nothing is lost by the two casts at capacity `S`. -/
structure Untruncated (varint : UnsignedVarint) (S : Nat) : Prop where
  counts : ∀ s, CountsDigits S s
  checks : ∀ n, ChecksSize varint S n

variable {varint : UnsignedVarint} {S : Nat} {s : String} {id : FixedSizePeerID S}

/-! ## The size of what is read from a text -/

/-- `(current_len / 2) as u8`. -/
theorem size_of_fromStr (h : fromStr S s = .done (.ok id)) :
    id.size.toNat = (asBytes s).length / 2 % 256 := by
  obtain ⟨bytes, -, hlen, -, hread⟩ := fromStr_of_isHexText (IsHexText.of_fromStr h)
  rw [hread] at h
  cases h
  have hhalf : bytes.length = (asBytes s).length / 2 := by omega
  rw [UInt8.toNat_ofNat', hhalf]

/-- The size is wrong for every text of digits that is read and has more than 510 of them. -/
theorem countsDigits_iff :
    CountsDigits S s ↔ ¬ (IsHexText S s ∧ 510 < (asBytes s).length) := by
  constructor
  · rintro hcounts ⟨hs, hlong⟩
    obtain ⟨bytes, -, -, -, hread⟩ := fromStr_of_isHexText hs
    have hsize := size_of_fromStr hread
    have hhalf := hcounts _ hread
    omega
  · intro hnot id hid
    have hs := IsHexText.of_fromStr hid
    have hshort : (asBytes s).length ≤ 510 := by
      by_contra hlong
      exact hnot ⟨hs, Nat.lt_of_not_le hlong⟩
    have heven := hs.even
    rw [size_of_fromStr hid]
    omega

theorem hexText_take (n : Nat) (bytes : List UInt8) :
    hexText (bytes.take n) = (hexText bytes).take (2 * n) := by
  induction bytes generalizing n with
  | nil => simp [hexText]
  | cons byte bytes ih =>
      cases n with
      | zero => rfl
      | succ n =>
          have hpair : hexText (byte :: bytes) = lowerHex byte ++ hexText bytes := rfl
          have htwo : (lowerHex byte).length = 2 := rfl
          rw [List.take_succ_cons, hpair, Nat.mul_succ, Nat.add_comm, ← htwo,
            List.take_length_add_append, htwo, ← ih]
          rfl

/-- Only the digits that the size counts are displayed again. -/
theorem display_of_fromStr (h : fromStr S s = .done (.ok id)) :
    id.display = .done (.ofList (s.toLower.toList.take (2 * id.size.toNat))) := by
  have hsize := size_of_fromStr h
  obtain ⟨bytes, htext, hlen, hfit, hread⟩ := fromStr_of_isHexText (IsHexText.of_fromStr h)
  rw [hread] at h
  cases h
  dsimp only at hsize ⊢
  have hle : (UInt8.ofNat bytes.length).toNat ≤ bytes.length := by omega
  have htake : (padded S bytes).toList.take (UInt8.ofNat bytes.length).toNat =
      bytes.take (UInt8.ofNat bytes.length).toNat := by
    have hall := congrArg (List.take (UInt8.ofNat bytes.length).toNat) (take_padded hfit)
    rwa [List.take_take, Nat.min_eq_left hle] at hall
  rw [display_eq (hle.trans hfit), htake, hexText_take, htext, String.toList_ofList]

/-! ## The size that is declared -/

theorem sizeAccepted_iff {data rest : List UInt8} {n : UInt8}
    (hread : varint.readU8 data = (.ok n, rest)) :
    SizeAccepted varint S data ↔ n.toNat ≤ S % 256 := by
  rw [SizeAccepted, readPeerId_of_read hread]
  split_ifs with hrefused hshort
  · simp [hrefused]
  · simpa using hrefused
  · simpa using hrefused

theorem exists_readPeerId_iff {data rest : List UInt8} {n : UInt8}
    (hread : varint.readU8 data = (.ok n, rest)) (henough : n.toNat ≤ rest.length) :
    (∃ res, readPeerId varint S data = .ok res) ↔ n.toNat ≤ S % 256 := by
  rw [readPeerId_of_read hread, if_neg (Nat.not_lt.mpr henough)]
  split_ifs with hrefused
  · simp [hrefused]
  · simpa using hrefused

/-- The check compares with the last byte of the capacity, so a size between the two is
refused. -/
theorem checksSize_iff (hvarint : varint.Lawful) (n : UInt8) :
    ChecksSize varint S n ↔ S ≤ 255 ∨ n.toNat ≤ S % 256 := by
  have hlt : n.toNat < 256 := n.toNat_lt
  constructor
  · intro hchecks
    have hread := hvarint.read_encode n []
    have hiff := hchecks.accepts _ _ hread
    rw [sizeAccepted_iff hread] at hiff
    omega
  · intro hcond
    have hsame : n.toNat ≤ S % 256 ↔ n.toNat ≤ S := by omega
    constructor
    · intro data rest hread
      rw [sizeAccepted_iff hread, hsame]
    · intro data rest hread henough
      rw [exists_readPeerId_iff hread henough, hsame]

/-! ## Every capacity -/

/-- A text of 512 digits, which a larger capacity has room for. -/
def longText : String := String.ofList (hexText (List.replicate 256 7))

theorem fromStr_longText (hS : 256 ≤ S) :
    fromStr S longText = .done (.ok ⟨0, padded S (List.replicate 256 7)⟩) := by
  have hlen : (List.replicate 256 (7 : UInt8)).length = 256 := List.length_replicate
  have hread := fromStr_hexText_bytes (hlen.trans_le hS)
  rwa [hlen] at hread

theorem length_longText (hS : 256 ≤ S) : (asBytes longText).length = 512 := by
  have htext := IsHexText.of_fromStr (fromStr_longText hS)
  rw [length_asBytes htext.chars, longText, String.toList_ofList, length_hexText,
    List.length_replicate]

theorem untruncated_iff (hvarint : varint.Lawful) : Untruncated varint S ↔ S ≤ 255 := by
  constructor
  · intro huntruncated
    by_contra hlarge
    have hS : 256 ≤ S := Nat.lt_of_not_le hlarge
    have hhalf := huntruncated.counts longText _ (fromStr_longText hS)
    rw [length_longText hS] at hhalf
    cases hhalf
  · intro hS
    refine ⟨fun s => countsDigits_iff.mpr ?_, fun n => (checksSize_iff hvarint n).mpr (.inl hS)⟩
    rintro ⟨hs, hlong⟩
    have hfits := hs.fits
    omega

/-- The casts lose nothing exactly at the capacities that a byte can count.  At the others
the texts of more than 510 digits get a size that is too small, and the declared sizes past
the last byte of the capacity are refused. -/
theorem size_untruncated (hvarint : varint.Lawful) (S : Nat) :
    (Untruncated varint S ↔ S ≤ 255) ∧
      (∀ s, CountsDigits S s ↔ ¬ (IsHexText S s ∧ 510 < (asBytes s).length)) ∧
        ∀ n, ChecksSize varint S n ↔ S ≤ 255 ∨ n.toNat ≤ S % 256 :=
  ⟨untruncated_iff hvarint, fun _ => countsDigits_iff, checksSize_iff hvarint⟩

theorem size_untruncated_leb128 :
    (Untruncated leb128 300 ↔ 300 ≤ 255) ∧
      (∀ s, CountsDigits 300 s ↔ ¬ (IsHexText 300 s ∧ 510 < (asBytes s).length)) ∧
        ∀ n : UInt8, ChecksSize leb128 300 n ↔ 300 ≤ 255 ∨ n.toNat ≤ 300 % 256 :=
  size_untruncated lawful_leb128 300

/-- At capacity 256 a text of 512 digits is read as the empty identifier, and no size but
zero is accepted. -/
theorem not_untruncated_256 :
    ¬ Untruncated leb128 256 ∧
      (fromStr 256 longText = .done (.ok ⟨0, padded 256 (List.replicate 256 7)⟩) ∧
        (asBytes longText).length = 512) ∧
      readPeerId leb128 256 [1, 7] = .error (.invalidLength 256 1) := by
  refine ⟨fun h => ?_, ⟨fromStr_longText (by decide), length_longText (S := 256) (by decide)⟩, ?_⟩
  · exact absurd ((untruncated_iff lawful_leb128).mp h) (by decide)
  · decide +kernel

end SfRs.PeerId
