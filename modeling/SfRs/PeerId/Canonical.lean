import SfRs.PeerId.Text
/-!
# Which binary forms are canonical

`from_bytes` accepts a length prefix of two bytes, whose value it keeps modulo 256.  A
last byte of zero is rejected as not minimal; a last byte from 2 on loses its high bits
and is not.
-/

namespace SfRs.PeerId

open SfRs.Lib

/-- How `unsigned_varint` 0.8 reads a `u8`: one byte at a time and at most two, up to the
first below 128, the groups of seven bits joined in `u8` arithmetic. -/
structure UnsignedVarint.Accumulates (varint : UnsignedVarint) : Prop where
  read_empty : ∃ e rest, varint.readU8 [] = (.error e, rest)
  read_one : ∀ b rest, b < 128 → varint.readU8 (b :: rest) = (.ok b, rest)
  read_short : ∀ b, 128 ≤ b → ∃ e rest, varint.readU8 [b] = (.error e, rest)
  read_two : ∀ b₀ b₁ rest, 128 ≤ b₀ → b₁ < 128 → b₁ ≠ 0 →
    varint.readU8 (b₀ :: b₁ :: rest) = (.ok (b₀ &&& (127 : UInt8) ||| b₁ <<< (7 : UInt8)), rest)
  read_zero : ∀ b₀ rest, 128 ≤ b₀ →
    ∃ e rest', varint.readU8 (b₀ :: 0 :: rest) = (.error e, rest')
  read_long : ∀ b₀ b₁ rest, 128 ≤ b₀ → 128 ≤ b₁ →
    ∃ e rest', varint.readU8 (b₀ :: b₁ :: rest) = (.error e, rest')

theorem accumulates_leb128 : leb128.Accumulates := by
  constructor
  · exact ⟨_, _, rfl⟩
  · intro b rest hb
    simp [leb128, hb]
  · intro b hb
    exact ⟨.io .unexpectedEof, [], by simp [leb128, UInt8.not_lt.mpr hb]⟩
  · intro b₀ b₁ rest h₀ h₁ hne
    simp [leb128, UInt8.not_lt.mpr h₀, h₁, hne]
  · intro b₀ rest h₀
    exact ⟨.decode .notMinimal, rest, by simp [leb128, UInt8.not_lt.mpr h₀]⟩
  · intro b₀ b₁ rest h₀ h₁
    exact ⟨.decode .overflow, rest, by
      simp [leb128, UInt8.not_lt.mpr h₀, UInt8.not_lt.mpr h₁]⟩

variable {varint : UnsignedVarint} {S : Nat}

/-! ## The length prefix -/

/-- The two forms of a length prefix that is read. -/
theorem UnsignedVarint.Accumulates.read_inv (hreads : varint.Accumulates)
    {data rest : List UInt8} {size : UInt8} (h : varint.readU8 data = (.ok size, rest)) :
    (size < 128 ∧ data = size :: rest) ∨
      ∃ b₀ b₁ : UInt8, 128 ≤ b₀ ∧ b₁ < 128 ∧ b₁ ≠ 0 ∧ data = b₀ :: b₁ :: rest ∧
        size = b₀ &&& (127 : UInt8) ||| b₁ <<< (7 : UInt8) := by
  rcases data with _ | ⟨b₀, data⟩
  · obtain ⟨e, rest', he⟩ := hreads.read_empty
    simp [he] at h
  by_cases h₀ : b₀ < 128
  · obtain ⟨rfl, rfl⟩ : b₀ = size ∧ data = rest := by simpa [hreads.read_one b₀ data h₀] using h
    exact .inl ⟨h₀, rfl⟩
  have hle₀ : 128 ≤ b₀ := UInt8.not_lt.mp h₀
  rcases data with _ | ⟨b₁, data⟩
  · obtain ⟨e, rest', he⟩ := hreads.read_short b₀ hle₀
    simp [he] at h
  by_cases h₁ : b₁ < 128
  · by_cases hzero : b₁ = 0
    · obtain ⟨e, rest', he⟩ := hreads.read_zero b₀ data hle₀
      simp [hzero, he] at h
    · obtain ⟨hsize, rfl⟩ : b₀ &&& (127 : UInt8) ||| b₁ <<< (7 : UInt8) = size ∧ data = rest := by
        simpa [hreads.read_two b₀ b₁ data hle₀ h₁ hzero] using h
      exact .inr ⟨b₀, b₁, hle₀, h₁, hzero, rfl, hsize.symm⟩
  · obtain ⟨e, rest', he⟩ := hreads.read_long b₀ b₁ data hle₀ (UInt8.not_lt.mp h₁)
    simp [he] at h

theorem join_groups_fin (n : Fin 256) :
    (UInt8.ofNat n <<< (7 : UInt8) = if n.val % 2 = 1 then 128 else 0) ∧
      (128 ≤ n.val → (UInt8.ofNat n &&& (127 : UInt8)).toNat = n.val - 128 ∧
        UInt8.ofNat n &&& (127 : UInt8) ||| (128 : UInt8) = UInt8.ofNat n) := by
  decide +revert +kernel

/-- Only the lowest bit of the second byte is left in the value. -/
theorem join_groups {b₀ : UInt8} (h₀ : 128 ≤ b₀) (b₁ : UInt8) :
    b₀ &&& (127 : UInt8) ||| b₁ <<< (7 : UInt8) =
      if b₁.toNat % 2 = 1 then b₀ else b₀ &&& (127 : UInt8) := by
  have hfirst := (join_groups_fin ⟨b₀.toNat, b₀.toNat_lt⟩).2 (UInt8.le_iff_toNat_le.mp h₀)
  have hsecond := (join_groups_fin ⟨b₁.toNat, b₁.toNat_lt⟩).1
  rw [UInt8.ofNat_toNat] at hfirst hsecond
  rw [hsecond]
  split_ifs with hodd
  · exact hfirst.2
  · exact UInt8.or_zero

theorem toNat_join_groups {b₀ : UInt8} (h₀ : 128 ≤ b₀) (b₁ : UInt8) :
    (b₀ &&& (127 : UInt8) ||| b₁ <<< (7 : UInt8)).toNat =
      (b₀.toNat - 128 + 128 * b₁.toNat) % 256 := by
  have hle : 128 ≤ b₀.toNat := UInt8.le_iff_toNat_le.mp h₀
  have hlt : b₀.toNat < 256 := b₀.toNat_lt
  have hfirst : (b₀ &&& (127 : UInt8)).toNat = b₀.toNat - 128 := by
    simpa using ((join_groups_fin ⟨b₀.toNat, hlt⟩).2 hle).1
  rw [join_groups h₀]
  split_ifs with hodd
  · omega
  · rw [hfirst]
    omega

theorem large_fin (n : Fin 256) (hn : 128 ≤ n.val) :
    UInt8.ofNat n ||| (128 : UInt8) = UInt8.ofNat n ∧ UInt8.ofNat n >>> (7 : UInt8) = 1 := by
  decide +revert +kernel

theorem encodeU8_large (hvarint : varint.Lawful) {b : UInt8} (hb : 128 ≤ b) :
    varint.encodeU8 b = [b, 1] := by
  obtain ⟨hor, hshift⟩ := large_fin ⟨b.toNat, b.toNat_lt⟩ (UInt8.le_iff_toNat_le.mp hb)
  rw [UInt8.ofNat_toNat] at hor hshift
  rw [hvarint.encode_large b hb, hor, hshift]

/-- A prefix of two bytes is the one that is written if its second byte is 1. -/
theorem encodeU8_join_groups (hvarint : varint.Lawful) {b₀ : UInt8} (h₀ : 128 ≤ b₀)
    (b₁ : UInt8) :
    varint.encodeU8 (b₀ &&& (127 : UInt8) ||| b₁ <<< (7 : UInt8)) = [b₀, b₁] ↔ b₁ = 1 := by
  rw [join_groups h₀]
  split_ifs with hodd
  · rw [encodeU8_large hvarint h₀]
    simp [eq_comm]
  · have hsmall : b₀ &&& (127 : UInt8) < 128 := by
      have hfirst := ((join_groups_fin ⟨b₀.toNat, b₀.toNat_lt⟩).2
        (UInt8.le_iff_toNat_le.mp h₀)).1
      rw [UInt8.ofNat_toNat] at hfirst
      have hlt : b₀.toNat < 256 := b₀.toNat_lt
      rw [UInt8.lt_iff_toNat_lt, hfirst]
      exact Nat.sub_lt_left_of_lt_add (UInt8.le_iff_toNat_le.mp h₀) hlt
    rw [hvarint.encode_small _ hsmall]
    refine ⟨fun h => by simp at h, fun h => ?_⟩
    rw [h] at hodd
    exact absurd rfl hodd

/-! ## What `from_bytes` accepts -/

variable {b : List UInt8} {id : FixedSizePeerID S}

theorem fromBytes_of_varint {rest : List UInt8} {size : UInt8} (hS : S ≤ 255)
    (hread : varint.readU8 b = (.ok size, rest)) (hsize : size.toNat ≤ S)
    (hlen : rest.length = size.toNat) :
    fromBytes varint S b = .ok { size := size, bytes := padded S rest } := by
  rw [fromBytes_of_read hS hread hsize, if_neg (by rw [hlen]; exact Nat.lt_irrefl _), ← hlen,
    List.take_length, List.drop_length]
  rfl

/-- An accepted byte string is a length prefix and as many bytes as it says. -/
theorem fromBytes_ok_iff (hS : S ≤ 255) :
    fromBytes varint S b = .ok id ↔ ∃ rest, varint.readU8 b = (.ok id.size, rest) ∧
      id.size.toNat ≤ S ∧ rest.length = id.size.toNat ∧ id.bytes = padded S rest := by
  constructor
  · intro h
    rcases hread : varint.readU8 b with ⟨e | size, rest⟩
    · rw [fromBytes_of_readError hread] at h
      cases h
    by_cases hsize : size.toNat ≤ S
    · rw [fromBytes_of_read hS hread hsize] at h
      split_ifs at h with hshort hmore
      cases h
      have hle : rest.length ≤ size.toNat :=
        List.drop_eq_nil_iff.mp (List.isEmpty_iff.mp hmore)
      exact ⟨rest, rfl, hsize, Nat.le_antisymm hle (Nat.le_of_not_lt hshort),
        by rw [List.take_of_length_le hle]⟩
    · rw [fromBytes_of_refused hread (by omega)] at h
      cases h
  · rintro ⟨rest, hread, hsize, hlen, hbytes⟩
    rw [fromBytes_of_varint hS hread hsize hlen, ← hbytes]

/-- What is written of an identifier that was read: its size and the bytes behind the
prefix. -/
theorem encoding_of_fromBytes {rest : List UInt8} (hsize : id.size.toNat ≤ S)
    (hlen : rest.length = id.size.toNat) (hbytes : id.bytes = padded S rest) :
    id.encoding varint = varint.encodeU8 id.size ++ rest := by
  rw [FixedSizePeerID.encoding, hbytes, ← hlen, take_padded (hlen.trans_le hsize)]

/-! ## Canonical byte strings -/

/-- Writing what is read from `b` gives `b` again. -/
def Canonical (varint : UnsignedVarint) (S : Nat) (b : List UInt8) : Prop :=
  ∀ id, fromBytes varint S b = .ok id → id.write varint vecWriteAll [] = .done (.ok (b.length, b))

/-- A length prefix of two bytes whose value does not fit in eight bits, and behind it as
many bytes as its low eight bits say. -/
def Overflowing (S : Nat) (b : List UInt8) : Prop :=
  ∃ b₀ b₁ rest, b = b₀ :: b₁ :: rest ∧ 128 ≤ b₀ ∧ 2 ≤ b₁ ∧ b₁ < 128 ∧ rest.length ≤ S ∧
    rest.length = (b₀.toNat - 128 + 128 * b₁.toNat) % 256

theorem canonical_iff_encoding (hS : S ≤ 255) :
    Canonical varint S b ↔ ∀ id, fromBytes varint S b = .ok id → id.encoding varint = b := by
  have hwrite : ∀ id : FixedSizePeerID S, fromBytes varint S b = .ok id →
      (id.write varint vecWriteAll [] = .done (.ok (b.length, b)) ↔ id.encoding varint = b) := by
    intro id hid
    obtain ⟨rest, -, hsize, -, -⟩ := (fromBytes_ok_iff hS).mp hid
    rw [write_vec hsize, List.nil_append]
    refine ⟨fun h => ?_, fun h => by rw [h]⟩
    injection h with h
    injection h with h
    exact congrArg Prod.snd h
  exact forall₂_congr hwrite

theorem one_lt_of_ne {b₁ : UInt8} (hzero : b₁ ≠ 0) (hone : b₁ ≠ 1) : 2 ≤ b₁ := by
  rw [UInt8.le_iff_toNat_le]
  have hzero' : b₁.toNat ≠ 0 := fun h => hzero (UInt8.toNat.inj h)
  have hone' : b₁.toNat ≠ 1 := fun h => hone (UInt8.toNat.inj h)
  have htwo : (2 : UInt8).toNat = 2 := rfl
  omega

/-- The only accepted byte strings that are not written are those whose prefix overflows. -/
theorem canonical_iff_not_overflowing (hvarint : varint.Lawful) (hreads : varint.Accumulates)
    (hS : S ≤ 255) (b : List UInt8) : Canonical varint S b ↔ ¬ Overflowing S b := by
  rw [canonical_iff_encoding hS]
  constructor
  · rintro hcanonical ⟨b₀, b₁, rest, rfl, h₀, htwo, h₁, hfit, hlen⟩
    have hzero : b₁ ≠ 0 := by
      rintro rfl
      exact absurd htwo (by decide)
    rw [← toNat_join_groups h₀] at hlen
    have hsize : (b₀ &&& (127 : UInt8) ||| b₁ <<< (7 : UInt8)).toNat ≤ S := hlen ▸ hfit
    have hread := hreads.read_two b₀ b₁ rest h₀ h₁ hzero
    have hencoding := hcanonical _ (fromBytes_of_varint hS hread hsize hlen)
    rw [encoding_of_fromBytes hsize hlen rfl] at hencoding
    have hprefix : varint.encodeU8 (b₀ &&& (127 : UInt8) ||| b₁ <<< (7 : UInt8)) = [b₀, b₁] :=
      List.append_cancel_right hencoding
    obtain rfl := (encodeU8_join_groups hvarint h₀ b₁).mp hprefix
    exact absurd htwo (by decide)
  · intro hnot id hid
    obtain ⟨rest, hread, hsize, hlen, hbytes⟩ := (fromBytes_ok_iff hS).mp hid
    rw [encoding_of_fromBytes hsize hlen hbytes]
    rcases hreads.read_inv hread with ⟨hsmall, rfl⟩ | ⟨b₀, b₁, h₀, h₁, hzero, rfl, hjoin⟩
    · rw [hvarint.encode_small _ hsmall, List.singleton_append]
    · obtain rfl : b₁ = 1 := by
        by_contra hone
        refine hnot ⟨b₀, b₁, rest, rfl, h₀, one_lt_of_ne hzero hone, h₁, hlen ▸ hsize, ?_⟩
        rw [hlen, hjoin, toNat_join_groups h₀]
      rw [hjoin, (encodeU8_join_groups hvarint h₀ 1).mpr rfl]
      rfl

/-- Identifiers that compare equal are written as the same bytes. -/
theorem encoding_eq_of_eq {id' : FixedSizePeerID S} (hsize' : id'.size.toNat ≤ S)
    (h : id.eq id' = .done true) : id.encoding varint = id'.encoding varint := by
  obtain ⟨hsizes, hbytes⟩ := (eq_done_iff hsize').mp h
  rw [FixedSizePeerID.encoding, FixedSizePeerID.encoding, hbytes, hsizes]

/-- What is written of an identifier that was read is read as that identifier. -/
theorem fromBytes_encoding_of_fromBytes (hvarint : varint.Lawful) (hS : S ≤ 255)
    (h : fromBytes varint S b = .ok id) : fromBytes varint S (id.encoding varint) = .ok id := by
  obtain ⟨rest, -, hsize, hlen, hbytes⟩ := (fromBytes_ok_iff hS).mp h
  have hread := hvarint.read_encode id.size rest
  rw [encoding_of_fromBytes hsize hlen hbytes, fromBytes_of_varint hS hread hsize hlen, ← hbytes]

/-- The accepted byte strings without an overflowing prefix are the ones that are written,
and no two of them decode to equal identifiers.  Every accepted byte string with such a
prefix decodes to the identifier of another byte string. -/
theorem canonical_form (hvarint : varint.Lawful) (hreads : varint.Accumulates) (hS : S ≤ 255) :
    (∀ b, Canonical varint S b ↔ ¬ Overflowing S b) ∧
      (∀ b b', ¬ Overflowing S b → ¬ Overflowing S b' → ∀ id id',
        fromBytes varint S b = .ok id → fromBytes varint S b' = .ok id' →
          id.eq id' = .done true → b = b') ∧
      ∀ b, Overflowing S b → ∃ b' id, b' ≠ b ∧ fromBytes varint S b = .ok id ∧
        fromBytes varint S b' = .ok id := by
  have hiff := canonical_iff_not_overflowing hvarint hreads hS
  refine ⟨hiff, ?_, ?_⟩
  · intro b b' hb hb' id id' hid hid' heq
    obtain ⟨-, -, hsize', -, -⟩ := (fromBytes_ok_iff hS).mp hid'
    calc
      b = id.encoding varint := ((canonical_iff_encoding hS).mp ((hiff b).mpr hb) id hid).symm
      _ = id'.encoding varint := encoding_eq_of_eq hsize' heq
      _ = b' := (canonical_iff_encoding hS).mp ((hiff b').mpr hb') id' hid'
  · intro b hb
    have hnot : ¬ Canonical varint S b := fun h => (hiff b).mp h hb
    rw [canonical_iff_encoding hS] at hnot
    push Not at hnot
    obtain ⟨id, hid, hne⟩ := hnot
    exact ⟨id.encoding varint, id, hne, hid, fromBytes_encoding_of_fromBytes hvarint hS hid⟩

theorem canonical_form_leb128 :
    (∀ b, Canonical leb128 32 b ↔ ¬ Overflowing 32 b) ∧
      (∀ b b', ¬ Overflowing 32 b → ¬ Overflowing 32 b' → ∀ id id',
        fromBytes leb128 32 b = .ok id → fromBytes leb128 32 b' = .ok id' →
          id.eq id' = .done true → b = b') ∧
      ∀ b, Overflowing 32 b → ∃ b' id, b' ≠ b ∧ fromBytes leb128 32 b = .ok id ∧
        fromBytes leb128 32 b' = .ok id :=
  canonical_form lawful_leb128 accumulates_leb128 (by decide)

/-- `PeerID::from_bytes` reads the prefix `81 02` as the size 1. -/
theorem not_canonical_overflow :
    ¬ Canonical leb128 32 [0x81, 2, 7] ∧
      fromBytes leb128 32 [0x81, 2, 7] = fromBytes leb128 32 [1, 7] := by
  constructor
  · intro h
    exact absurd (h ⟨1, padded 32 [7]⟩ (by decide +kernel)) (by decide +kernel)
  · decide +kernel

end SfRs.PeerId
