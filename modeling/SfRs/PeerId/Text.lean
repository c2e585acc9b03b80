import SfRs.PeerId.Display
/-!
# The round trip of the text form

The digits are read in either case and written in lower case.  A text of digits is
therefore read as its lower-case form is, and the lower-case texts of even length are
exactly the texts that `Display` writes.
-/

namespace SfRs.PeerId

open SfRs.Lib

/-! ## ASCII text -/

theorem asBytes_ofList_append (c : Char) (cs : List Char) :
    asBytes (String.ofList (c :: cs)) =
      String.utf8EncodeChar c ++ asBytes (String.ofList cs) := by
  simp only [asBytes, String.toUTF8_eq_toByteArray, String.toByteArray_ofList]
  rw [List.utf8Encode_cons, List.utf8Encode_singleton]
  simp [ByteArray.data_append]

/-- A character past the ASCII range starts with a byte past it. -/
theorem exists_large_mem_utf8EncodeChar {c : Char} (hc : 128 ≤ c.toNat) :
    ∃ b ∈ String.utf8EncodeChar c, 128 ≤ b.toNat := by
  have hone : ¬ c.val.toNat ≤ 127 := Nat.not_le.mpr hc
  simp only [String.utf8EncodeChar, hone, if_false]
  split_ifs <;> refine ⟨_, List.mem_cons_self, ?_⟩ <;> rw [UInt8.toNat_ofNat'] <;> omega

theorem lt_of_mem_of_asBytes {cs : List Char}
    (hbytes : ∀ b ∈ asBytes (String.ofList cs), b.toNat < 128) : ∀ c ∈ cs, c.toNat < 128 := by
  induction cs with
  | nil => simp
  | cons c cs ih =>
      rw [asBytes_ofList_append] at hbytes
      refine List.forall_mem_cons.mpr ⟨?_, ih fun b hb => hbytes b (List.mem_append_right _ hb)⟩
      by_contra hlarge
      obtain ⟨b, hb, hle⟩ := exists_large_mem_utf8EncodeChar (Nat.le_of_not_lt hlarge)
      exact absurd (hbytes b (List.mem_append_left _ hb)) (Nat.not_lt.mpr hle)

theorem IsHexDigit.lt {b : UInt8} (h : IsHexDigit b) : b.toNat < 128 := by
  unfold IsHexDigit at h
  omega

/-- The bytes of a text of digits are its characters. -/
theorem asBytes_of_isHexDigit {s : String} (hhex : ∀ b ∈ asBytes s, IsHexDigit b) :
    asBytes s = s.toList.map Char.toUInt8 := by
  rw [← String.ofList_toList (s := s)] at hhex
  have hascii := lt_of_mem_of_asBytes fun b hb => (hhex b hb).lt
  conv_lhs => rw [← String.ofList_toList (s := s)]
  exact asBytes_ofList_ascii hascii

/-! ## Letter case -/

/-- A digit as a character. -/
def IsHexChar (c : Char) : Prop := c.toNat < 128 ∧ IsHexDigit c.toUInt8

theorem forall_isHexChar_iff (s : String) :
    (∀ c ∈ s.toList, IsHexChar c) ↔ ∀ b ∈ asBytes s, IsHexDigit b := by
  constructor
  · intro h b hb
    have hascii := asBytes_ofList_ascii fun c hc => (h c hc).1
    rw [String.ofList_toList] at hascii
    rw [hascii] at hb
    obtain ⟨c, hc, rfl⟩ := List.mem_map.mp hb
    exact (h c hc).2
  · intro h c hc
    have hbytes := h
    rw [← String.ofList_toList (s := s)] at hbytes
    refine ⟨lt_of_mem_of_asBytes (fun b hb => (hbytes b hb).lt) c hc, h _ ?_⟩
    rw [asBytes_of_isHexDigit h]
    exact List.mem_map_of_mem hc

theorem toLower_of_large {c : Char} (hc : ¬ c.toNat < 128) : c.toLower = c := by
  have hafter : ¬ (c.val ≥ 'A'.val ∧ c.val ≤ 'Z'.val) := fun ⟨_, hle⟩ =>
    hc (Nat.lt_of_le_of_lt (UInt32.le_iff_toNat_le.mp hle) (by decide))
  exact dif_neg hafter

theorem toLower_toLower (c : Char) : c.toLower.toLower = c.toLower := by
  have hfin : ∀ n : Fin 128, (Char.ofNat n).toLower.toLower = (Char.ofNat n).toLower := by
    decide +kernel
  by_cases hc : c.toNat < 128
  · have htwice := hfin ⟨c.toNat, hc⟩
    rwa [Char.ofNat_toNat] at htwice
  · rw [toLower_of_large hc, toLower_of_large hc]

theorem digit_cases_fin (n : Fin 128) :
    (IsHexDigit (Char.ofNat n).toUInt8 ↔ ∃ v : Fin 16, (Char.ofNat n).toLower = Nat.digitChar v) ∧
      (IsHexDigit (Char.ofNat n).toUInt8 →
        hexCharToValue (asChar (Char.ofNat n).toUInt8) 0 =
          hexCharToValue (asChar (Char.ofNat n).toLower.toUInt8) 0) := by
  decide +revert +kernel

/-- The digits are the characters whose lower case `Display` writes. -/
theorem isHexChar_iff_toLower (c : Char) : IsHexChar c ↔ IsLowerHex c.toLower := by
  by_cases hc : c.toNat < 128
  · have hfin := (digit_cases_fin ⟨c.toNat, hc⟩).1
    rw [Char.ofNat_toNat] at hfin
    rw [IsHexChar, and_iff_right hc, hfin]
    exact ⟨fun ⟨v, hv⟩ => ⟨v, v.isLt, hv⟩, fun ⟨v, hlt, hv⟩ => ⟨⟨v, hlt⟩, hv⟩⟩
  · have hlarge : ¬ IsLowerHex c.toLower := by
      intro hlower
      rw [toLower_of_large hc] at hlower
      exact hc hlower.lt
    exact ⟨fun h => absurd h.1 hc, fun h => absurd h hlarge⟩

theorem hexCharToValue_toLower {c : Char} (h : IsHexChar c) (i : Nat) :
    hexCharToValue (asChar c.toUInt8) i = hexCharToValue (asChar c.toLower.toUInt8) i := by
  obtain ⟨v, hv, hlower⟩ := (isHexChar_iff_toLower c).mp h
  have hfin := (digit_cases_fin ⟨c.toNat, h.1⟩).2
  rw [Char.ofNat_toNat, hlower] at hfin
  rw [hlower, hexCharToValue_ok ((hfin h.2).trans (hexCharToValue_digitChar hv 0)),
    hexCharToValue_digitChar hv]

variable {S : Nat}

theorem fromStrLoop_toLower {cs : List Char} (hhex : ∀ c ∈ cs, IsHexChar c) (i : Nat)
    (bytes : Vector UInt8 S) :
    fromStrLoop i (chunksTwo (cs.map Char.toUInt8)) bytes =
      fromStrLoop i (chunksTwo ((cs.map Char.toLower).map Char.toUInt8)) bytes := by
  induction cs using chunksTwo.induct generalizing i bytes with
  | case1 => rfl
  | case2 a =>
      have ha := hexCharToValue_toLower (hhex a (by simp)) (i * 2)
      simp only [List.map_cons, List.map_nil, chunksTwo, fromStrLoop, Outcome.index,
        List.getElem?_cons_zero, Outcome.done_bind, ha]
      rfl
  | case3 a b rest ih =>
      have ha := hexCharToValue_toLower (hhex a (by simp)) (i * 2)
      have hb := hexCharToValue_toLower (hhex b (by simp)) (i * 2 + 1)
      have hrest := fun bytes => ih (fun c hc => hhex c (by simp [hc])) (i + 1) bytes
      simp only [List.map_cons, chunksTwo, fromStrLoop, Outcome.index,
        List.getElem?_cons_zero, List.getElem?_cons_succ, Outcome.done_bind, ha, hb]
      simp only [hrest]

/-! ## Texts of digits -/

/-- The texts that `from_str` has a peer identifier for at capacity `S`. -/
structure IsHexText (S : Nat) (s : String) : Prop where
  even : (asBytes s).length % 2 = 0
  fits : (asBytes s).length ≤ 2 * S
  digits : ∀ b ∈ asBytes s, IsHexDigit b

variable {s t : String}

theorem IsHexText.chars (h : IsHexText S s) : ∀ c ∈ s.toList, IsHexChar c :=
  (forall_isHexChar_iff s).mpr h.digits

theorem toList_toLower (s : String) : s.toLower.toList = s.toList.map Char.toLower :=
  String.toList_map

theorem length_asBytes (hhex : ∀ c ∈ s.toList, IsHexChar c) :
    (asBytes s).length = s.toList.length := by
  rw [asBytes_of_isHexDigit ((forall_isHexChar_iff s).mp hhex), List.length_map]

/-- The digits of a text, and their number, are those of its lower case. -/
theorem isHexText_toLower_iff : IsHexText S s.toLower ↔ IsHexText S s := by
  have hchars : (∀ c ∈ s.toLower.toList, IsHexChar c) ↔ ∀ c ∈ s.toList, IsHexChar c := by
    rw [toList_toLower, List.forall_mem_map]
    simp only [isHexChar_iff_toLower, toLower_toLower]
  have hlen : (∀ c ∈ s.toList, IsHexChar c) → (asBytes s.toLower).length = (asBytes s).length := by
    intro h
    rw [length_asBytes h, length_asBytes (hchars.mpr h), toList_toLower, List.length_map]
  constructor
  · intro h
    have hdigits := hchars.mp h.chars
    exact ⟨hlen hdigits ▸ h.even, hlen hdigits ▸ h.fits, (forall_isHexChar_iff s).mp hdigits⟩
  · intro h
    exact ⟨(hlen h.chars).symm ▸ h.even, (hlen h.chars).symm ▸ h.fits,
      (forall_isHexChar_iff _).mp (hchars.mpr h.chars)⟩

/-- Letter case is not looked at. -/
theorem fromStr_toLower (h : IsHexText S s) : fromStr S s.toLower = fromStr S s := by
  have hlower := isHexText_toLower_iff.mpr h
  have hbytes := asBytes_of_isHexDigit h.digits
  have hbytes' := asBytes_of_isHexDigit hlower.digits
  have hloop := fromStrLoop_toLower h.chars 0 (Vector.replicate S 0)
  rw [toList_toLower] at hbytes'
  simp only [fromStr, hbytes, hbytes', ← hloop, List.length_map]

theorem exists_hexText {cs : List Char} (hlower : ∀ c ∈ cs, IsLowerHex c)
    (heven : cs.length % 2 = 0) : ∃ bytes, cs = hexText bytes := by
  induction cs using chunksTwo.induct with
  | case1 => exact ⟨[], rfl⟩
  | case2 a => simp at heven
  | case3 a b rest ih =>
      obtain ⟨bytes, hrest⟩ := ih (fun c hc => hlower c (by simp [hc])) (by
        simpa [Nat.add_assoc] using heven)
      obtain ⟨high, hhigh, rfl⟩ := hlower a (by simp)
      obtain ⟨low, hlow, rfl⟩ := hlower b (by simp)
      refine ⟨UInt8.ofNat (high * 16 + low) :: bytes, ?_⟩
      have hvalue : (UInt8.ofNat (high * 16 + low)).toNat = high * 16 + low := by
        rw [UInt8.toNat_ofNat']
        omega
      have hdiv : (high * 16 + low) / 16 = high := by omega
      have hmod : (high * 16 + low) % 16 = low := by omega
      rw [hexText, List.flatMap_cons, lowerHex, hvalue, hdiv, hmod, hrest]
      rfl

/-- A text of digits in lower case is the text of some bytes. -/
theorem exists_toLower_eq_hexText (h : IsHexText S s) :
    ∃ bytes, s.toLower = String.ofList (hexText bytes) ∧
      2 * bytes.length = (asBytes s).length := by
  have hlower : ∀ c ∈ s.toList.map Char.toLower, IsLowerHex c :=
    List.forall_mem_map.mpr fun c hc => (isHexChar_iff_toLower c).mp (h.chars c hc)
  have hlen := length_asBytes h.chars
  obtain ⟨bytes, hbytes⟩ := exists_hexText hlower (by
    rw [List.length_map, ← hlen]
    exact h.even)
  refine ⟨bytes, ?_, ?_⟩
  · rw [← hbytes, ← toList_toLower, String.ofList_toList]
  · rw [← length_hexText, ← hbytes, List.length_map, hlen]

theorem IsHexText.of_fromStr {id : FixedSizePeerID S} (h : fromStr S s = .done (.ok id)) :
    IsHexText S s := by
  by_cases hfit : (asBytes s).length ≤ 2 * S
  · rcases forall_isHexDigit_or_first_bad (asBytes s) with
      hhex | ⟨digits, c, rest, hsplit, hhex, hbad⟩
    · refine ⟨?_, hfit, hhex⟩
      rcases Nat.mod_two_eq_zero_or_one (asBytes s).length with heven | hodd
      · exact heven
      · rw [fromStr_odd hfit hhex hodd] at h
        cases h
    · rw [fromStr_bad hfit hsplit hhex hbad] at h
      cases h
  · rw [fromStr_tooLong (Nat.lt_of_not_le hfit)] at h
    cases h

/-- What is read from a text of digits: the bytes whose text is its lower case. -/
theorem fromStr_of_isHexText (h : IsHexText S s) :
    ∃ bytes, s.toLower = String.ofList (hexText bytes) ∧
      2 * bytes.length = (asBytes s).length ∧ bytes.length ≤ S ∧
      fromStr S s = .done (.ok { size := UInt8.ofNat bytes.length, bytes := padded S bytes }) := by
  obtain ⟨bytes, htext, hlen⟩ := exists_toLower_eq_hexText h
  have hfit : bytes.length ≤ S := by
    have := h.fits
    omega
  refine ⟨bytes, htext, hlen, hfit, ?_⟩
  rw [← fromStr_toLower h, htext, fromStr_hexText_bytes hfit]

/-! ## The round trip -/

variable {id id' : FixedSizePeerID S}

/-- Identifiers that compare equal have one normal form. -/
theorem normal_eq_of_eq (hsize' : id'.size.toNat ≤ S) (h : id.eq id' = .done true) :
    id.normal = id'.normal := by
  obtain ⟨hsizes, hbytes⟩ := (eq_done_iff hsize').mp h
  simp only [FixedSizePeerID.normal, hsizes, ← hbytes]

theorem eq_iff_normal_eq (hsize : id.size.toNat ≤ S) (hsize' : id'.size.toNat ≤ S) :
    id.eq id' = .done true ↔ id.normal = id'.normal :=
  ⟨normal_eq_of_eq hsize', eq_of_normal_eq hsize hsize'⟩

theorem toNat_ofNat_length {bytes : List UInt8} (hS : S ≤ 255) (hfit : bytes.length ≤ S) :
    (UInt8.ofNat bytes.length).toNat = bytes.length := by
  rw [UInt8.toNat_ofNat', Nat.mod_eq_of_lt (by omega)]

/-- An identifier made of some bytes has no others. -/
theorem normal_padded {bytes : List UInt8} (hS : S ≤ 255) (hfit : bytes.length ≤ S) :
    let id : FixedSizePeerID S := { size := UInt8.ofNat bytes.length, bytes := padded S bytes }
    id.normal = id ∧ id.display = .done (.ofList (hexText bytes)) := by
  intro id
  have hlen : id.size.toNat = bytes.length := toNat_ofNat_length hS hfit
  have htake : id.bytes.toList.take id.size.toNat = bytes := by
    rw [hlen]
    exact take_padded hfit
  refine ⟨?_, ?_⟩
  · simp only [FixedSizePeerID.normal, htake]
    rfl
  · rw [display_eq (hlen.trans_le hfit), htake]

theorem getElem_normal {i : Nat} (hsize : id.size.toNat ≤ S) (hi : i < S)
    (hpast : id.size.toNat ≤ i) : id.normal.bytes[i] = 0 := by
  have hlen := length_take_bytes hsize
  simp only [FixedSizePeerID.normal]
  rw [getElem_padded, List.getD_eq_default _ _ (by rw [hlen]; exact hpast)]

theorem exists_fromStr (hS : S ≤ 255) (h : IsHexText S s) :
    ∃ id, fromStr S s = .done (.ok id) ∧ id.normal = id ∧ id.size.toNat ≤ S ∧
      id.display = .done s.toLower ∧ id.size.toNat = (asBytes s).length / 2 := by
  obtain ⟨bytes, htext, hlen, hfit, hread⟩ := fromStr_of_isHexText h
  obtain ⟨hnormal, hdisplay⟩ := normal_padded (S := S) hS hfit
  have hsize := toNat_ofNat_length hS hfit
  refine ⟨_, hread, hnormal, hsize.trans_le hfit, htext ▸ hdisplay, ?_⟩
  rw [hsize]
  omega

/-- What is read from a text has no bytes past its size, and is displayed as the lower case
of the text. -/
theorem of_fromStr (hS : S ≤ 255) (h : fromStr S s = .done (.ok id)) :
    id.normal = id ∧ id.size.toNat ≤ S ∧ id.display = .done s.toLower := by
  obtain ⟨id', hread, hnormal, hsize, hdisplay, -⟩ := exists_fromStr hS (IsHexText.of_fromStr h)
  obtain rfl : id = id' := by
    rw [h] at hread
    cases hread
    rfl
  exact ⟨hnormal, hsize, hdisplay⟩

theorem fromStr_eq_iff (hS : S ≤ 255) (hs : IsHexText S s) :
    fromStr S s = fromStr S t ↔ s.toLower = t.toLower := by
  obtain ⟨id, hread, -, -, hdisplay, -⟩ := exists_fromStr hS hs
  constructor
  · intro hsame
    obtain ⟨-, -, hdisplay'⟩ := of_fromStr hS (hsame ▸ hread)
    exact Outcome.done.inj (hdisplay.symm.trans hdisplay')
  · intro hlower
    have ht : IsHexText S t := by
      rw [← isHexText_toLower_iff, ← hlower]
      exact isHexText_toLower_iff.mpr hs
    rw [← fromStr_toLower hs, hlower, fromStr_toLower ht]

/-- Identifiers that are read compare equal when their texts have one lower case. -/
theorem eq_iff_toLower_eq (hS : S ≤ 255) (hid : fromStr S s = .done (.ok id))
    (hid' : fromStr S t = .done (.ok id')) :
    id.eq id' = .done true ↔ s.toLower = t.toLower := by
  obtain ⟨hnormal, hsize, -⟩ := of_fromStr hS hid
  obtain ⟨hnormal', hsize', -⟩ := of_fromStr hS hid'
  rw [eq_iff_normal_eq hsize hsize', hnormal, hnormal',
    ← fromStr_eq_iff hS (IsHexText.of_fromStr hid), hid, hid']
  simp

/-- What the text form promises at capacity `S`. -/
structure TextRoundTrips (S : Nat) : Prop where
  reads : ∀ id : FixedSizePeerID S, id.size.toNat ≤ S → ∃ text id',
    id.display = .done text ∧ fromStr S text = .done (.ok id') ∧ id'.eq id = .done true ∧
      ∀ i (hi : i < S), id'.size.toNat ≤ i → id'.bytes[i] = 0
  writes : ∀ s, IsHexText S s → ∃ id, fromStr S s = .done (.ok id) ∧
    id.display = .done s.toLower ∧ id.size.toNat = (asBytes s).length / 2
  agree : ∀ s t, IsHexText S s → (fromStr S s = fromStr S t ↔ s.toLower = t.toLower)
  agree_eq : ∀ s t id id', fromStr S s = .done (.ok id) → fromStr S t = .done (.ok id') →
    (id.eq id' = .done true ↔ s.toLower = t.toLower)

theorem textRoundTrips (hS : S ≤ 255) : TextRoundTrips S := by
  constructor
  · intro id hsize
    exact ⟨_, id.normal, display_eq hsize, fromStr_hexText hsize, normal_eq hsize,
      fun i hi hpast => getElem_normal hsize hi hpast⟩
  · intro s hs
    obtain ⟨id, hread, -, -, hdisplay, hlen⟩ := exists_fromStr hS hs
    exact ⟨id, hread, hdisplay, hlen⟩
  · exact fun s t hs => fromStr_eq_iff hS hs
  · exact fun s t id id' hid hid' => eq_iff_toLower_eq hS hid hid'

theorem textRoundTrips_peerId : TextRoundTrips 32 := textRoundTrips (by decide)

end SfRs.PeerId
