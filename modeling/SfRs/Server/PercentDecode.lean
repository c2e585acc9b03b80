import SfRs.Server.ExtractPeerId
/-!
# What percent decoding accepts

The loop of `percent_decode` moves an index by one byte or by three, and looks ahead two
bytes.  It stays inside its input, and the texts that it accepts are those made of literal
bytes and escapes.
-/

namespace SfRs.Server

open SfRs.Lib SfRs.PeerId

/-- The loop of `percent_decode` with its index, from `i` on. -/
def percentDecodeFrom (input : List UInt8) (i : Nat) (out : List UInt8) :
    Outcome (Option (List UInt8)) :=
  if _hi : i < input.length then
    (Outcome.index input i).bind fun b =>
      if b = 37 then
        if i + 2 ≥ input.length then .done none
        else
          (Outcome.index input (i + 1)).bind fun h =>
            match fromHex h with
            | none => .done none
            | some hi =>
                (Outcome.index input (i + 2)).bind fun l =>
                  match fromHex l with
                  | none => .done none
                  | some lo => percentDecodeFrom input (i + 3) (out ++ [(hi <<< 4) ||| lo])
      else percentDecodeFrom input (i + 1) (out ++ [b])
  else .done (some out)
termination_by input.length - i

/-- `percent_decode`, whose indexing may panic. -/
def percentDecodeIndexed (input : List UInt8) : Outcome (Option String) :=
  (percentDecodeFrom input 0 []).bind fun out =>
    .done (out.bind fun out => String.fromUTF8? ⟨out.toArray⟩)

/-! ## The accepted texts -/

/-- The byte is a digit of this value, in either case. -/
def IsHexOf (v : Nat) (b : UInt8) : Prop :=
  (v < 10 ∧ b.toNat = 48 + v) ∨
    (10 ≤ v ∧ v < 16 ∧ (b.toNat = 87 + v ∨ b.toNat = 55 + v))

/-- The input is made of literal bytes and of escapes, which stand for the given bytes. -/
inductive Splits : List UInt8 → List UInt8 → Prop
  | nil : Splits [] []
  | literal {b input out} : b ≠ 37 → Splits input out → Splits (b :: input) (b :: out)
  | escape {h l hi lo input out} : IsHexOf hi h → IsHexOf lo l → Splits input out →
      Splits (37 :: h :: l :: input) (UInt8.ofNat (16 * hi + lo) :: out)

/-- How one byte is written: as it is, or escaped with digits of these cases. -/
structure ByteChoice where
  escape : Bool
  upperHigh : Bool
  upperLow : Bool

def hexByte (upper : Bool) (v : Nat) : UInt8 :=
  (if upper then (Nat.digitChar v).toUpper else Nat.digitChar v).toUInt8

/-- A percent sign is always escaped. -/
def encodeByte (c : ByteChoice) (b : UInt8) : List UInt8 :=
  if c.escape ∨ b = 37 then
    [37, hexByte c.upperHigh (b.toNat / 16), hexByte c.upperLow (b.toNat % 16)]
  else [b]

/-- The encoding of bytes by a choice for each, from position `i` on. -/
def percentEncode (choice : Nat → ByteChoice) : Nat → List UInt8 → List UInt8
  | _, [] => []
  | i, b :: bytes => encodeByte (choice i) b ++ percentEncode choice (i + 1) bytes

/-! ## The loop -/

theorem index_of_drop {input rest : List UInt8} {i : Nat} {b : UInt8}
    (h : input.drop i = b :: rest) : Outcome.index input i = .done b := by
  have hget : input[i]? = some b := by
    have hhead := congrArg List.head? h
    rwa [List.head?_drop, List.head?_cons] at hhead
  simp only [Outcome.index, hget]

theorem drop_succ_of_drop {input rest : List UInt8} {i : Nat} {b : UInt8}
    (h : input.drop i = b :: rest) : input.drop (i + 1) = rest := by
  rw [← List.drop_drop, h, List.drop_succ_cons, List.drop_zero]

/-- No two bytes are left. -/
theorem length_lt_two {rest : List UInt8}
    (h : ∀ a b rest', 37 = (37 : UInt8) → rest = a :: b :: rest' → False) : rest.length < 2 := by
  rcases rest with _ | ⟨a, _ | ⟨b, rest⟩⟩
  · exact Nat.zero_lt_two
  · exact Nat.one_lt_two
  · exact (h a b rest rfl rfl).elim

theorem percentDecodeLoop_short {rest : List UInt8} (h : rest.length < 2) :
    percentDecodeLoop (37 :: rest) = none := by
  rcases rest with _ | ⟨b, _ | ⟨b', rest⟩⟩
  · rfl
  · rfl
  · simp only [List.length_cons] at h
    omega

/-- The byte that an escape with these digits stands for. -/
def escapedByte (h l : UInt8) : Option UInt8 :=
  (fromHex h).bind fun hi => (fromHex l).map fun lo => (hi <<< 4) ||| lo

theorem percentDecodeLoop_escape (h l : UInt8) (rest : List UInt8) :
    percentDecodeLoop (37 :: h :: l :: rest) =
      (escapedByte h l).bind fun v => (percentDecodeLoop rest).map (v :: ·) := by
  rw [percentDecodeLoop, escapedByte]
  rcases fromHex h with _ | hi
  · rfl
  · rcases fromHex l with _ | lo
    · rfl
    · rcases percentDecodeLoop rest with _ | out <;> rfl

/-! One turn of the loop, by what is left of the input. -/

variable {input rest : List UInt8} {i : Nat}

theorem length_of_drop {b : UInt8} (h : input.drop i = b :: rest) :
    input.length = i + 1 + rest.length := by
  have hlen := congrArg List.length h
  rw [List.length_drop, List.length_cons] at hlen
  omega

theorem percentDecodeFrom_end (h : input.drop i = []) (out : List UInt8) :
    percentDecodeFrom input i out = .done (some out) := by
  have hend : ¬ i < input.length := Nat.not_lt.mpr (List.drop_eq_nil_iff.mp h)
  rw [percentDecodeFrom, dif_neg hend]

theorem percentDecodeFrom_literal {b : UInt8} (h : input.drop i = b :: rest) (hb : b ≠ 37)
    (out : List UInt8) :
    percentDecodeFrom input i out = percentDecodeFrom input (i + 1) (out ++ [b]) := by
  have hi : i < input.length := by
    have hlen := length_of_drop h
    omega
  rw [percentDecodeFrom, dif_pos hi, index_of_drop h, Outcome.done_bind, if_neg hb]

theorem percentDecodeFrom_short (h : input.drop i = 37 :: rest) (hrest : rest.length < 2)
    (out : List UInt8) : percentDecodeFrom input i out = .done none := by
  have hlen := length_of_drop h
  have hi : i < input.length := by omega
  have hshort : i + 2 ≥ input.length := by omega
  rw [percentDecodeFrom, dif_pos hi, index_of_drop h, Outcome.done_bind, if_pos rfl,
    if_pos hshort]

theorem percentDecodeFrom_escape {a b : UInt8} (h : input.drop i = 37 :: a :: b :: rest)
    (out : List UInt8) :
    percentDecodeFrom input i out =
      match escapedByte a b with
      | none => .done none
      | some v => percentDecodeFrom input (i + 3) (out ++ [v]) := by
  have hlen := length_of_drop h
  rw [List.length_cons, List.length_cons] at hlen
  have hi : i < input.length := by omega
  have hmore : ¬ i + 2 ≥ input.length := by omega
  have htail := drop_succ_of_drop h
  rw [percentDecodeFrom, dif_pos hi, index_of_drop h, Outcome.done_bind, if_pos rfl,
    if_neg hmore, index_of_drop htail, Outcome.done_bind, escapedByte]
  rcases fromHex a with _ | hi
  · rfl
  simp only [index_of_drop (drop_succ_of_drop htail), Outcome.done_bind]
  rcases fromHex b with _ | lo <;> rfl

/-- The loop at index `i` decodes the bytes from there on, and reads none past the end. -/
theorem percentDecodeFrom_eq (input : List UInt8) (i : Nat) (out : List UInt8) :
    percentDecodeFrom input i out =
      .done ((percentDecodeLoop (input.drop i)).map (out ++ ·)) := by
  induction hdrop : input.drop i using percentDecodeLoop.induct generalizing i out with
  | case1 =>
      rw [percentDecodeFrom_end hdrop]
      simp [percentDecodeLoop]
  | case2 h l rest ih =>
      have hrest : input.drop (i + 3) = rest :=
        drop_succ_of_drop (drop_succ_of_drop (drop_succ_of_drop hdrop))
      rw [percentDecodeFrom_escape hdrop, percentDecodeLoop_escape]
      rcases escapedByte h l with _ | v
      · rfl
      · simp [ih _ _ hrest, Function.comp_def]
  | case3 rest hshape =>
      have hshort := length_lt_two hshape
      rw [percentDecodeFrom_short hdrop hshort, percentDecodeLoop_short hshort, Option.map_none]
  | case4 b rest _ hb ih =>
      rw [percentDecodeFrom_literal hdrop hb, ih _ _ (drop_succ_of_drop hdrop),
        percentDecodeLoop_literal hb]
      simp [Function.comp_def]

theorem percentDecodeIndexed_eq (input : List UInt8) :
    percentDecodeIndexed input = .done (percentDecode input) := by
  have hloop := percentDecodeFrom_eq input 0 []
  rw [List.drop_zero] at hloop
  rw [percentDecodeIndexed, hloop, Outcome.done_bind, percentDecode]
  simp

/-! ## Splitting -/

instance (v : Nat) (b : UInt8) : Decidable (IsHexOf v b) :=
  inferInstanceAs (Decidable (_ ∨ _))

theorem isHexOf_fin (n : Fin 256) :
    ∀ v ∈ fromHex (UInt8.ofNat n), IsHexOf v.toNat (UInt8.ofNat n) := by
  decide +revert +kernel

theorem isHexOf_of_fromHex {b v : UInt8} (h : fromHex b = some v) : IsHexOf v.toNat b := by
  have hfin := isHexOf_fin ⟨b.toNat, b.toNat_lt⟩ v
  rw [UInt8.ofNat_toNat] at hfin
  exact hfin h

theorem fromHex_digits_fin (v : Fin 16) :
    (v.val < 10 → fromHex (UInt8.ofNat (48 + v)) = some (UInt8.ofNat v)) ∧
      (10 ≤ v.val → fromHex (UInt8.ofNat (87 + v)) = some (UInt8.ofNat v) ∧
        fromHex (UInt8.ofNat (55 + v)) = some (UInt8.ofNat v)) := by
  decide +revert +kernel

theorem fromHex_of_isHexOf {v : Nat} {b : UInt8} (h : IsHexOf v b) :
    v < 16 ∧ fromHex b = some (UInt8.ofNat v) := by
  have hb : b = UInt8.ofNat b.toNat := UInt8.ofNat_toNat.symm
  rcases h with ⟨hlt, hbyte⟩ | ⟨hle, hlt, hbyte | hbyte⟩
  · rw [hb, hbyte]
    exact ⟨by omega, (fromHex_digits_fin ⟨v, by omega⟩).1 hlt⟩
  · rw [hb, hbyte]
    exact ⟨hlt, ((fromHex_digits_fin ⟨v, hlt⟩).2 hle).1⟩
  · rw [hb, hbyte]
    exact ⟨hlt, ((fromHex_digits_fin ⟨v, hlt⟩).2 hle).2⟩

theorem join_hex_fin (hi lo : Fin 16) :
    (UInt8.ofNat hi <<< 4) ||| UInt8.ofNat lo = UInt8.ofNat (16 * hi + lo) := by
  decide +revert +kernel

theorem join_hex {hi lo : Nat} (hhi : hi < 16) (hlo : lo < 16) :
    (UInt8.ofNat hi <<< 4) ||| UInt8.ofNat lo = UInt8.ofNat (16 * hi + lo) :=
  join_hex_fin ⟨hi, hhi⟩ ⟨lo, hlo⟩

theorem escapedByte_of_isHexOf {hi lo : Nat} {h l : UInt8} (hh : IsHexOf hi h)
    (hl : IsHexOf lo l) : escapedByte h l = some (UInt8.ofNat (16 * hi + lo)) := by
  obtain ⟨hhi, hhigh⟩ := fromHex_of_isHexOf hh
  obtain ⟨hlo, hlow⟩ := fromHex_of_isHexOf hl
  rw [escapedByte, hhigh, hlow, Option.bind_some, Option.map_some, join_hex hhi hlo]

theorem isHexOf_of_escapedByte {h l v : UInt8} (hv : escapedByte h l = some v) :
    ∃ hi lo, IsHexOf hi h ∧ IsHexOf lo l ∧ v = UInt8.ofNat (16 * hi + lo) := by
  obtain ⟨high, hhigh, hjoined⟩ := Option.bind_eq_some_iff.mp hv
  obtain ⟨low, hlow, rfl⟩ := Option.map_eq_some_iff.mp hjoined
  have hh := isHexOf_of_fromHex hhigh
  have hl := isHexOf_of_fromHex hlow
  have hjoin := join_hex (fromHex_of_isHexOf hh).1 (fromHex_of_isHexOf hl).1
  rw [UInt8.ofNat_toNat, UInt8.ofNat_toNat] at hjoin
  exact ⟨high.toNat, low.toNat, hh, hl, hjoin⟩

theorem Splits.decode {input out : List UInt8} (h : Splits input out) :
    percentDecodeLoop input = some out := by
  induction h with
  | nil => rfl
  | literal hb _ ih => rw [percentDecodeLoop_literal hb, ih, Option.map_some]
  | escape hh hl _ ih =>
      rw [percentDecodeLoop_escape, escapedByte_of_isHexOf hh hl, ih, Option.bind_some,
        Option.map_some]

/-- What the loop accepts splits into literals and escapes. -/
theorem splits_of_decode {input out : List UInt8} (h : percentDecodeLoop input = some out) :
    Splits input out := by
  induction input using percentDecodeLoop.induct generalizing out with
  | case1 =>
      cases h
      exact .nil
  | case2 hi lo rest ih =>
      rw [percentDecodeLoop_escape] at h
      obtain ⟨v, hv, h⟩ := Option.bind_eq_some_iff.mp h
      obtain ⟨tail, htail, rfl⟩ := Option.map_eq_some_iff.mp h
      obtain ⟨high, low, hh, hl, rfl⟩ := isHexOf_of_escapedByte hv
      exact .escape hh hl (ih htail)
  | case3 rest hshape =>
      rw [percentDecodeLoop_short (length_lt_two hshape)] at h
      cases h
  | case4 b rest _ hb ih =>
      rw [percentDecodeLoop_literal hb] at h
      obtain ⟨tail, htail, rfl⟩ := Option.map_eq_some_iff.mp h
      exact .literal hb (ih htail)

/-! ## The text -/

theorem fromUTF8?_eq_some_iff {out : List UInt8} {t : String} :
    String.fromUTF8? ⟨out.toArray⟩ = some t ↔ out = asBytes t := by
  constructor
  · intro h
    rw [String.fromUTF8?] at h
    split_ifs at h with hvalid
    cases h
    rfl
  · rintro rfl
    exact fromUTF8?_toUTF8 t

theorem percentDecode_eq_some_iff {input : List UInt8} {t : String} :
    percentDecode input = some t ↔ Splits input (asBytes t) := by
  rw [percentDecode, Option.bind_eq_some_iff]
  constructor
  · rintro ⟨out, hout, hutf8⟩
    rw [← fromUTF8?_eq_some_iff.mp hutf8]
    exact splits_of_decode hout
  · intro h
    exact ⟨asBytes t, h.decode, fromUTF8?_eq_some_iff.mpr rfl⟩

theorem hexByte_fin (upper : Bool) (v : Fin 16) : IsHexOf v (hexByte upper v) := by
  decide +revert +kernel

/-- Every encoding splits into the bytes that were encoded. -/
theorem splits_percentEncode (choice : Nat → ByteChoice) (i : Nat) (bytes : List UInt8) :
    Splits (percentEncode choice i bytes) bytes := by
  induction bytes generalizing i with
  | nil => exact .nil
  | cons b bytes ih =>
      have hlt : b.toNat < 256 := b.toNat_lt
      rw [percentEncode, encodeByte]
      split_ifs with hescape
      · have hvalue : UInt8.ofNat (16 * (b.toNat / 16) + b.toNat % 16) = b := by
          rw [Nat.div_add_mod, UInt8.ofNat_toNat]
        have hsplits := Splits.escape
          (hexByte_fin (choice i).upperHigh ⟨b.toNat / 16, by omega⟩)
          (hexByte_fin (choice i).upperLow ⟨b.toNat % 16, by omega⟩) (ih (i + 1))
        rwa [hvalue] at hsplits
      · exact .literal (fun h => hescape (.inr h)) (ih (i + 1))

/-- `percent_decode` returns, accepts exactly the texts that split into literal bytes and
escapes of valid UTF-8, and undoes every encoding. -/
theorem percentDecode_exact :
    (∀ input, ∃ res, percentDecodeIndexed input = .done res ∧
        ∀ t, res = some t ↔ Splits input (asBytes t)) ∧
      ∀ (t : String) (choice : Nat → ByteChoice),
        percentDecodeIndexed (percentEncode choice 0 (asBytes t)) = .done (some t) := by
  constructor
  · exact fun input =>
      ⟨percentDecode input, percentDecodeIndexed_eq input, fun t => percentDecode_eq_some_iff⟩
  · intro t choice
    rw [percentDecodeIndexed_eq, percentDecode_eq_some_iff.mpr (splits_percentEncode choice 0 _)]

end SfRs.Server
