import SfRs.PeerId.Basic
/-!
# The grammar of peer identifiers in text form

The loop of `from_str` is followed chunk by chunk in its three cases: the input
ends after an even number of digits, a byte is not a digit, or the input ends
inside a chunk.  The third case is the only one that does not return.
-/

namespace SfRs.PeerId

open SfRs.Lib

/-- The ASCII bytes `0-9`, `a-f` and `A-F`. -/
def IsHexDigit (b : UInt8) : Prop :=
  (48 ≤ b.toNat ∧ b.toNat ≤ 57) ∨ (97 ≤ b.toNat ∧ b.toNat ≤ 102) ∨
    (65 ≤ b.toNat ∧ b.toNat ≤ 70)

instance (b : UInt8) : Decidable (IsHexDigit b) :=
  inferInstanceAs (Decidable (_ ∨ _ ∨ _))

theorem toNat_asChar (b : UInt8) : (asChar b).toNat = b.toNat := by
  have hb : b.toNat < 256 := b.toNat_lt
  have hvalid : b.toNat.isValidChar := Or.inl (by omega)
  rw [asChar, Char.ofNat, dif_pos hvalid]
  rfl

theorem le_asChar_iff (c : Char) (b : UInt8) : c ≤ asChar b ↔ c.toNat ≤ b.toNat := by
  rw [← toNat_asChar b]
  exact Iff.rfl

theorem asChar_le_iff (b : UInt8) (c : Char) : asChar b ≤ c ↔ b.toNat ≤ c.toNat := by
  rw [← toNat_asChar b]
  exact Iff.rfl

/-- `hex_char_to_value` on a byte, with its three ranges as byte ranges. -/
theorem hexCharToValue_asChar (b : UInt8) (i : Nat) :
    hexCharToValue (asChar b) i =
      if 48 ≤ b.toNat ∧ b.toNat ≤ 57 then .ok ((asChar b).toUInt8 - '0'.toUInt8)
      else if 97 ≤ b.toNat ∧ b.toNat ≤ 102 then
        .ok ((asChar b).toUInt8 - 'a'.toUInt8 + 10)
      else if 65 ≤ b.toNat ∧ b.toNat ≤ 70 then
        .ok ((asChar b).toUInt8 - 'A'.toUInt8 + 10)
      else .error (.invalidHexEncoding (asChar b) i) := by
  unfold hexCharToValue
  simp only [le_asChar_iff, asChar_le_iff]
  rfl

theorem exists_hexCharToValue {b : UInt8} (h : IsHexDigit b) (i : Nat) :
    ∃ v, hexCharToValue (asChar b) i = .ok v := by
  rw [hexCharToValue_asChar]
  split_ifs with hdigit hlower hupper
  · exact ⟨_, rfl⟩
  · exact ⟨_, rfl⟩
  · exact ⟨_, rfl⟩
  · exact absurd h (by simp [IsHexDigit, hdigit, hlower, hupper])

theorem hexCharToValue_of_not_isHexDigit {b : UInt8} (h : ¬ IsHexDigit b) (i : Nat) :
    hexCharToValue (asChar b) i = .error (.invalidHexEncoding (asChar b) i) := by
  simp only [IsHexDigit, not_or] at h
  obtain ⟨hdigit, hlower, hupper⟩ := h
  rw [hexCharToValue_asChar, if_neg hdigit, if_neg hlower, if_neg hupper]

/-! ## The chunk loop -/

variable {S : Nat}

/-- One full chunk of two digits. -/
theorem fromStrLoop_pair {a b : UInt8} (ha : IsHexDigit a) (hb : IsHexDigit b)
    (rest : List UInt8) {i : Nat} (hi : i < S) (bytes : Vector UInt8 S) :
    ∃ bytes' : Vector UInt8 S,
      fromStrLoop i (chunksTwo (a :: b :: rest)) bytes =
        fromStrLoop (i + 1) (chunksTwo rest) bytes' := by
  obtain ⟨high, hhigh⟩ := exists_hexCharToValue ha (i * 2)
  obtain ⟨low, hlow⟩ := exists_hexCharToValue hb (i * 2 + 1)
  refine ⟨bytes.set i ((high <<< 4) ||| low), ?_⟩
  simp [chunksTwo, fromStrLoop, Outcome.index, hhigh, hlow, Outcome.store_of_lt hi]

theorem fromStrLoop_even (b : List UInt8) (hhex : ∀ x ∈ b, IsHexDigit x)
    (heven : b.length % 2 = 0) (i : Nat) (hfit : 2 * i + b.length ≤ 2 * S)
    (bytes : Vector UInt8 S) :
    ∃ bytes' : Vector UInt8 S,
      fromStrLoop i (chunksTwo b) bytes = .done (.ok bytes') := by
  induction b using chunksTwo.induct generalizing i bytes with
  | case1 => exact ⟨bytes, rfl⟩
  | case2 a => simp at heven
  | case3 a b rest ih =>
      simp only [List.length_cons] at heven hfit
      obtain ⟨bytes₁, hpair⟩ := fromStrLoop_pair
        (hhex a (by simp)) (hhex b (by simp)) rest (show i < S by omega) bytes
      rw [hpair]
      exact ih (fun x hx => hhex x (by simp [hx])) (by omega) (i + 1) (by omega) bytes₁

theorem fromStrLoop_odd (b : List UInt8) (hhex : ∀ x ∈ b, IsHexDigit x)
    (hodd : b.length % 2 = 1) (i : Nat) (hfit : 2 * i + b.length ≤ 2 * S)
    (bytes : Vector UInt8 S) :
    fromStrLoop i (chunksTwo b) bytes = .panicked := by
  induction b using chunksTwo.induct generalizing i bytes with
  | case1 => simp at hodd
  | case2 a =>
      obtain ⟨high, hhigh⟩ := exists_hexCharToValue (hhex a (by simp)) (i * 2)
      simp [chunksTwo, fromStrLoop, Outcome.index, hhigh]
  | case3 a b rest ih =>
      simp only [List.length_cons] at hodd hfit
      obtain ⟨bytes₁, hpair⟩ := fromStrLoop_pair
        (hhex a (by simp)) (hhex b (by simp)) rest (show i < S by omega) bytes
      rw [hpair]
      exact ih (fun x hx => hhex x (by simp [hx])) (by omega) (i + 1) (by omega) bytes₁

/-- The loop stops at the first byte that is not a digit, wherever it stands in its
chunk and whatever follows it. -/
theorem fromStrLoop_bad (b : List UInt8) {digits : List UInt8} {c : UInt8}
    {rest : List UInt8} (hsplit : b = digits ++ c :: rest)
    (hhex : ∀ x ∈ digits, IsHexDigit x) (hbad : ¬ IsHexDigit c) (i : Nat)
    (hfit : 2 * i + b.length ≤ 2 * S) (bytes : Vector UInt8 S) :
    fromStrLoop i (chunksTwo b) bytes =
      .done (.error (.invalidHexEncoding (asChar c) (2 * i + digits.length))) := by
  induction b using chunksTwo.induct generalizing i bytes digits with
  | case1 => simp at hsplit
  | case2 a =>
      rcases digits with _ | ⟨d, digits⟩
      · obtain ⟨rfl, -⟩ : a = c ∧ [] = rest := by simpa using hsplit
        simp [chunksTwo, fromStrLoop, Outcome.index,
          hexCharToValue_of_not_isHexDigit hbad, Nat.mul_comm]
      · simp at hsplit
  | case3 a b rest' ih =>
      simp only [List.length_cons] at hfit
      rcases digits with _ | ⟨d, _ | ⟨d', digits⟩⟩
      · obtain ⟨rfl, -⟩ : a = c ∧ b :: rest' = rest := by simpa using hsplit
        simp [chunksTwo, fromStrLoop, Outcome.index,
          hexCharToValue_of_not_isHexDigit hbad, Nat.mul_comm]
      · obtain ⟨rfl, rfl, -⟩ : a = d ∧ b = c ∧ rest' = rest := by simpa using hsplit
        obtain ⟨high, hhigh⟩ := exists_hexCharToValue (hhex a (by simp)) (i * 2)
        simp [chunksTwo, fromStrLoop, Outcome.index, hhigh,
          hexCharToValue_of_not_isHexDigit hbad, Nat.mul_comm]
      · obtain ⟨rfl, rfl, hrest⟩ : a = d ∧ b = d' ∧ rest' = digits ++ c :: rest := by
          simpa using hsplit
        obtain ⟨bytes₁, hpair⟩ := fromStrLoop_pair
          (hhex a (by simp)) (hhex b (by simp)) rest' (show i < S by omega) bytes
        rw [hpair, ih hrest (fun x hx => hhex x (by simp [hx])) (i + 1) (by omega) bytes₁]
        have hindex : 2 * (i + 1) + digits.length =
            2 * i + (a :: b :: digits).length := by
          simp only [List.length_cons]
          omega
        rw [hindex]

/-! ## The parser -/

theorem fromStr_tooLong {s : String} (hlong : 2 * S < (asBytes s).length) :
    fromStr S s = .done (.error (.invalidLength (2 * S) (asBytes s).length)) := by
  simp [fromStr, hlong]

theorem fromStr_bad {s : String} {digits : List UInt8} {c : UInt8} {rest : List UInt8}
    (hfit : (asBytes s).length ≤ 2 * S) (hsplit : asBytes s = digits ++ c :: rest)
    (hhex : ∀ x ∈ digits, IsHexDigit x) (hbad : ¬ IsHexDigit c) :
    fromStr S s = .done (.error (.invalidHexEncoding (asChar c) digits.length)) := by
  have hloop := fromStrLoop_bad (asBytes s) hsplit hhex hbad 0 (by omega)
    (Vector.replicate S 0)
  simp [fromStr, Nat.not_lt.mpr hfit, hloop]

theorem fromStr_even {s : String} (hfit : (asBytes s).length ≤ 2 * S)
    (hhex : ∀ x ∈ asBytes s, IsHexDigit x) (heven : (asBytes s).length % 2 = 0) :
    ∃ id, fromStr S s = .done (.ok id) := by
  obtain ⟨bytes, hloop⟩ := fromStrLoop_even (asBytes s) hhex heven 0 (by omega)
    (Vector.replicate S 0)
  exact ⟨_, by simp only [fromStr, Nat.not_lt.mpr hfit, if_false, hloop]; rfl⟩

theorem fromStr_odd {s : String} (hfit : (asBytes s).length ≤ 2 * S)
    (hhex : ∀ x ∈ asBytes s, IsHexDigit x) (hodd : (asBytes s).length % 2 = 1) :
    fromStr S s = .panicked := by
  have hloop := fromStrLoop_odd (asBytes s) hhex hodd 0 (by omega)
    (Vector.replicate S 0)
  simp [fromStr, Nat.not_lt.mpr hfit, hloop]

/-- Either every byte is a digit or there is a first byte that is not. -/
theorem forall_isHexDigit_or_first_bad (b : List UInt8) :
    (∀ x ∈ b, IsHexDigit x) ∨
      ∃ digits c rest, b = digits ++ c :: rest ∧ (∀ x ∈ digits, IsHexDigit x) ∧
        ¬ IsHexDigit c := by
  induction b with
  | nil => simp
  | cons a b ih =>
      by_cases ha : IsHexDigit a
      · rcases ih with hall | ⟨digits, c, rest, rfl, hhex, hbad⟩
        · exact Or.inl (by simpa [ha] using hall)
        · exact Or.inr ⟨a :: digits, c, rest, rfl, by simpa [ha] using hhex, hbad⟩
      · exact Or.inr ⟨[], a, b, rfl, by simp, ha⟩

/-- What the text form promises for the string `s` at capacity `S`. -/
structure ParsesGrammar (S : Nat) (s : String) : Prop where
  returns : (fromStr S s).Returns
  ok_iff : (∃ id, fromStr S s = .done (.ok id)) ↔
    (asBytes s).length % 2 = 0 ∧ (asBytes s).length ≤ 2 * S ∧
      ∀ x ∈ asBytes s, IsHexDigit x
  tooLong : 2 * S < (asBytes s).length →
    fromStr S s = .done (.error (.invalidLength (2 * S) (asBytes s).length))
  firstBad : (asBytes s).length ≤ 2 * S → ∀ digits c rest,
    asBytes s = digits ++ c :: rest → (∀ x ∈ digits, IsHexDigit x) →
      ¬ IsHexDigit c →
        fromStr S s = .done (.error (.invalidHexEncoding (asChar c) digits.length))

/-- The parser keeps its grammar on every string except those it has room for that
consist of an odd number of digits. -/
theorem parsesGrammar_iff (S : Nat) (s : String) :
    ParsesGrammar S s ↔
      ¬ ((asBytes s).length ≤ 2 * S ∧ (asBytes s).length % 2 = 1 ∧
        ∀ x ∈ asBytes s, IsHexDigit x) := by
  constructor
  · rintro hgrammar ⟨hfit, hodd, hhex⟩
    exact hgrammar.returns (fromStr_odd hfit hhex hodd)
  · intro hnot
    by_cases hlong : 2 * S < (asBytes s).length
    · have hres := fromStr_tooLong hlong
      refine ⟨by simp [hres], ?_, fun _ => hres, fun hfit => by omega⟩
      have hfit : ¬ (asBytes s).length ≤ 2 * S := by omega
      simp [hres, hfit]
    · have hfit : (asBytes s).length ≤ 2 * S := by omega
      rcases forall_isHexDigit_or_first_bad (asBytes s) with
        hhex | ⟨digits, c, rest, hsplit, hhex, hbad⟩
      · have heven : (asBytes s).length % 2 = 0 := by
          have hodd : ¬ (asBytes s).length % 2 = 1 := fun hodd => hnot ⟨hfit, hodd, hhex⟩
          omega
        obtain ⟨id, hres⟩ := fromStr_even hfit hhex heven
        refine ⟨by simp [hres], ?_, fun h => absurd h hlong, ?_⟩
        · exact ⟨fun _ => ⟨heven, hfit, hhex⟩, fun _ => ⟨id, hres⟩⟩
        · intro _ digits c rest hsplit _ hbad
          exact absurd (hhex c (by simp [hsplit])) hbad
      · have hres := fromStr_bad hfit hsplit hhex hbad
        refine ⟨by simp [hres], ?_, fun h => absurd h hlong,
          fun hfit _ _ _ => fromStr_bad hfit⟩
        constructor
        · rintro ⟨id, hid⟩
          simp [hres] at hid
        · rintro ⟨-, -, hall⟩
          exact absurd (hall c (by simp [hsplit])) hbad

/-- `PeerID::from_str("0")` indexes past its one-byte chunk. -/
theorem not_parsesGrammar_single_digit : ¬ ParsesGrammar 32 "0" := by
  intro hgrammar
  exact hgrammar.returns (by decide)

end SfRs.PeerId
