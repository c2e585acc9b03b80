import Mathlib.Data.Nat.ModEq
import Mathlib.Data.Set.Card
import SfRs.PeerId.Text
/-!
# What the seed of a random peer identifier leaves in it

Each round of `random` writes the low digit of a 128-bit state and replaces the state by a
rotation of it, combined with a multiple.  The first two digits are the bits 0 to 3 and 123
to 126 of the seed.  Every other bit may be lost: a round may merge two states, and two
states that never merge may write the same digits.
-/

namespace SfRs.PeerId

open SfRs.Lib

/-- The state after one more round of `random`. -/
def nextSeed (seed : BitVec 128) : BitVec 128 := seed.rotateLeft 5 ^^^ seed * 31#128

/-- The state before round `k`. -/
def seedAfter (k : Nat) (seed : BitVec 128) : BitVec 128 := nextSeed^[k] seed

/-- The states write the digit `d` and have the successor `u`. -/
def statesInto (d : BitVec 4) (u : BitVec 128) : Set (BitVec 128) :=
  {s | s.setWidth 4 = d ∧ nextSeed s = u}

/-! ## One round -/

variable {s t : BitVec 128}

theorem getLsbD_rotateLeft_five (s : BitVec 128) {i : Nat} (hi : i < 128) :
    (s.rotateLeft 5).getLsbD i = if i < 5 then s.getLsbD (123 + i) else s.getLsbD (i - 5) := by
  rw [BitVec.getLsbD_rotateLeft]
  by_cases hlow : i < 5
  · simp [hlow]
  · simp [hlow, hi]

theorem setWidth_nextSeed {w : Nat} (hw : w ≤ 128) (s : BitVec 128) :
    (nextSeed s).setWidth w =
      (s.rotateLeft 5).setWidth w ^^^ s.setWidth w * (31#128).setWidth w := by
  rw [nextSeed, BitVec.setWidth_xor, BitVec.setWidth_mul _ _ hw]

/-- The low bits of the next state come from the top five bits and the low ones. -/
theorem setWidth_nextSeed_low {w : Nat} (hw : w ≤ 5) (s : BitVec 128) :
    (nextSeed s).setWidth w =
      s.extractLsb' 123 w ^^^ s.setWidth w * (31#128).setWidth w := by
  have hrotate : (s.rotateLeft 5).setWidth w = s.extractLsb' 123 w := by
    apply BitVec.eq_of_getLsbD_eq
    intro i hi
    rw [BitVec.getLsbD_setWidth, getLsbD_rotateLeft_five s (by omega), if_pos (by omega),
      BitVec.getLsbD_extractLsb']
  rw [setWidth_nextSeed (by omega), hrotate]

/-- Two states with one digit have next digits that agree as their bits 123 to 126 do. -/
theorem setWidth_nextSeed_eq_iff {w : Nat} (hw : w ≤ 5) (hlow : s.setWidth w = t.setWidth w) :
    (nextSeed s).setWidth w = (nextSeed t).setWidth w ↔
      s.extractLsb' 123 w = t.extractLsb' 123 w := by
  rw [setWidth_nextSeed_low hw, setWidth_nextSeed_low hw, hlow, BitVec.xor_left_inj]

/-! ## Two states with one successor -/

/-- The factor is odd. -/
theorem mul_cancel {w : Nat} {x y : BitVec w}
    (h : x * (31#128).setWidth w = y * (31#128).setWidth w) : x = y := by
  have hmod : x.toNat * 31 ≡ y.toNat * 31 [MOD 2 ^ w] := by
    have htoNat := congrArg BitVec.toNat h
    rw [BitVec.toNat_mul, BitVec.toNat_mul, BitVec.toNat_setWidth] at htoNat
    simpa [Nat.ModEq] using htoNat
  have hcoprime : Nat.gcd (2 ^ w) 31 = 1 := Nat.Coprime.pow_left w (by decide)
  have hcancel := Nat.ModEq.cancel_right_of_coprime hcoprime hmod
  apply BitVec.eq_of_toNat_eq
  rwa [Nat.ModEq, Nat.mod_eq_of_lt x.isLt, Nat.mod_eq_of_lt y.isLt] at hcancel

/-- The bits of a rotation below `w + 1` are the top five and the bits below `w - 4`. -/
theorem setWidth_rotateLeft_succ {w : Nat} (hw : w < 128)
    (htop : s.extractLsb' 123 5 = t.extractLsb' 123 5) (hlow : s.setWidth w = t.setWidth w) :
    (s.rotateLeft 5).setWidth (w + 1) = (t.rotateLeft 5).setWidth (w + 1) := by
  apply BitVec.eq_of_getLsbD_eq
  intro i hi
  rw [BitVec.getLsbD_setWidth, BitVec.getLsbD_setWidth, getLsbD_rotateLeft_five s (by omega),
    getLsbD_rotateLeft_five t (by omega)]
  by_cases hfive : i < 5
  · have hbit := congrArg (BitVec.getLsbD · i) htop
    simp only [BitVec.getLsbD_extractLsb', hfive, decide_true, Bool.true_and] at hbit
    rw [if_pos hfive, if_pos hfive, hbit]
  · have hbit := congrArg (BitVec.getLsbD · (i - 5)) hlow
    have hlt : i - 5 < w := by omega
    simp only [BitVec.getLsbD_setWidth, hlt, decide_true, Bool.true_and] at hbit
    rw [if_neg hfive, if_neg hfive, hbit]

/-- A state is known from its successor and its top five bits. -/
theorem eq_of_nextSeed_eq (hnext : nextSeed s = nextSeed t)
    (htop : s.extractLsb' 123 5 = t.extractLsb' 123 5) : s = t := by
  have hall : ∀ w ≤ 128, s.setWidth w = t.setWidth w := by
    intro w hw
    -- each round of this induction knows one more bit of the multiples
    induction w with
    | zero => exact BitVec.of_length_zero.trans BitVec.of_length_zero.symm
    | succ w ih =>
        have hrotate := setWidth_rotateLeft_succ (by omega) htop (ih (by omega))
        have hwidth := congrArg (BitVec.setWidth (w + 1)) hnext
        rw [setWidth_nextSeed hw, setWidth_nextSeed hw, hrotate, BitVec.xor_right_inj] at hwidth
        exact mul_cancel hwidth
  simpa using hall 128 (Nat.le_refl _)

theorem setWidth_five_eq (hlow : s.setWidth 4 = t.setWidth 4)
    (hbit : s.getLsbD 4 = t.getLsbD 4) : s.setWidth 5 = t.setWidth 5 := by
  rw [BitVec.setWidth_succ s, BitVec.setWidth_succ t, hbit, hlow]

/-- The states with one digit and one successor are told apart by bit 4. -/
theorem injOn_bit_four (d : BitVec 4) (u : BitVec 128) :
    Set.InjOn (fun s => s.getLsbD 4) (statesInto d u) := by
  rintro s ⟨hs, hsnext⟩ t ⟨ht, htnext⟩ hbit
  have hnext := hsnext.trans htnext.symm
  have hlow := setWidth_five_eq (hs.trans ht.symm) hbit
  refine eq_of_nextSeed_eq hnext ((setWidth_nextSeed_eq_iff (Nat.le_refl 5) hlow).mp ?_)
  rw [hnext]

/-! ## The digits -/

/-- The character that `random` pushes for its digit. -/
def nibbleChar (d : BitVec 4) : Char := hexChar (UInt8.ofBitVec (d.setWidth 8))

theorem nibbleChar_fin (i : Fin 16) :
    (nibbleChar (.ofFin i)).toLower = nibbleChar (.ofFin i) ∧
      ∀ j : Fin 16, nibbleChar (.ofFin i) = nibbleChar (.ofFin j) → i = j := by
  decide +revert +kernel

theorem toLower_nibbleChar (d : BitVec 4) : (nibbleChar d).toLower = nibbleChar d :=
  (nibbleChar_fin d.toFin).1

theorem nibbleChar_injective {d e : BitVec 4} (h : nibbleChar d = nibbleChar e) : d = e :=
  congrArg BitVec.ofFin ((nibbleChar_fin d.toFin).2 e.toFin h)

theorem setWidth_and_low (seed : BitVec 128) :
    (seed &&& 0xF#128).setWidth 8 = (seed.setWidth 4).setWidth 8 := by
  apply BitVec.eq_of_toNat_eq
  rw [BitVec.toNat_setWidth, BitVec.toNat_and, BitVec.toNat_setWidth, BitVec.toNat_setWidth]
  have hmask := Nat.and_two_pow_sub_one_eq_mod seed.toNat 4
  simp only [Nat.reducePow, Nat.reduceSub] at hmask
  simp [hmask]

theorem seedAfter_succ (k : Nat) (seed : BitVec 128) :
    seedAfter (k + 1) seed = nextSeed (seedAfter k seed) :=
  Function.iterate_succ_apply' nextSeed k seed

/-- Round `k` writes the low digit of the state before it. -/
theorem randomChars_eq (n : Nat) (seed : BitVec 128) :
    randomChars n seed =
      (List.range n).map fun k => nibbleChar ((seedAfter k seed).setWidth 4) := by
  induction n generalizing seed with
  | zero => rfl
  | succ n ih =>
      rw [randomChars, List.range_succ_eq_map, List.map_cons, List.map_map,
        setWidth_and_low]
      exact congrArg _ (ih (nextSeed seed))

/-- The digits are those of one lower-case text. -/
theorem toLower_randomChars (n : Nat) (seed : BitVec 128) :
    (String.ofList (randomChars n seed)).toLower = String.ofList (randomChars n seed) := by
  have hmap : (randomChars n seed).map Char.toLower = randomChars n seed := by
    simp [randomChars_eq, Function.comp_def, toLower_nibbleChar]
  rw [← String.ofList_toList (s := String.toLower _), toList_toLower, String.toList_ofList, hmap]

theorem randomChars_eq_iff {n : Nat} :
    randomChars n s = randomChars n t ↔
      ∀ k < n, (seedAfter k s).setWidth 4 = (seedAfter k t).setWidth 4 := by
  rw [randomChars_eq, randomChars_eq, List.map_inj_left]
  constructor
  · exact fun h k hk => nibbleChar_injective (h k (List.mem_range.mpr hk))
  · exact fun h k hk => congrArg nibbleChar (h k (List.mem_range.mp hk))

theorem isHexText_randomChars (seed : BitVec 128) :
    IsHexText 32 (String.ofList (randomChars 64 seed)) := by
  obtain ⟨hlen, hhex⟩ := asBytes_randomChars 64 seed
  exact ⟨by rw [hlen], by rw [hlen], hhex⟩

/-- Every seed has an identifier, and all of its bytes are in use. -/
theorem exists_random (seed : BitVec 128) :
    ∃ id, random 32 seed = .done (.ok id) ∧ id.size = 32 := by
  obtain ⟨id, hid, -, -, -, hsize⟩ := exists_fromStr (by decide) (isHexText_randomChars seed)
  rw [(asBytes_randomChars 64 seed).1] at hsize
  exact ⟨id, hid, UInt8.toNat.inj hsize⟩

/-! ## What the digits tell of the seed -/

theorem randomChars_succ_eq_iff {k : Nat} :
    randomChars (k + 1) s = randomChars (k + 1) t ↔
      randomChars k s = randomChars k t ∧
        (seedAfter k s).setWidth 4 = (seedAfter k t).setWidth 4 := by
  simp only [randomChars_eq_iff, Nat.lt_succ_iff_lt_or_eq]
  constructor
  · exact fun h => ⟨fun i hi => h i (.inl hi), h k (.inr rfl)⟩
  · rintro ⟨hlt, hlast⟩ i (hi | rfl)
    · exact hlt i hi
    · exact hlast

/-- The first two digits are eight bits of the seed. -/
theorem getLsbD_eq_of_digits (hdigit : s.setWidth 4 = t.setWidth 4)
    (hnext : (nextSeed s).setWidth 4 = (nextSeed t).setWidth 4) {i : Nat}
    (hi : i < 4 ∨ 123 ≤ i ∧ i < 127) : s.getLsbD i = t.getLsbD i := by
  rcases hi with hlow | ⟨hge, hlt⟩
  · simpa [hlow] using congrArg (BitVec.getLsbD · i) hdigit
  · have htop := (setWidth_nextSeed_eq_iff (by decide) hdigit).mp hnext
    have hsmall : i - 123 < 4 := by omega
    have hadd : 123 + (i - 123) = i := by omega
    simpa [hsmall, hadd] using congrArg (BitVec.getLsbD · (i - 123)) htop

/-- The seeds that write the characters in the first `k` rounds, and are in the state `u`
after them. -/
def seedsInto (k : Nat) (chars : List Char) (u : BitVec 128) : Set (BitVec 128) :=
  {s | randomChars k s = chars ∧ seedAfter k s = u}

/-- A round may lose one bit, which is bit 4 of the state before it. -/
theorem injOn_bits (k : Nat) (chars : List Char) (u : BitVec 128) :
    Set.InjOn (fun s (i : Fin k) => (seedAfter i s).getLsbD 4) (seedsInto k chars u) := by
  -- going back from the last state, each round is known from its digit and its bit
  induction k generalizing chars u with
  | zero =>
      rintro s ⟨-, hs⟩ t ⟨-, ht⟩ -
      exact hs.trans ht.symm
  | succ k ih =>
      rintro s ⟨hschars, hs⟩ t ⟨htchars, ht⟩ hbits
      obtain ⟨hchars, hdigit⟩ := randomChars_succ_eq_iff.mp (hschars.trans htchars.symm)
      rw [seedAfter_succ] at hs ht
      have hlast := congrFun hbits (Fin.last k)
      have hstate := injOn_bit_four _ u ⟨rfl, hs⟩ ⟨hdigit.symm, ht⟩ hlast
      refine ih _ _ ⟨rfl, hstate⟩ ⟨hchars.symm, rfl⟩ (funext fun i => ?_)
      exact congrFun hbits i.castSucc

theorem encard_seedsInto_le (k : Nat) (chars : List Char) (u : BitVec 128) :
    (seedsInto k chars u).encard ≤ 2 ^ k := by
  calc (seedsInto k chars u).encard
      = ((fun s (i : Fin k) => (seedAfter i s).getLsbD 4) '' seedsInto k chars u).encard :=
        (injOn_bits k chars u).encard_image.symm
    _ ≤ ENat.card (Fin k → Bool) := Set.encard_le_card
    _ = 2 ^ k := by
      rw [ENat.card_eq_coe_fintype_card, Fintype.card_fun, Fintype.card_bool, Fintype.card_fin]
      exact Nat.cast_pow 2 k

/-! ## The identifiers of two seeds -/

/-- The seeds have equal identifiers. -/
def SameIdentifier (s t : BitVec 128) : Prop :=
  ∃ id id', random 32 s = .done (.ok id) ∧ random 32 t = .done (.ok id') ∧
    id.eq id' = .done true

theorem eq_of_random_iff {id id' : FixedSizePeerID 32} (hid : random 32 s = .done (.ok id))
    (hid' : random 32 t = .done (.ok id')) :
    id.eq id' = .done true ↔ randomChars 64 s = randomChars 64 t := by
  rw [eq_iff_toLower_eq (by decide) hid hid', toLower_randomChars, toLower_randomChars,
    String.ofList_inj]

theorem sameIdentifier_iff : SameIdentifier s t ↔ randomChars 64 s = randomChars 64 t := by
  obtain ⟨id, hid, -⟩ := exists_random s
  obtain ⟨id', hid', -⟩ := exists_random t
  constructor
  · rintro ⟨id, id', hid, hid', heq⟩
    exact (eq_of_random_iff hid hid').mp heq
  · exact fun hchars => ⟨id, id', hid, hid', (eq_of_random_iff hid hid').mpr hchars⟩

/-- Pairs of seeds with equal identifiers.  The first three merge in one of the first two
rounds, and the last never does. -/
def collisions : List (BitVec 128 × BitVec 128) :=
  [(0x3e115d81ce47d93dd7c2703cb4a1dafd, 0xb9ce617a2dc867c638456f40c462d6ed),
    (0xc252d9609b17adedd2a98d6ee35ace88, 0x41b1165ea3274e0a4d97758f149dd298),
    (0x5af075e1f1576ced48b5495a780f47e5, 0xdaf9aad5d480d3b2fc6d2b4197b1bc05),
    (0x21901ea58cdc133b93b5841b8ffff411, 0xa1901ea58cdc133b93b5841b8ffff411)]

theorem sameIdentifier_of_mem {p : BitVec 128 × BitVec 128} (hp : p ∈ collisions) :
    SameIdentifier p.1 p.2 := by
  have hall : collisions.all (fun p => randomChars 64 p.1 = randomChars 64 p.2) = true := by
    decide +kernel
  have hchars := List.all_eq_true.mp hall p hp
  exact sameIdentifier_iff.mpr (of_decide_eq_true hchars)

/-- Every bit that the first two digits do not show differs in one of the pairs. -/
theorem exists_collision {i : Nat} (hi : i < 128) :
    (i < 4 ∨ 123 ≤ i ∧ i < 127) ∨ ∃ p ∈ collisions, p.1.getLsbD i ≠ p.2.getLsbD i := by
  decide +revert +kernel

/-- Every seed has an identifier of full size.  It shows the bits 0 to 3 and 123 to 126 of
the seed and no other, and the rounds lose one bit each at most: no more than `2 ^ k` seeds
have the same first `k` digits and the same state after them. -/
theorem random_identifiers :
    (∀ s, ∃ id, random 32 s = .done (.ok id) ∧ id.size = 32) ∧
    (∀ i < 128, (∀ s t, SameIdentifier s t → s.getLsbD i = t.getLsbD i) ↔
      i < 4 ∨ 123 ≤ i ∧ i < 127) ∧
    ∀ k chars u, (seedsInto k chars u).encard ≤ 2 ^ k := by
  refine ⟨exists_random, fun i hi => ⟨fun hall => ?_, fun hbit s t hsame => ?_⟩,
    encard_seedsInto_le⟩
  · refine (exists_collision hi).resolve_right ?_
    rintro ⟨p, hp, hne⟩
    exact hne (hall _ _ (sameIdentifier_of_mem hp))
  · have hdigits := randomChars_eq_iff.mp (sameIdentifier_iff.mp hsame)
    exact getLsbD_eq_of_digits (hdigits 0 (by decide)) (hdigits 1 (by decide)) hbit

/-- Different seeds may have one identifier, also when their states never merge. -/
theorem not_injective_random :
    (¬ ∀ s t id id', s ≠ t → random 32 s = .done (.ok id) → random 32 t = .done (.ok id') →
      id.eq id' = .done false) ∧
    ¬ ∀ s t id id', (∀ k ≤ 64, seedAfter k s ≠ seedAfter k t) →
      random 32 s = .done (.ok id) → random 32 t = .done (.ok id') →
        id.eq id' = .done false := by
  constructor
  · intro h
    obtain ⟨id, id', hid, hid', hsame⟩ := sameIdentifier_of_mem (p := collisions[0]) (by simp)
    rw [h _ _ id id' (by decide +kernel) hid hid'] at hsame
    cases hsame
  · intro h
    obtain ⟨id, id', hid, hid', hsame⟩ := sameIdentifier_of_mem (p := collisions[3]) (by simp)
    rw [h _ _ id id' (by decide +kernel) hid hid'] at hsame
    cases hsame

end SfRs.PeerId
