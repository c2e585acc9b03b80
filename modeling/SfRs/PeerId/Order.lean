import SfRs.Lib.Machine
import SfRs.PeerId.Canonical
/-!
# Equality, order and hash of peer identifiers

`PartialEq` and `Hash` look at the first `size` bytes only, and the derived `Ord` at all
of them.  They fit together as long as the bytes past the size are zero, which every
constructor sees to and a write through `as_bytes_mut` need not.
-/

namespace SfRs.PeerId

open SfRs.Lib

/-- The methods of `hash::Hasher` that are called. -/
structure Hasher (H : Type) where
  writeU8 : H → UInt8 → H
  writeLengthPrefix : H → Nat → H
  write : H → List UInt8 → H

variable {S : Nat}

namespace FixedSizePeerID

/-- The derived `Ord`: the size, and then all the bytes. -/
def cmp (id other : FixedSizePeerID S) : Ordering :=
  (compare id.size other.size).then (compare id.bytes other.bytes)

/-- `Hash`: a slice is hashed as its length and its bytes. -/
def hash {H : Type} (hasher : Hasher H) (id : FixedSizePeerID S) (state : H) : Outcome H :=
  let state := hasher.writeU8 state id.size
  id.sizedBytes.bind fun bytes =>
    .done (hasher.write (hasher.writeLengthPrefix state bytes.length) bytes)

def zeroed (S : Nat) : FixedSizePeerID S where
  size := 0
  bytes := Vector.replicate S 0

end FixedSizePeerID

/-! ## The operations -/

/-- What can be done to a variable that holds an identifier. -/
inductive IdOp where
  | zeroed
  | fromBytes (data : List UInt8)
  | fromStr (s : String)
  | random (seed : BitVec 128)
  | asBytesMut (i : Nat) (v : UInt8)

def okOf {ε α : Type*} : Outcome (Except ε α) → Option α
  | .done (.ok a) => some a
  | _ => none

/-- A variable of an identifier under any sequence of the public operations.  Those that
fail leave no identifier. -/
def identifiers (varint : UnsignedVarint) (S : Nat) :
    Machine (FixedSizePeerID S) IdOp Empty where
  init := .zeroed S
  step id
    | .zeroed => some (.zeroed S, [])
    | .fromBytes data => (fromBytes varint S data).toOption.map fun id => (id, [])
    | .fromStr s => (okOf (fromStr S s)).map fun id => (id, [])
    | .random seed => (okOf (PeerId.random S seed)).map fun id => (id, [])
    | .asBytesMut i v =>
        if hi : i < S then some ({ id with bytes := id.bytes.set i v }, []) else none

/-- A write through `as_bytes_mut` that stays inside the size, or stores a zero. -/
def InSize (id : FixedSizePeerID S) : IdOp → Prop
  | .asBytesMut i v => i < id.size.toNat ∨ v = 0
  | _ => True

/-- What equality, order and hash promise of two identifiers. -/
structure Coherent (a b : FixedSizePeerID S) : Prop where
  returns : ∃ r, a.eq b = .done r
  eq_iff_cmp : a.eq b = .done true ↔ a.cmp b = .eq
  hash : a.eq b = .done true → ∀ (H : Type) (hasher : Hasher H) (state : H),
    a.hash hasher state = b.hash hasher state
  third : a.eq b = .done true → ∀ c, a.cmp c = b.cmp c

/-! ## Two identifiers -/

variable {a b : FixedSizePeerID S}

theorem cmp_eq_iff : a.cmp b = .eq ↔ a = b := by
  obtain ⟨size, bytes⟩ := a
  obtain ⟨size', bytes'⟩ := b
  simp [FixedSizePeerID.cmp, Ordering.then_eq_eq]

theorem exists_eq_done (ha : a.size.toNat ≤ S) : ∃ r, a.eq b = .done r := by
  by_cases hsizes : a.size = b.size
  · have hb : b.size.toNat ≤ S := hsizes ▸ ha
    exact ⟨_, by simp [FixedSizePeerID.eq, hsizes, Outcome.sliceTo_of_le, hb]; rfl⟩
  · exact ⟨false, by simp [FixedSizePeerID.eq, hsizes]⟩

theorem hash_congr (ha : a.size.toNat ≤ S) (hb : b.size.toNat ≤ S) (h : a.eq b = .done true)
    {H : Type} (hasher : Hasher H) (state : H) : a.hash hasher state = b.hash hasher state := by
  obtain ⟨hsizes, hbytes⟩ := (eq_done_iff hb).mp h
  rw [FixedSizePeerID.hash, FixedSizePeerID.hash, sizedBytes_eq ha, sizedBytes_eq hb, hsizes,
    ← hbytes, hsizes]

/-- Equality, order and hash fit together unless the identifiers are equal and differ in
the bytes past their size. -/
theorem coherent_iff (ha : a.size.toNat ≤ S) (hb : b.size.toNat ≤ S) :
    Coherent a b ↔ (a.eq b = .done true → a.bytes = b.bytes) := by
  constructor
  · intro hcoherent heq
    rw [cmp_eq_iff.mp (hcoherent.eq_iff_cmp.mp heq)]
  · intro hbytes
    have hsame : a.eq b = .done true → a = b := by
      intro heq
      obtain ⟨hsizes, -⟩ := (eq_done_iff hb).mp heq
      have htails := hbytes heq
      obtain ⟨size, bytes⟩ := a
      obtain ⟨size', bytes'⟩ := b
      simp only at hsizes htails
      rw [hsizes, htails]
    refine ⟨exists_eq_done ha, ⟨fun heq => cmp_eq_iff.mpr (hsame heq), fun hcmp => ?_⟩,
      fun heq H hasher state => hash_congr ha hb heq hasher state,
      fun heq c => by rw [hsame heq]⟩
    rw [cmp_eq_iff.mp hcmp]
    exact eq_of_normal_eq hb hb rfl

/-! ## Sequences of operations -/

variable {varint : UnsignedVarint} {id id' : FixedSizePeerID S} {op : IdOp} {es : List Empty}

theorem normal_eq_self_iff (hsize : id.size.toNat ≤ S) :
    id.normal = id ↔ ∀ i (hi : i < S), id.size.toNat ≤ i → id.bytes[i] = 0 := by
  constructor
  · intro hnormal i hi hpast
    have hzero := getElem_normal hsize hi hpast
    rwa [hnormal] at hzero
  · intro hzero
    rw [FixedSizePeerID.normal, padded_take_of_zero hsize hzero]

theorem okOf_eq_some {ε α : Type*} {o : Outcome (Except ε α)} {a : α} (h : okOf o = some a) :
    o = .done (.ok a) := by
  rcases o with (e | a') | _
  · cases h
  · cases h
    rfl
  · cases h

theorem toOption_eq_some {ε α : Type*} {r : Except ε α} {a : α} (h : r.toOption = some a) :
    r = .ok a := by
  rcases r with e | a'
  · cases h
  · cases h
    rfl

theorem normal_of_fromStr (hS : S ≤ 255) {s : String} (h : fromStr S s = .done (.ok id)) :
    id.size.toNat ≤ S ∧ id.normal = id := by
  obtain ⟨hnormal, hsize, -⟩ := of_fromStr hS h
  exact ⟨hsize, hnormal⟩

theorem normal_of_fromBytes (hS : S ≤ 255) {data : List UInt8}
    (h : fromBytes varint S data = .ok id) : id.size.toNat ≤ S ∧ id.normal = id := by
  obtain ⟨rest, -, hsize, hlen, hbytes⟩ := (fromBytes_ok_iff hS).mp h
  refine ⟨hsize, (normal_eq_self_iff hsize).mpr fun i hi hpast => ?_⟩
  rw [hbytes, getElem_padded, List.getD_eq_default _ _ (hlen.trans_le hpast)]

theorem normal_zeroed : (FixedSizePeerID.zeroed S).size.toNat ≤ S ∧
    (FixedSizePeerID.zeroed S).normal = .zeroed S := by
  refine ⟨Nat.zero_le S, (normal_eq_self_iff (Nat.zero_le S)).mpr fun i hi _ => ?_⟩
  simp [FixedSizePeerID.zeroed]

/-- An operation makes an identifier with zeros past its size, or stores one byte. -/
theorem identifiers_step (hS : S ≤ 255)
    (h : (identifiers varint S).step id op = some (id', es)) :
    (id'.size.toNat ≤ S ∧ id'.normal = id') ∨
      ∃ i v, ∃ hi : i < S, op = .asBytesMut i v ∧ id' = { id with bytes := id.bytes.set i v } := by
  cases op with
  | zeroed =>
      cases h
      exact .inl normal_zeroed
  | fromBytes data =>
      obtain ⟨made, hmade, hpair⟩ := Option.map_eq_some_iff.mp h
      cases hpair
      exact .inl (normal_of_fromBytes hS (toOption_eq_some hmade))
  | fromStr s =>
      obtain ⟨made, hmade, hpair⟩ := Option.map_eq_some_iff.mp h
      cases hpair
      exact .inl (normal_of_fromStr hS (okOf_eq_some hmade))
  | random seed =>
      obtain ⟨made, hmade, hpair⟩ := Option.map_eq_some_iff.mp h
      cases hpair
      exact .inl (normal_of_fromStr hS (okOf_eq_some hmade))
  | asBytesMut i v =>
      by_cases hi : i < S
      · simp only [identifiers, hi, dif_pos, Option.some.injEq, Prod.mk.injEq] at h
        exact .inr ⟨i, v, hi, rfl, h.1.symm⟩
      · simp [identifiers, hi] at h

theorem size_of_run (hS : S ≤ 255) {ls : List IdOp} {tr : List Empty}
    (h : (identifiers varint S).Run ls id tr) : id.size.toNat ≤ S := by
  refine @Machine.invariant _ _ _ (identifiers varint S) (fun id _ => id.size.toNat ≤ S)
    normal_zeroed.1 ?_ _ _ _ h
  intro id tr op id' es hsize hstep
  rcases identifiers_step hS hstep with ⟨hsize', -⟩ | ⟨i, v, hi, -, rfl⟩
  · exact hsize'
  · exact hsize

/-- The writes that stay inside the size keep the bytes past it zero. -/
theorem normal_of_run (hS : S ≤ 255) {ls : List IdOp} {tr : List Empty}
    (hok : (identifiers varint S).StepsMeet InSize ls)
    (h : (identifiers varint S).Run ls id tr) : id.size.toNat ≤ S ∧ id.normal = id := by
  refine @Machine.invariant_of_stepsMeet _ _ _ (identifiers varint S) InSize
    (fun id _ => id.size.toNat ≤ S ∧ id.normal = id) normal_zeroed ?_ _ hok _ _ h
  rintro id tr op id' es ⟨hsize, hnormal⟩ hin hstep
  rcases identifiers_step hS hstep with hmade | ⟨i, v, hi, rfl, rfl⟩
  · exact hmade
  · have hsize' : ({ id with bytes := id.bytes.set i v } : FixedSizePeerID S).size.toNat ≤ S :=
      hsize
    refine ⟨hsize', (normal_eq_self_iff hsize').mpr fun j hj hpast => ?_⟩
    have hzero := (normal_eq_self_iff hsize).mp hnormal j hj hpast
    by_cases hij : i = j
    · subst hij
      rcases hin with hlt | rfl
      · exact absurd hlt (Nat.not_lt.mpr hpast)
      · simp
    · rw [Vector.getElem_set_ne _ _ hij]
      exact hzero

theorem coherent_of_normal (ha : a.size.toNat ≤ S) (hb : b.size.toNat ≤ S)
    (hnormal : a.normal = a) (hnormal' : b.normal = b) : Coherent a b := by
  refine (coherent_iff ha hb).mpr fun heq => ?_
  have hsame := normal_eq_of_eq hb heq
  rw [hnormal, hnormal'] at hsame
  rw [hsame]

/-- Two identifiers whose writes through `as_bytes_mut` stayed inside the size are coherent,
whatever else was done; two that were made in any way are coherent unless they are equal
and differ past their size. -/
theorem coherent_runs (hS : S ≤ 255) {ls ls' : List IdOp} {a b : FixedSizePeerID S}
    {tr tr' : List Empty} (ha : (identifiers varint S).Run ls a tr)
    (hb : (identifiers varint S).Run ls' b tr') :
    ((identifiers varint S).StepsMeet InSize ls → (identifiers varint S).StepsMeet InSize ls' →
        Coherent a b) ∧
      (Coherent a b ↔ (a.eq b = .done true → a.bytes = b.bytes)) := by
  refine ⟨fun hok hok' => ?_, coherent_iff (size_of_run hS ha) (size_of_run hS hb)⟩
  obtain ⟨hsize, hnormal⟩ := normal_of_run hS hok ha
  obtain ⟨hsize', hnormal'⟩ := normal_of_run hS hok' hb
  exact coherent_of_normal hsize hsize' hnormal hnormal'

/-- The identifier `ab`, read from its text or written over another one. -/
theorem coherent_runs_written :
    let id : FixedSizePeerID 2 := ⟨1, #v[171, 0]⟩
    (identifiers leb128 2).Run [.fromBytes [1, 7], .asBytesMut 0 171] id [] ∧
      (identifiers leb128 2).Run [.fromStr "ab"] id [] ∧ Coherent id id := by
  intro id
  have hread : (identifiers leb128 2).Run [.fromBytes [1, 7]] ⟨1, #v[7, 0]⟩ [] :=
    Machine.run_of_exec (by decide +kernel)
  have hwritten : (identifiers leb128 2).Run [.fromBytes [1, 7], .asBytesMut 0 171] id [] :=
    Machine.run_of_exec (by decide +kernel)
  have htext : (identifiers leb128 2).Run [.fromStr "ab"] id [] :=
    Machine.run_of_exec (by decide +kernel)
  have hok : (identifiers leb128 2).StepsMeet InSize [.fromBytes [1, 7], .asBytesMut 0 171] :=
    (Machine.stepsMeet_concat hread rfl).mpr
      ⟨(Machine.stepsMeet_concat .nil rfl).mpr ⟨Machine.stepsMeet_nil, trivial⟩,
        .inl (by decide)⟩
  have hok' : (identifiers leb128 2).StepsMeet InSize [.fromStr "ab"] :=
    (Machine.stepsMeet_concat .nil rfl).mpr ⟨Machine.stepsMeet_nil, trivial⟩
  exact ⟨hwritten, htext, (coherent_runs (by decide) hwritten htext).1 hok hok'⟩

/-- `zeroed` is equal to what a write to its first byte makes of it, and is ordered before
it. -/
theorem not_coherent_zeroed :
    let written : FixedSizePeerID 16 := ⟨0, (Vector.replicate 16 0).set 0 1⟩
    (identifiers leb128 16).Run [] (.zeroed 16) [] ∧
      (identifiers leb128 16).Run [.asBytesMut 0 1] written [] ∧
        ¬ Coherent (.zeroed 16) written := by
  intro written
  refine ⟨.nil, Machine.run_of_exec (by decide +kernel), fun hcoherent => ?_⟩
  exact absurd (hcoherent.eq_iff_cmp.mp (by decide +kernel)) (by decide +kernel)

end SfRs.PeerId
