import Mathlib.Data.List.GetD
import SfRs.PeerId.Basic
/-!
# The binary form of a peer identifier

`write` emits the size as an unsigned varint and then the first `size` bytes;
`from_bytes` reads them back into a zeroed array and wants nothing after them.  The
varint of one byte is the `unsigned_varint` crate's, which is a parameter here.
-/

namespace SfRs.PeerId

open SfRs.Lib

/-- `unsigned_varint::io::ReadError`. -/
inductive ReadError where
  | io (kind : IoErrorKind)
  | decode (e : VarintError)

/-- What is used of `unsigned_varint`: `encode::u8`, and `io::read_u8` on a slice, with
what is left of the slice. -/
structure UnsignedVarint where
  encodeU8 : UInt8 → List UInt8
  readU8 : List UInt8 → Except ReadError UInt8 × List UInt8

/-- The documented behaviour of `unsigned_varint` on a `u8`: little-endian groups of seven
bits, read back up to their last byte, and an error when they are cut short. -/
structure UnsignedVarint.Lawful (varint : UnsignedVarint) : Prop where
  encode_small : ∀ v : UInt8, v < 128 → varint.encodeU8 v = [v]
  encode_large : ∀ v : UInt8, 128 ≤ v → varint.encodeU8 v = [v ||| 128, v >>> 7]
  read_encode : ∀ v rest, varint.readU8 (varint.encodeU8 v ++ rest) = (.ok v, rest)
  read_truncated : ∀ v pre, pre <+: varint.encodeU8 v → pre ≠ varint.encodeU8 v →
    ∃ e rest, varint.readU8 pre = (.error e, rest)

/-- `io::Write::write_all` of a writer with the states `W`. -/
abbrev WriteAll (W : Type) := W → List UInt8 → Except IoErrorKind W

/-- `Vec<u8>`, which grows. -/
def vecWriteAll : WriteAll (List UInt8) := fun w bytes => .ok (w ++ bytes)

def Error.ofReadError : ReadError → Error
  | .io kind => .io kind
  | .decode e => .varint e

variable {S : Nat} {W : Type}

namespace FixedSizePeerID

/-- `bytes()`: `&self.bytes[..self.size as usize]`. -/
def sizedBytes (id : FixedSizePeerID S) : Outcome (List UInt8) :=
  Outcome.sliceTo id.bytes.toList id.size.toNat

/-- `PartialEq`: the bytes past the size are not compared. -/
def eq (id other : FixedSizePeerID S) : Outcome Bool :=
  if id.size ≠ other.size then .done false
  else
    (Outcome.sliceTo id.bytes.toList id.size.toNat).bind fun bytes =>
      (Outcome.sliceTo other.bytes.toList id.size.toNat).bind fun bytes' =>
        .done (bytes == bytes')

end FixedSizePeerID

def writePeerId (varint : UnsignedVarint) (writeAll : WriteAll W) (w : W) (size : UInt8)
    (bytes : List UInt8) : Except Error (Nat × W) := do
  let size := varint.encodeU8 size
  let written := size.length + bytes.length
  let w ← (writeAll w size).mapError .io
  let w ← (writeAll w bytes).mapError .io
  return (written, w)

/-- `FixedSizePeerID::write`: the number of bytes written, and the writer after it. -/
def FixedSizePeerID.write (varint : UnsignedVarint) (id : FixedSizePeerID S)
    (writeAll : WriteAll W) (w : W) : Outcome (Except Error (Nat × W)) :=
  id.sizedBytes.bind fun bytes => .done (writePeerId varint writeAll w id.size bytes)

/-- `[0; S]` with the given bytes at its start. -/
def padded (S : Nat) (bytes : List UInt8) : Vector UInt8 S :=
  Vector.ofFn fun i => bytes.getD i 0

/-- `read_peer_id` on a slice: the size and the bytes, and what is left of the slice. -/
def readPeerId (varint : UnsignedVarint) (S : Nat) (data : List UInt8) :
    Except Error ((UInt8 × Vector UInt8 S) × List UInt8) :=
  match varint.readU8 data with
  | (.error e, _) => .error (.ofReadError e)
  | (.ok size, data) =>
      if size > UInt8.ofNat S then .error (.invalidLength S size.toNat)
      -- `read_exact`
      else if data.length < size.toNat then .error (.io .unexpectedEof)
      else .ok ((size, padded S (data.take size.toNat)), data.drop size.toNat)

/-- `FixedSizePeerID::<S>::from_bytes`. -/
def fromBytes (varint : UnsignedVarint) (S : Nat) (data : List UInt8) :
    Except Error (FixedSizePeerID S) := do
  let ((size, bytes), rest) ← readPeerId varint S data
  if rest.isEmpty then return { size := size, bytes := bytes }
  else throw (.invalidLength S data.length)

/-- The first `size` bytes of the identifier, behind their number. -/
def FixedSizePeerID.encoding (varint : UnsignedVarint) (id : FixedSizePeerID S) :
    List UInt8 :=
  varint.encodeU8 id.size ++ id.bytes.toList.take id.size.toNat

variable {varint : UnsignedVarint} {id : FixedSizePeerID S}

/-! ## Writing -/

theorem length_take_bytes (hsize : id.size.toNat ≤ S) :
    (id.bytes.toList.take id.size.toNat).length = id.size.toNat := by
  simp [hsize]

theorem sizedBytes_eq (hsize : id.size.toNat ≤ S) :
    id.sizedBytes = .done (id.bytes.toList.take id.size.toNat) :=
  Outcome.sliceTo_of_le (by simpa using hsize)

theorem eq_done_iff {id' : FixedSizePeerID S} (hsize' : id'.size.toNat ≤ S) :
    id.eq id' = .done true ↔ id.size = id'.size ∧
      id.bytes.toList.take id.size.toNat = id'.bytes.toList.take id'.size.toNat := by
  by_cases hsizes : id.size = id'.size
  · simp [FixedSizePeerID.eq, hsizes, Outcome.sliceTo_of_le, hsize']
  · simp [FixedSizePeerID.eq, hsizes]

theorem write_vec (hsize : id.size.toNat ≤ S) (w : List UInt8) :
    id.write varint vecWriteAll w =
      .done (.ok ((id.encoding varint).length, w ++ id.encoding varint)) := by
  have hok : writePeerId varint vecWriteAll w id.size (id.bytes.toList.take id.size.toNat) =
      .ok ((varint.encodeU8 id.size).length + (id.bytes.toList.take id.size.toNat).length,
        w ++ varint.encodeU8 id.size ++ id.bytes.toList.take id.size.toNat) := rfl
  rw [FixedSizePeerID.write, sizedBytes_eq hsize, Outcome.done_bind, hok,
    FixedSizePeerID.encoding, List.length_append, List.append_assoc]

/-! ## Reading -/

theorem ofNat_lt_iff (S : Nat) (size : UInt8) : size > UInt8.ofNat S ↔ S % 256 < size.toNat := by
  rw [gt_iff_lt, UInt8.lt_iff_toNat_lt, UInt8.toNat_ofNat']

/-- The capacity that the size is compared with is cut down to one byte. -/
theorem readPeerId_of_read {data rest : List UInt8} {size : UInt8}
    (hread : varint.readU8 data = (.ok size, rest)) :
    readPeerId varint S data =
      if S % 256 < size.toNat then .error (.invalidLength S size.toNat)
      else if rest.length < size.toNat then .error (.io .unexpectedEof)
      else .ok ((size, padded S (rest.take size.toNat)), rest.drop size.toNat) := by
  simp only [readPeerId, hread, ofNat_lt_iff]

/-- `from_bytes` behind a varint that was read, whose value is accepted. -/
theorem fromBytes_of_accepted {data rest : List UInt8} {size : UInt8}
    (hread : varint.readU8 data = (.ok size, rest)) (hsize : size.toNat ≤ S % 256) :
    fromBytes varint S data =
      if rest.length < size.toNat then .error (.io .unexpectedEof)
      else if (rest.drop size.toNat).isEmpty then
        .ok { size := size, bytes := padded S (rest.take size.toNat) }
      else .error (.invalidLength S data.length) := by
  have hres := readPeerId_of_read (S := S) hread
  rw [if_neg (Nat.not_lt.mpr hsize)] at hres
  by_cases hshort : rest.length < size.toNat
  · rw [if_pos hshort] at hres ⊢
    simp only [fromBytes, hres]
    rfl
  · rw [if_neg hshort] at hres ⊢
    simp only [fromBytes, hres]
    rfl

/-- `from_bytes` behind a varint that was read, whose value is within the capacity. -/
theorem fromBytes_of_read {data rest : List UInt8} {size : UInt8} (hS : S ≤ 255)
    (hread : varint.readU8 data = (.ok size, rest)) (hsize : size.toNat ≤ S) :
    fromBytes varint S data =
      if rest.length < size.toNat then .error (.io .unexpectedEof)
      else if (rest.drop size.toNat).isEmpty then
        .ok { size := size, bytes := padded S (rest.take size.toNat) }
      else .error (.invalidLength S data.length) :=
  fromBytes_of_accepted hread (by omega)

theorem fromBytes_of_readError {data rest : List UInt8} {e : ReadError}
    (hread : varint.readU8 data = (.error e, rest)) :
    fromBytes varint S data = .error (.ofReadError e) := by
  simp only [fromBytes, readPeerId, hread]
  rfl

/-- A size that is not accepted is an error. -/
theorem fromBytes_of_refused {data rest : List UInt8} {size : UInt8}
    (hread : varint.readU8 data = (.ok size, rest)) (hsize : S % 256 < size.toNat) :
    fromBytes varint S data = .error (.invalidLength S size.toNat) := by
  have hres := readPeerId_of_read (S := S) hread
  rw [if_pos hsize] at hres
  simp only [fromBytes, hres]
  rfl

/-- `from_bytes` on a varint that is followed by the right number of bytes and a rest. -/
theorem fromBytes_append {bytes : List UInt8} {size : UInt8} (hvarint : varint.Lawful)
    (hS : S ≤ 255) (hsize : size.toNat ≤ S) (hlen : bytes.length = size.toNat)
    (rest : List UInt8) :
    fromBytes varint S (varint.encodeU8 size ++ (bytes ++ rest)) =
      if rest.isEmpty then .ok { size := size, bytes := padded S bytes }
      else .error (.invalidLength S (varint.encodeU8 size ++ (bytes ++ rest)).length) := by
  have hread := hvarint.read_encode size (bytes ++ rest)
  have henough : ¬ (bytes ++ rest).length < size.toNat := by
    rw [List.length_append]
    omega
  rw [fromBytes_of_read hS hread hsize, if_neg henough, List.take_left' hlen,
    List.drop_left' hlen]

theorem fromBytes_short {bytes : List UInt8} {size : UInt8} (hvarint : varint.Lawful)
    (hS : S ≤ 255) (hsize : size.toNat ≤ S) (hlen : bytes.length < size.toNat) :
    fromBytes varint S (varint.encodeU8 size ++ bytes) = .error (.io .unexpectedEof) := by
  rw [fromBytes_of_read hS (hvarint.read_encode size bytes) hsize, if_pos hlen]

theorem fromBytes_truncatedVarint {pre : List UInt8} {size : UInt8} (hvarint : varint.Lawful)
    (hpre : pre <+: varint.encodeU8 size) (hne : pre ≠ varint.encodeU8 size) :
    ∃ e, fromBytes varint S pre = .error e := by
  obtain ⟨e, rest, hread⟩ := hvarint.read_truncated size pre hpre hne
  exact ⟨.ofReadError e, fromBytes_of_readError hread⟩

theorem getElem_padded {bytes : List UInt8} {i : Nat} (hi : i < S) :
    (padded S bytes)[i] = bytes.getD i 0 := by
  simp [padded]

theorem take_padded {bytes : List UInt8} (hlen : bytes.length ≤ S) :
    (padded S bytes).toList.take bytes.length = bytes := by
  apply List.ext_getElem
  · simp [hlen]
  · intro i h₁ h₂
    rw [List.getElem_take, Vector.getElem_toList, getElem_padded,
      List.getD_eq_getElem _ _ h₂]

theorem take_padded_take (hsize : id.size.toNat ≤ S) :
    (padded S (id.bytes.toList.take id.size.toNat)).toList.take id.size.toNat =
      id.bytes.toList.take id.size.toNat := by
  have hlen := length_take_bytes hsize
  have htake : (padded S (id.bytes.toList.take id.size.toNat)).toList.take
      (id.bytes.toList.take id.size.toNat).length = id.bytes.toList.take id.size.toNat :=
    take_padded (by rw [hlen]; exact hsize)
  rwa [hlen] at htake

/-- What is read back is the identifier, up to the bytes that are not compared. -/
theorem eq_padded (hsize : id.size.toNat ≤ S) :
    FixedSizePeerID.eq { size := id.size, bytes := padded S (id.bytes.toList.take id.size.toNat) }
      id = .done true := by
  exact (eq_done_iff hsize).mpr ⟨rfl, take_padded_take hsize⟩

theorem padded_take_of_zero (hsize : id.size.toNat ≤ S)
    (hzero : ∀ i (hi : i < S), id.size.toNat ≤ i → id.bytes[i] = 0) :
    padded S (id.bytes.toList.take id.size.toNat) = id.bytes := by
  apply Vector.ext
  intro i hi
  rw [getElem_padded]
  by_cases hlt : i < id.size.toNat
  · rw [List.getD_eq_getElem _ _ (by rw [length_take_bytes hsize]; exact hlt)]
    simp
  · rw [List.getD_eq_default _ _ (by rw [length_take_bytes hsize]; omega)]
    exact (hzero i hi (Nat.le_of_not_lt hlt)).symm

/-! ## The round trip -/

/-- What the binary form promises of an identifier. -/
structure SelfDelimiting (varint : UnsignedVarint) (id : FixedSizePeerID S) : Prop where
  writes : ∀ w, id.write varint vecWriteAll w =
    .done (.ok ((id.encoding varint).length, w ++ id.encoding varint))
  decodes : ∃ decoded, fromBytes varint S (id.encoding varint) = .ok decoded ∧
    decoded.eq id = .done true ∧
    ((∀ i (hi : i < S), id.size.toNat ≤ i → id.bytes[i] = 0) → decoded.bytes = id.bytes)
  truncated : ∀ pre, pre <+: id.encoding varint → pre ≠ id.encoding varint →
    ∃ e, fromBytes varint S pre = .error e
  trailing : ∀ suffix, suffix ≠ [] → fromBytes varint S (id.encoding varint ++ suffix) =
    .error (.invalidLength S (id.encoding varint ++ suffix).length)

/-- A strict prefix ends inside the varint or inside the bytes. -/
theorem fromBytes_prefix {pre : List UInt8} (hvarint : varint.Lawful) (hS : S ≤ 255)
    (hsize : id.size.toNat ≤ S) (hpre : pre <+: id.encoding varint)
    (hne : pre ≠ id.encoding varint) : ∃ e, fromBytes varint S pre = .error e := by
  by_cases hvar : varint.encodeU8 id.size <+: pre
  · obtain ⟨bytes, rfl⟩ := hvar
    have hbytes : bytes <+: id.bytes.toList.take id.size.toNat :=
      (List.prefix_append_right_inj _).mp hpre
    have hlt : bytes.length < id.size.toNat := by
      have hlen := length_take_bytes hsize
      refine lt_of_le_of_ne (hlen ▸ hbytes.length_le) fun heq => hne ?_
      rw [hbytes.eq_of_length (heq.trans hlen.symm), FixedSizePeerID.encoding]
    exact ⟨_, fromBytes_short hvarint hS hsize hlt⟩
  · have hshort : pre <+: varint.encodeU8 id.size :=
      (List.prefix_or_prefix_of_prefix hpre (List.prefix_append _ _)).resolve_right hvar
    exact fromBytes_truncatedVarint hvarint hshort fun heq => hvar (heq ▸ List.prefix_rfl)

/-- For every capacity up to 255 and every identifier within it: `write` emits the size as
a varint and then the bytes, `from_bytes` reads back an equal identifier, and it reads
neither a strict prefix of the output nor the output with more behind it. -/
theorem selfDelimiting (varint : UnsignedVarint) (hvarint : varint.Lawful) (hS : S ≤ 255)
    (id : FixedSizePeerID S) (hsize : id.size.toNat ≤ S) : SelfDelimiting varint id := by
  have happend := fromBytes_append hvarint hS hsize (length_take_bytes hsize)
  simp only [← List.append_assoc] at happend
  constructor
  · exact write_vec hsize
  · refine ⟨{ size := id.size, bytes := padded S (id.bytes.toList.take id.size.toNat) },
      ?_, eq_padded hsize, padded_take_of_zero hsize⟩
    simpa [FixedSizePeerID.encoding] using happend []
  · exact fun pre hpre hne => fromBytes_prefix hvarint hS hsize hpre hne
  · intro suffix hsuffix
    have hrest : suffix.isEmpty = false := by simpa using hsuffix
    simpa [FixedSizePeerID.encoding, hrest] using happend suffix

/-- `unsigned_varint` 0.8 on a `u8`. -/
def leb128 : UnsignedVarint where
  encodeU8 v := if v < 128 then [v] else [v ||| 128, v >>> 7]
  readU8
    | [] => (.error (.io .unexpectedEof), [])
    | b₀ :: rest =>
        if b₀ < 128 then (.ok b₀, rest)
        else
          match rest with
          | [] => (.error (.io .unexpectedEof), [])
          | b₁ :: rest =>
              if b₁ < 128 then
                if b₁ = 0 then (.error (.decode .notMinimal), rest)
                else (.ok (b₀ &&& (127 : UInt8) ||| b₁ <<< (7 : UInt8)), rest)
              else (.error (.decode .overflow), rest)

theorem lawful_leb128 : leb128.Lawful := by
  have hfin : ∀ i : Fin 256, let v := UInt8.ofNat i; ¬ v < 128 →
      ¬ (v ||| 128) < 128 ∧ v >>> 7 < 128 ∧ v >>> 7 ≠ 0 ∧
        (v ||| (128 : UInt8)) &&& (127 : UInt8) ||| (v >>> (7 : UInt8)) <<< (7 : UInt8) = v := by
    decide +kernel
  have hlarge := fun v : UInt8 => hfin ⟨v.toNat, v.toNat_lt⟩
  simp only [UInt8.ofNat_toNat] at hlarge
  constructor
  · intro v hv
    simp [leb128, hv]
  · intro v hv
    simp [leb128, UInt8.not_lt.mpr hv]
  · intro v rest
    by_cases hv : v < 128
    · simp [leb128, hv]
    · obtain ⟨h₀, h₁, hne, heq⟩ := hlarge v hv
      simp [leb128, hv, h₀, h₁, hne, heq]
  · intro v pre hpre hne
    by_cases hv : v < 128
    · simp only [leb128, hv, if_true] at hpre hne
      rcases List.prefix_cons_iff.mp hpre with rfl | ⟨rest, rfl, hrest⟩
      · exact ⟨_, _, rfl⟩
      · obtain rfl := List.prefix_nil.mp hrest
        exact absurd rfl hne
    · simp only [leb128, hv, if_false] at hpre hne
      obtain ⟨h₀, -, -, -⟩ := hlarge v hv
      rcases List.prefix_cons_iff.mp hpre with rfl | ⟨rest, rfl, hrest⟩
      · exact ⟨_, _, rfl⟩
      · rcases List.prefix_cons_iff.mp hrest with rfl | ⟨rest', rfl, hrest'⟩
        · exact ⟨.io .unexpectedEof, [], by simp [leb128, h₀]⟩
        · obtain rfl := List.prefix_nil.mp hrest'
          exact absurd rfl hne

/-- An identifier of 200 bytes, whose size takes two. -/
theorem selfDelimiting_large :
    let id : FixedSizePeerID 255 := ⟨200, Vector.replicate 255 7⟩
    SelfDelimiting leb128 id ∧ (id.encoding leb128).length = 202 := by
  intro id
  exact ⟨selfDelimiting leb128 lawful_leb128 (by decide) id (by decide), by decide +kernel⟩

end SfRs.PeerId
