import SfRs.Lib.Serde
import SfRs.PeerId.Binary
/-!
# Peer identifiers in JSON

An identifier is serialised as the bytes of its binary form, through a buffer of `S + 1`
bytes.  JSON has them as an array of numbers, which is read back one by one into a buffer
of the same size.
-/

namespace SfRs.PeerId

open SfRs.Lib

/-- A `&mut [u8]` being written: what was written, and how much room is left. -/
structure SliceWriter where
  written : List UInt8
  room : Nat

def sliceWriteAll : WriteAll SliceWriter := fun w bytes =>
  if bytes.length ≤ w.room then
    .ok { written := w.written ++ bytes, room := w.room - bytes.length }
  else .error .writeZero

/-- `PeerIDBuffer::new`, as a writer. -/
def newBuffer (S : Nat) : SliceWriter where
  written := []
  room := S + 1

/-- `PeerIDBuffer::as_slice` after the writing. -/
def SliceWriter.asSlice (w : SliceWriter) : List UInt8 := w.written ++ List.replicate w.room 0

/-- What `serialize_bytes` makes of bytes. -/
def bytesJson (bytes : List UInt8) : Json := .array (bytes.map fun b => .number b.toNat)

variable {S : Nat}

def FixedSizePeerID.serialize (varint : UnsignedVarint) (id : FixedSizePeerID S) : Ser Json :=
  (id.write varint sliceWriteAll (newBuffer S)).bind fun
    | .error _ => .done (.error (.custom "Failed to serialize FixedSizePeerID"))
    | .ok (written, w) =>
        (Outcome.sliceTo w.asSlice written).bind fun bytes => Ser.ok (bytesJson bytes)

/-- The bytes that `serialize` hands to `serialize_bytes`. -/
def FixedSizePeerID.serializedBytes (varint : UnsignedVarint) (id : FixedSizePeerID S) :
    Ser (List UInt8) :=
  (id.write varint sliceWriteAll (newBuffer S)).bind fun
    | .error _ => .done (.error (.custom "Failed to serialize FixedSizePeerID"))
    | .ok (written, w) => (Outcome.sliceTo w.asSlice written).bind fun bytes => Ser.ok bytes

/-- `next_element` of a byte. -/
def deserializeU8 : Deserialize UInt8 := fun v => (Serde.unsigned 256 v).map UInt8.ofNat

/-- The loop of `visit_seq`, with the bytes read so far. -/
def visitSeqLoop (len : Nat) : List Json → List UInt8 → Except DeError (List UInt8)
  | [], bytes => .ok bytes
  | item :: items, bytes => do
      let byte ← deserializeU8 item
      if bytes.length ≥ len then
        throw (.custom "Failed to deserialize too many bytes for FixedSizePeerID")
      visitSeqLoop len items (bytes ++ [byte])

def visitBytes (varint : UnsignedVarint) (S : Nat) (bytes : List UInt8) :
    Except DeError (FixedSizePeerID S) :=
  (fromBytes varint S bytes).mapError fun _ =>
    .custom "Failed to deserialize FixedSizePeerID"

/-- `deserialize_bytes` with the visitor of identifiers. -/
def FixedSizePeerID.deserialize (varint : UnsignedVarint) (S : Nat) :
    Deserialize (FixedSizePeerID S)
  | .array items => do visitBytes varint S (← visitSeqLoop (S + 1) items [])
  | .string s => visitBytes varint S (asBytes s)
  | _ => .error .invalidType

/-! ## The round trip -/

variable {varint : UnsignedVarint} {id id' : FixedSizePeerID S}

/-- The identifier with its bytes past the size zeroed. -/
def FixedSizePeerID.normal (id : FixedSizePeerID S) : FixedSizePeerID S where
  size := id.size
  bytes := padded S (id.bytes.toList.take id.size.toNat)

/-- What is written of an identifier is read back if its size is accepted. -/
theorem fromBytes_encoding (hvarint : varint.Lawful) (hsize : id.size.toNat ≤ S) :
    fromBytes varint S (id.encoding varint) =
      if id.size.toNat ≤ S % 256 then .ok id.normal
      else .error (.invalidLength S id.size.toNat) := by
  have hlen := length_take_bytes hsize
  have hread := hvarint.read_encode id.size (id.bytes.toList.take id.size.toNat)
  by_cases haccepted : id.size.toNat ≤ S % 256
  · have henough : ¬ (id.bytes.toList.take id.size.toNat).length < id.size.toNat := by omega
    have htake : (id.bytes.toList.take id.size.toNat).take id.size.toNat =
        id.bytes.toList.take id.size.toNat := List.take_of_length_le hlen.le
    have hdrop : (id.bytes.toList.take id.size.toNat).drop id.size.toNat = [] :=
      List.drop_of_length_le hlen.le
    rw [if_pos haccepted, FixedSizePeerID.encoding, fromBytes_of_accepted hread haccepted,
      if_neg henough, htake, hdrop]
    rfl
  · rw [if_neg haccepted]
    exact fromBytes_of_refused hread (Nat.lt_of_not_le haccepted)

theorem visitBytes_encoding (hvarint : varint.Lawful) (hS : S ≤ 255) (hsize : id.size.toNat ≤ S) :
    visitBytes varint S (id.encoding varint) = .ok id.normal := by
  have haccepted : id.size.toNat ≤ S % 256 := by omega
  rw [visitBytes, fromBytes_encoding hvarint hsize, if_pos haccepted]
  rfl

theorem encodeU8_size (hvarint : varint.Lawful) (hS : S < 128) (hsize : id.size.toNat ≤ S) :
    varint.encodeU8 id.size = [id.size] := by
  apply hvarint.encode_small
  rw [UInt8.lt_iff_toNat_lt]
  exact hsize.trans_lt hS

theorem encoding_small (hvarint : varint.Lawful) (hS : S < 128) (hsize : id.size.toNat ≤ S) :
    id.encoding varint = id.size :: id.bytes.toList.take id.size.toNat := by
  rw [FixedSizePeerID.encoding, encodeU8_size hvarint hS hsize, List.singleton_append]

/-- The two writes go through exactly when there is room for both. -/
theorem writePeerId_slice (varint : UnsignedVarint) (w : SliceWriter) (size : UInt8)
    (bytes : List UInt8) :
    writePeerId varint sliceWriteAll w size bytes =
      if (varint.encodeU8 size ++ bytes).length ≤ w.room then
        .ok ((varint.encodeU8 size ++ bytes).length,
          { written := w.written ++ (varint.encodeU8 size ++ bytes)
            room := w.room - (varint.encodeU8 size ++ bytes).length })
      else .error (.io .writeZero) := by
  rw [List.length_append]
  simp only [writePeerId, sliceWriteAll, bind, Except.bind, pure, Except.pure]
  by_cases hfirst : (varint.encodeU8 size).length ≤ w.room
  · by_cases hsecond : bytes.length ≤ w.room - (varint.encodeU8 size).length
    · have hboth : (varint.encodeU8 size).length + bytes.length ≤ w.room := by omega
      simp only [hfirst, hsecond, hboth, if_true, Except.mapError, List.append_assoc,
        Nat.sub_sub]
    · have hboth : ¬ (varint.encodeU8 size).length + bytes.length ≤ w.room := by omega
      simp only [hfirst, hsecond, hboth, if_true, if_false, Except.mapError]
  · have hboth : ¬ (varint.encodeU8 size).length + bytes.length ≤ w.room := by omega
    simp only [hfirst, hboth, if_false, Except.mapError]

/-- The buffer of `S + 1` bytes is all the room there is for the binary form. -/
theorem serializedBytes_of_size (hsize : id.size.toNat ≤ S) :
    id.serializedBytes varint =
      if (id.encoding varint).length ≤ S + 1 then Ser.ok (id.encoding varint)
      else .done (.error (.custom "Failed to serialize FixedSizePeerID")) := by
  have hwritten := writePeerId_slice varint (newBuffer S) id.size
    (id.bytes.toList.take id.size.toNat)
  rw [← FixedSizePeerID.encoding] at hwritten
  rw [FixedSizePeerID.serializedBytes, FixedSizePeerID.write, sizedBytes_eq hsize,
    Outcome.done_bind, Outcome.done_bind, hwritten]
  by_cases hfit : (id.encoding varint).length ≤ S + 1
  · have hroom : (id.encoding varint).length ≤ (newBuffer S).room := hfit
    rw [if_pos hroom, if_pos hfit]
    simp [newBuffer, SliceWriter.asSlice, Outcome.sliceTo_of_le]
  · have hroom : ¬ (id.encoding varint).length ≤ (newBuffer S).room := hfit
    rw [if_neg hroom, if_neg hfit]

theorem serialize_eq_bind :
    id.serialize varint =
      (id.serializedBytes varint).bind fun bytes => Ser.ok (bytesJson bytes) := by
  rw [FixedSizePeerID.serialize, FixedSizePeerID.serializedBytes]
  rcases id.write varint sliceWriteAll (newBuffer S) with (e | ⟨written, w⟩) | _
  · rfl
  · simp only [Outcome.done_bind]
    rcases Outcome.sliceTo w.asSlice written with bytes | _ <;> rfl
  · rfl

theorem serialize_of_size (hsize : id.size.toNat ≤ S) :
    id.serialize varint =
      if (id.encoding varint).length ≤ S + 1 then Ser.ok (bytesJson (id.encoding varint))
      else .done (.error (.custom "Failed to serialize FixedSizePeerID")) := by
  rw [serialize_eq_bind, serializedBytes_of_size hsize]
  split_ifs <;> rfl

theorem length_encoding_small (hvarint : varint.Lawful) (hS : S < 128)
    (hsize : id.size.toNat ≤ S) : (id.encoding varint).length ≤ S + 1 := by
  rw [encoding_small hvarint hS hsize, List.length_cons, length_take_bytes hsize]
  exact Nat.succ_le_succ hsize

theorem serialize_eq (hvarint : varint.Lawful) (hS : S < 128) (hsize : id.size.toNat ≤ S) :
    id.serialize varint = Ser.ok (bytesJson (id.encoding varint)) := by
  rw [serialize_of_size hsize, if_pos (length_encoding_small hvarint hS hsize)]

theorem deserializeU8_number (b : UInt8) : deserializeU8 (.number b.toNat) = .ok b := by
  have hlt : b.toNat < 256 := b.toNat_lt
  simp only [deserializeU8, Serde.unsigned, hlt, if_true, Except.map, UInt8.ofNat_toNat]

theorem visitSeqLoop_bytes {len : Nat} {bytes rest : List UInt8}
    (hlen : (bytes ++ rest).length ≤ len) :
    visitSeqLoop len (rest.map fun b => .number b.toNat) bytes = .ok (bytes ++ rest) := by
  induction rest generalizing bytes with
  | nil => rw [List.append_nil]; rfl
  | cons b rest ih =>
      have hroom : ¬ bytes.length ≥ len := by
        rw [List.length_append, List.length_cons] at hlen
        omega
      have htail : visitSeqLoop len _ (bytes ++ [b]) = .ok (bytes ++ [b] ++ rest) :=
        ih (by simpa using hlen)
      rw [List.append_assoc, List.singleton_append] at htail
      simp only [List.map_cons, visitSeqLoop, deserializeU8_number, hroom, if_false]
      exact htail

theorem deserialize_encoding (hvarint : varint.Lawful) (hS : S < 128)
    (hsize : id.size.toNat ≤ S) :
    FixedSizePeerID.deserialize varint S (bytesJson (id.encoding varint)) = .ok id.normal := by
  have hlen := length_take_bytes hsize
  have hbytes : visitSeqLoop (S + 1) ((id.encoding varint).map fun b => .number b.toNat) [] =
      .ok (id.encoding varint) := by
    refine visitSeqLoop_bytes ?_
    rw [List.nil_append, encoding_small hvarint hS hsize, List.length_cons, hlen]
    exact Nat.succ_le_succ hsize
  simp only [FixedSizePeerID.deserialize, bytesJson, hbytes]
  exact visitBytes_encoding hvarint (by omega) hsize

/-! ## Equality -/

/-- Identifiers with one normal form are equal. -/
theorem eq_of_normal_eq (hsize : id.size.toNat ≤ S) (hsize' : id'.size.toNat ≤ S)
    (h : id.normal = id'.normal) : id.eq id' = .done true := by
  obtain ⟨hsizes, hbytes⟩ : id.size = id'.size ∧
      padded S (id.bytes.toList.take id.size.toNat) =
        padded S (id'.bytes.toList.take id'.size.toNat) := by
    simpa [FixedSizePeerID.normal] using h
  refine (eq_done_iff hsize').mpr ⟨hsizes, ?_⟩
  calc
    id.bytes.toList.take id.size.toNat
        = (padded S (id.bytes.toList.take id.size.toNat)).toList.take id.size.toNat :=
      (take_padded_take hsize).symm
    _ = (padded S (id'.bytes.toList.take id'.size.toNat)).toList.take id'.size.toNat := by
      rw [hbytes, hsizes]
    _ = id'.bytes.toList.take id'.size.toNat := take_padded_take hsize'

end SfRs.PeerId
