import SfRs.PeerId.Canonical
import SfRs.Protocol.Serde
/-!
# The texts of requests

Identifiers that were parsed, read or drawn at random have no bytes past their size.  Over
these, the JSON functions of the two programs are inverse to each other on the nose, not
only up to the equality of identifiers.
-/

namespace SfRs.Protocol

open SfRs.Lib SfRs.PeerId

/-- `serde_json` on requests: what is written reads back. -/
structure Codec (PeerID : Type) where
  write : PeerRequest PeerID → String
  fromStr : String → Option (PeerRequest PeerID)
  fromStr_write : ∀ request, fromStr (write request) = some request

/-- An identifier whose bytes past its size are zero. -/
def NormalPeerID : Type :=
  { id : PeerID // id.size.toNat ≤ 32 ∧ id.normal = id }

namespace NormalPeerID

instance : DecidableEq NormalPeerID := inferInstanceAs (DecidableEq { _id : PeerID // _ })

variable {varint : UnsignedVarint} {E : Escaping}

theorem size_ofByte (b : UInt8) : (FixedSizePeerID.ofByte b).size.toNat ≤ 32 := by
  show (1 : UInt8).toNat ≤ 32
  decide

theorem normal_ofByte (b : UInt8) : (FixedSizePeerID.ofByte b).normal = .ofByte b := by
  have hzero : ∀ i (hi : i < 32), (FixedSizePeerID.ofByte b).size.toNat ≤ i →
      (FixedSizePeerID.ofByte b).bytes[i] = 0 := by
    intro i hi hle
    have hpos : 1 ≤ i := hle
    have hne : (0 : Nat) ≠ i := by omega
    simp [FixedSizePeerID.ofByte, hne]
  rw [FixedSizePeerID.normal, padded_take_of_zero (size_ofByte b) hzero]

/-- The identifier of one byte. -/
def ofByte (b : UInt8) : NormalPeerID := ⟨.ofByte b, size_ofByte b, normal_ofByte b⟩

theorem normal_of_fromBytes {data : List UInt8} {id : PeerID}
    (h : fromBytes varint 32 data = .ok id) : id.size.toNat ≤ 32 ∧ id.normal = id := by
  obtain ⟨rest, -, hsize, hlen, hbytes⟩ := (fromBytes_ok_iff (by decide)).mp h
  have hzero : ∀ i (hi : i < 32), id.size.toNat ≤ i → id.bytes[i] = 0 := by
    intro i hi hle
    simp only [hbytes]
    rw [getElem_padded, List.getD_eq_default _ _ (by omega)]
  refine ⟨hsize, ?_⟩
  rw [FixedSizePeerID.normal, padded_take_of_zero hsize hzero]

theorem normal_of_deserialize {v : Json} {id : PeerID}
    (h : FixedSizePeerID.deserialize varint 32 v = .ok id) :
    id.size.toNat ≤ 32 ∧ id.normal = id := by
  have hvisit : ∀ {bytes : List UInt8}, visitBytes varint 32 bytes = .ok id →
      id.size.toNat ≤ 32 ∧ id.normal = id := by
    intro bytes hbytes
    unfold visitBytes at hbytes
    cases hread : fromBytes varint 32 bytes with
    | error e =>
        rw [hread] at hbytes
        cases hbytes
    | ok id' =>
        rw [hread] at hbytes
        cases hbytes
        exact normal_of_fromBytes hread
  unfold FixedSizePeerID.deserialize at h
  split at h
  case h_1 items =>
      cases hloop : visitSeqLoop (32 + 1) items [] with
      | error e =>
          rw [hloop] at h
          cases h
      | ok bytes =>
          rw [hloop] at h
          exact hvisit h
  case h_2 s => exact hvisit h
  case h_3 => cases h

def serialize (varint : UnsignedVarint) (id : NormalPeerID) : Ser Json :=
  id.val.serialize varint

def deserialize (varint : UnsignedVarint) : Deserialize NormalPeerID := fun v =>
  match h : FixedSizePeerID.deserialize varint 32 v with
  | .ok id => .ok ⟨id, normal_of_deserialize h⟩
  | .error e => .error e

/-- The document of an identifier. -/
def toJson (varint : UnsignedVarint) (id : NormalPeerID) : Json :=
  bytesJson (id.val.encoding varint)

theorem deserialize_of_ok {v : Json} {id : NormalPeerID}
    (h : FixedSizePeerID.deserialize varint 32 v = .ok id.val) :
    deserialize varint v = .ok id := by
  unfold deserialize
  split
  case h_1 id' hid =>
      have hval : id' = id.val := Except.ok.inj (hid.symm.trans h)
      exact congrArg Except.ok (Subtype.ext hval)
  case h_2 e he =>
      rw [h] at he
      cases he

theorem carried (hvarint : varint.Lawful) (p : NormalPeerID) :
    Carried (serialize varint) (deserialize varint) (toJson varint) id p where
  serialize := PeerId.serialize_eq hvarint (by decide) p.property.1
  deserialize := by
    refine deserialize_of_ok ?_
    have hread := deserialize_encoding hvarint (by decide) p.property.1
    rw [p.property.2] at hread
    exact hread
  ne_null := by simp [toJson, bytesJson]

end NormalPeerID

section Text

variable {P : Type} (serializeId : P → Ser Json) (deserializeId : Deserialize P) (E : Escaping)

/-- `serde_json::to_string`, where it does not fail. -/
def toText (request : PeerRequest P) : String :=
  match request.serialize serializeId with
  | .done (.ok v) => v.toText E
  | _ => ""

/-- `serde_json::from_str` on compact documents. -/
def ofText (text : String) : Option (PeerRequest P) :=
  (Json.ofText E text).bind fun v => (PeerRequest.deserialize deserializeId v).toOption

variable {serializeId deserializeId E} {write : P → Json}

theorem toText_eq_toJson (hcarried : ∀ p, Carried serializeId deserializeId write id p)
    (request : PeerRequest P) :
    request.serialize serializeId = Ser.ok (request.toJson write) ∧
      toText serializeId E request = (request.toJson write).toText E := by
  have hwritten := PeerRequest.serialize_eq (r := request) fun p _ => hcarried p
  refine ⟨hwritten, ?_⟩
  rw [toText, hwritten, Ser.ok]

theorem ofText_toText_carried (hcarried : ∀ p, Carried serializeId deserializeId write id p)
    (hE : E.Lawful) (hquote : E.quote = '"') (request : PeerRequest P) :
    ofText deserializeId E (toText serializeId E request) = some request := by
  have hread := PeerRequest.deserialize_toJson (r := request) fun p _ => hcarried p
  rw [ofText, (toText_eq_toJson hcarried request).2, Json.ofText_toText hE hquote,
    Option.bind_some, hread, PeerRequest.map_id]
  rfl

/-- The JSON functions of the two programs, over identifiers that are read as written. -/
def jsonCodec (hcarried : ∀ p, Carried serializeId deserializeId write id p) (hE : E.Lawful)
    (hquote : E.quote = '"') : Codec P where
  write := toText serializeId E
  fromStr := ofText deserializeId E
  fromStr_write := ofText_toText_carried hcarried hE hquote

end Text

/-- The JSON functions over the identifiers of the two programs. -/
def peerIdCodec {varint : UnsignedVarint} {E : Escaping} (hvarint : varint.Lawful) (hE : E.Lawful)
    (hquote : E.quote = '"') : Codec NormalPeerID :=
  jsonCodec (NormalPeerID.carried hvarint) hE hquote

theorem carried_u16 (n : UInt16) : Carried (fun n => Ser.ok (u16Json n)) u16 u16Json id n where
  serialize := rfl
  deserialize := u16_u16Json n
  ne_null := by simp [u16Json]

/-- The JSON functions over identifiers that are numbers. -/
def u16Codec : Codec UInt16 := jsonCodec carried_u16 Json.lawful_escaping rfl

end SfRs.Protocol
