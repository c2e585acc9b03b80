import SfRs.Lib.Serde
import SfRs.PeerId.Serde
import SfRs.Protocol
/-!
# The protocol in JSON

The derived representation of requests and events, with peer identifiers written and read
by a serialiser of their own.
-/

namespace SfRs.Protocol

open SfRs.Lib
open SfRs.Lib.Serde

/-! ## Session descriptions and candidates -/

namespace SdpType

def name : SdpType → String
  | offer => "Offer"
  | answer => "Answer"
  | pranswer => "Pranswer"
  | rollback => "Rollback"

def ofName : String → Except DeError SdpType
  | "Offer" => .ok offer
  | "Answer" => .ok answer
  | "Pranswer" => .ok pranswer
  | "Rollback" => .ok rollback
  | name => .error (.unknownVariant name)

def toJson (t : SdpType) : Json := .string t.name

def ofJson : Deserialize SdpType := fun v => do
  let (name, contents) ← variant v
  let t ← ofName name
  unitVariant contents
  return t

end SdpType

namespace SessionDescription

def toJson (d : SessionDescription) : Json :=
  .object [("sdp", .string d.sdp), ("sdp_type", d.sdpType.toJson)]

def ofJson : Deserialize SessionDescription := fun v => do
  let fields ← structFields ["sdp", "sdp_type"] v
  return {
    sdp := ← required "sdp" string fields
    sdpType := ← required "sdp_type" SdpType.ofJson fields }

end SessionDescription

def u16 : Deserialize UInt16 := fun v => (unsigned 65536 v).map UInt16.ofNat

def u16Json (n : UInt16) : Json := .number n.toNat

namespace IceCandidate

def toJson (c : IceCandidate) : Json :=
  .object [("candidate", optionJson .string c.candidate),
    ("sdp_m_line_index", optionJson u16Json c.sdpMLineIndex),
    ("sdp_mid", optionJson .string c.sdpMid)]

def ofJson : Deserialize IceCandidate := fun v => do
  let fields ← structFields ["candidate", "sdp_m_line_index", "sdp_mid"] v
  return {
    candidate := ← Serde.optional "candidate" string fields
    sdpMLineIndex := ← Serde.optional "sdp_m_line_index" u16 fields
    sdpMid := ← Serde.optional "sdp_mid" string fields }

end IceCandidate

/-! ## Events and requests -/

section Codec

variable {P : Type} (serializeId : P → Ser Json) (deserializeId : Deserialize P)

def PeerEvent.serialize : PeerEvent P → Ser Json
  | .newPeer peerId =>
      (serializeId peerId).bind fun id => Ser.ok (tagged "new_peer" [("peer_id", id)])
  | .message peerId text =>
      (serializeId peerId).bind fun id =>
        Ser.ok (tagged "message" [("peer_id", id), ("message", .string text)])
  | .webRtcOffer peerId sessionDescription =>
      (serializeId peerId).bind fun id =>
        Ser.ok (tagged "web_rtc_offer"
          [("peer_id", id), ("session_description", sessionDescription.toJson)])
  | .webRtcCandidate peerId candidate =>
      (serializeId peerId).bind fun id =>
        Ser.ok (tagged "web_rtc_candidate"
          [("peer_id", id), ("candidate", candidate.toJson)])

def PeerEvent.deserialize : Deserialize (PeerEvent P) := fun v => do
  let (name, contents) ← variant v
  match name with
  | "new_peer" => do
      let fields ← structVariant ["peer_id"] contents
      return .newPeer (← required "peer_id" deserializeId fields)
  | "message" => do
      let fields ← structVariant ["peer_id", "message"] contents
      return .message (← required "peer_id" deserializeId fields)
        (← required "message" string fields)
  | "web_rtc_offer" => do
      let fields ← structVariant ["peer_id", "session_description"] contents
      return .webRtcOffer (← required "peer_id" deserializeId fields)
        (← required "session_description" SessionDescription.ofJson fields)
  | "web_rtc_candidate" => do
      let fields ← structVariant ["peer_id", "candidate"] contents
      return .webRtcCandidate (← required "peer_id" deserializeId fields)
        (← required "candidate" IceCandidate.ofJson fields)
  | name => throw (.unknownVariant name)

def serializeOption : Option P → Ser Json
  | none => Ser.ok .null
  | some id => serializeId id

def PeerRequest.serialize : PeerRequest P → Ser Json
  | .keepAlive => Ser.ok (.string "keep_alive")
  | .forward fromPeerId toPeerId data =>
      (serializeId fromPeerId).bind fun sender =>
        (serializeOption serializeId toPeerId).bind fun receiver =>
          (data.serialize serializeId).bind fun data =>
            Ser.ok (tagged "forward"
              [("from_peer_id", sender), ("to_peer_id", receiver), ("data", data)])

def PeerRequest.deserialize : Deserialize (PeerRequest P) := fun v => do
  let (name, contents) ← variant v
  match name with
  | "keep_alive" => do
      unitVariant contents
      return .keepAlive
  | "forward" => do
      let fields ← structVariant ["from_peer_id", "to_peer_id", "data"] contents
      return .forward (← required "from_peer_id" deserializeId fields)
        (← Serde.optional "to_peer_id" deserializeId fields)
        (← required "data" (PeerEvent.deserialize deserializeId) fields)
  | name => throw (.unknownVariant name)

end Codec

/-! ## Equality -/

section Eq

variable {P : Type} (eqId : P → P → Outcome Bool)

/-- `a && b`. -/
def both (a b : Outcome Bool) : Outcome Bool :=
  a.bind fun r => if r then b else .done false

def eqOption : Option P → Option P → Outcome Bool
  | none, none => .done true
  | some id, some id' => eqId id id'
  | _, _ => .done false

/-- The derived `PartialEq`. -/
def PeerEvent.eq : PeerEvent P → PeerEvent P → Outcome Bool
  | .newPeer p, .newPeer p' => eqId p p'
  | .message p m, .message p' m' => both (eqId p p') (.done (m = m'))
  | .webRtcOffer p d, .webRtcOffer p' d' => both (eqId p p') (.done (d = d'))
  | .webRtcCandidate p c, .webRtcCandidate p' c' => both (eqId p p') (.done (c = c'))
  | _, _ => .done false

def PeerRequest.eq : PeerRequest P → PeerRequest P → Outcome Bool
  | .keepAlive, .keepAlive => .done true
  | .forward f₁ t₁ d₁, .forward f₂ t₂ d₂ =>
      both (both (eqId f₁ f₂) (eqOption eqId t₁ t₂)) (d₁.eq eqId d₂)
  | _, _ => .done false

end Eq

/-! ## What is written is read -/

theorem SdpType.ofJson_toJson (t : SdpType) : SdpType.ofJson t.toJson = .ok t := by
  cases t <;> rfl

theorem SessionDescription.ofJson_toJson (d : SessionDescription) :
    SessionDescription.ofJson d.toJson = .ok d := by
  simp [SessionDescription.ofJson, SessionDescription.toJson, required, field,
    SdpType.ofJson_toJson, bind, Except.bind, pure, Except.pure]

theorem u16_u16Json (n : UInt16) : u16 (u16Json n) = .ok n := by
  have hlt : n.toNat < 65536 := n.toNat_lt
  simp only [u16, u16Json, unsigned, hlt, if_true, Except.map, UInt16.ofNat_toNat]

theorem option_string (s : Option String) : option string (optionJson .string s) = .ok s := by
  cases s <;> rfl

theorem option_u16 (n : Option UInt16) : option u16 (optionJson u16Json n) = .ok n := by
  rw [option_optionJson (fun n _ => u16_u16Json n) (fun n _ => by simp [u16Json])]
  simp

theorem IceCandidate.ofJson_toJson (c : IceCandidate) :
    IceCandidate.ofJson c.toJson = .ok c := by
  simp [IceCandidate.ofJson, IceCandidate.toJson, Serde.optional, field, option_string,
    option_u16, bind, Except.bind, pure, Except.pure]

section RoundTrip

variable {P : Type} {serializeId : P → Ser Json} {deserializeId : Deserialize P}
  {write : P → Json} {norm : P → P}

/-- The identifier is written as `write` says and read as its normal form. -/
structure Carried (serializeId : P → Ser Json) (deserializeId : Deserialize P)
    (write : P → Json) (norm : P → P) (id : P) : Prop where
  serialize : serializeId id = Ser.ok (write id)
  deserialize : deserializeId (write id) = .ok (norm id)
  ne_null : write id ≠ .null

namespace PeerEvent

def peerId : PeerEvent P → P
  | newPeer p | message p _ | webRtcOffer p _ | webRtcCandidate p _ => p

def map (norm : P → P) : PeerEvent P → PeerEvent P
  | newPeer p => newPeer (norm p)
  | message p m => message (norm p) m
  | webRtcOffer p d => webRtcOffer (norm p) d
  | webRtcCandidate p c => webRtcCandidate (norm p) c

/-- The document of an event. -/
def toJson (write : P → Json) : PeerEvent P → Json
  | newPeer p => tagged "new_peer" [("peer_id", write p)]
  | message p m => tagged "message" [("peer_id", write p), ("message", .string m)]
  | webRtcOffer p d =>
      tagged "web_rtc_offer" [("peer_id", write p), ("session_description", d.toJson)]
  | webRtcCandidate p c =>
      tagged "web_rtc_candidate" [("peer_id", write p), ("candidate", c.toJson)]

theorem serialize_eq {e : PeerEvent P}
    (h : Carried serializeId deserializeId write norm e.peerId) :
    e.serialize serializeId = Ser.ok (e.toJson write) := by
  have hid := h.serialize
  cases e <;> simp only [peerId] at hid <;> simp [PeerEvent.serialize, hid, toJson]

theorem deserialize_toJson {e : PeerEvent P}
    (h : Carried serializeId deserializeId write norm e.peerId) :
    PeerEvent.deserialize deserializeId (e.toJson write) = .ok (e.map norm) := by
  have hid := h.deserialize
  cases e with
  | newPeer p =>
      simp only [peerId] at hid
      simp [PeerEvent.deserialize, toJson, required, field, hid, map, bind, Except.bind, pure,
        Except.pure]
  | message p m =>
      simp only [peerId] at hid
      simp [PeerEvent.deserialize, toJson, required, field, hid, map, bind, Except.bind, pure,
        Except.pure]
  | webRtcOffer p d =>
      simp only [peerId] at hid
      simp [PeerEvent.deserialize, toJson, required, field, hid, map,
        SessionDescription.ofJson_toJson, bind, Except.bind, pure, Except.pure]
  | webRtcCandidate p c =>
      simp only [peerId] at hid
      simp [PeerEvent.deserialize, toJson, required, field, hid, map,
        IceCandidate.ofJson_toJson, bind, Except.bind, pure, Except.pure]

theorem map_id (e : PeerEvent P) : e.map id = e := by
  cases e <;> rfl

/-- Events that are mapped to one event are equal. -/
theorem eq_of_map_eq {eqId : P → P → Outcome Bool} {f g : P → P} {e e' : PeerEvent P}
    (hid : f e.peerId = g e'.peerId → eqId e.peerId e'.peerId = .done true)
    (h : e.map f = e'.map g) : e.eq eqId e' = .done true := by
  cases e <;> cases e' <;> simp_all [map, peerId, PeerEvent.eq, both]

end PeerEvent

namespace PeerRequest

def peerIds : PeerRequest P → List P
  | keepAlive => []
  | forward fromPeerId toPeerId data => fromPeerId :: (toPeerId.toList ++ [data.peerId])

def map (norm : P → P) : PeerRequest P → PeerRequest P
  | keepAlive => keepAlive
  | forward fromPeerId toPeerId data =>
      forward (norm fromPeerId) (toPeerId.map norm) (data.map norm)

/-- The document of a request. -/
def toJson (write : P → Json) : PeerRequest P → Json
  | keepAlive => .string "keep_alive"
  | forward fromPeerId toPeerId data =>
      tagged "forward" [("from_peer_id", write fromPeerId),
        ("to_peer_id", optionJson write toPeerId), ("data", data.toJson write)]

theorem serializeOption_eq {id : Option P}
    (h : ∀ p ∈ id, Carried serializeId deserializeId write norm p) :
    serializeOption serializeId id = Ser.ok (optionJson write id) := by
  cases id with
  | none => rfl
  | some p => exact (h p rfl).serialize

variable {r r' : PeerRequest P}

theorem forall_mem_peerIds_forward {C : P → Prop} {fromPeerId : P} {toPeerId : Option P}
    {data : PeerEvent P} :
    (∀ p ∈ (forward fromPeerId toPeerId data).peerIds, C p) ↔
      C fromPeerId ∧ (∀ p ∈ toPeerId, C p) ∧ C data.peerId := by
  simp only [peerIds, List.mem_cons, List.mem_append, Option.mem_toList, List.not_mem_nil,
    or_false, or_imp, forall_and, forall_eq]
  rfl

theorem serialize_eq (h : ∀ p ∈ r.peerIds, Carried serializeId deserializeId write norm p) :
    r.serialize serializeId = Ser.ok (r.toJson write) := by
  cases r with
  | keepAlive => rfl
  | forward fromPeerId toPeerId data =>
      obtain ⟨hfrom, hto, hdata⟩ := forall_mem_peerIds_forward.mp h
      simp [PeerRequest.serialize, hfrom.serialize, serializeOption_eq hto,
        PeerEvent.serialize_eq hdata, toJson]

theorem deserialize_toJson
    (h : ∀ p ∈ r.peerIds, Carried serializeId deserializeId write norm p) :
    PeerRequest.deserialize deserializeId (r.toJson write) = .ok (r.map norm) := by
  cases r with
  | keepAlive => rfl
  | forward fromPeerId toPeerId data =>
      obtain ⟨hfrom, hto, hdata⟩ := forall_mem_peerIds_forward.mp h
      have hoption := option_optionJson (fun p hp => (hto p hp).deserialize)
        fun p hp => (hto p hp).ne_null
      simp [PeerRequest.deserialize, toJson, required, Serde.optional, field,
        hfrom.deserialize, hoption, PeerEvent.deserialize_toJson hdata, map, bind, Except.bind,
        pure, Except.pure]

theorem map_id (r : PeerRequest P) : r.map id = r := by
  cases r with
  | keepAlive => rfl
  | forward fromPeerId toPeerId data => simp [map, PeerEvent.map_id]

/-- Requests that are mapped to one request are equal. -/
theorem eq_of_map_eq {eqId : P → P → Outcome Bool} {f g : P → P}
    (hid : ∀ p ∈ r.peerIds, ∀ p' ∈ r'.peerIds, f p = g p' → eqId p p' = .done true)
    (h : r.map f = r'.map g) : r.eq eqId r' = .done true := by
  cases r with
  | keepAlive =>
      cases r' with
      | keepAlive => rfl
      | forward f t d => simp [map] at h
  | forward p t d =>
      cases r' with
      | keepAlive => simp [map] at h
      | forward p' t' d' =>
          simp only [map, forward.injEq] at h
          obtain ⟨hp, ht, hd⟩ := h
          have hsender : eqId p p' = .done true :=
            hid p (by simp [peerIds]) p' (by simp [peerIds]) hp
          have hreceiver : eqOption eqId t t' = .done true := by
            cases t with
            | none =>
                cases t' with
                | none => rfl
                | some q' => simp at ht
            | some q =>
                cases t' with
                | none => simp at ht
                | some q' =>
                    exact hid q (by simp [peerIds]) q' (by simp [peerIds]) (by simpa using ht)
          have hdata : d.eq eqId d' = .done true :=
            PeerEvent.eq_of_map_eq
              (hid d.peerId (by simp [peerIds]) d'.peerId (by simp [peerIds])) hd
          simp [PeerRequest.eq, both, hsender, hreceiver, hdata]

end PeerRequest

end RoundTrip

/-! ## The wire format -/

section Wire

open SfRs.PeerId

variable (varint : UnsignedVarint) (E : Escaping)

/-- `serde_json::to_string`. -/
def PeerRequest.toText (r : PeerRequest PeerID) : Ser String :=
  (r.serialize (FixedSizePeerID.serialize varint)).bind fun v => Ser.ok (v.toText E)

/-- `serde_json::from_str` on compact documents, which are all that `toText` writes. -/
def PeerRequest.ofText (text : String) : Except DeError (PeerRequest PeerID) :=
  match Json.ofText E text with
  | some v => PeerRequest.deserialize (FixedSizePeerID.deserialize varint 32) v
  | none => .error .text

variable {varint E}

theorem carried_peerId (hvarint : varint.Lawful) {id : PeerID} (hsize : id.size.toNat ≤ 32) :
    Carried (FixedSizePeerID.serialize varint) (FixedSizePeerID.deserialize varint 32)
      (fun id : PeerID => bytesJson (id.encoding varint)) FixedSizePeerID.normal id where
  serialize := PeerId.serialize_eq hvarint (by decide) hsize
  deserialize := deserialize_encoding hvarint (by decide) hsize
  ne_null := by simp [bytesJson]

/-- What the wire format promises of a request. -/
structure Wire (varint : UnsignedVarint) (E : Escaping) (r : PeerRequest PeerID)
    (text : String) : Prop where
  writes : r.toText varint E = Ser.ok text
  reads : ∃ read, PeerRequest.ofText varint E text = .ok read ∧
    read.eq FixedSizePeerID.eq r = .done true
  own : ∀ r' : PeerRequest PeerID, (∀ id ∈ r'.peerIds, id.size.toNat ≤ 32) →
    r'.toText varint E = Ser.ok text → r'.eq FixedSizePeerID.eq r = .done true

theorem toText_eq (hvarint : varint.Lawful) {r : PeerRequest PeerID}
    (hr : ∀ id ∈ r.peerIds, id.size.toNat ≤ 32) :
    r.toText varint E =
      Ser.ok ((r.toJson fun id => bytesJson (id.encoding varint)).toText E) := by
  rw [PeerRequest.toText,
    PeerRequest.serialize_eq fun id hid => carried_peerId hvarint (hr id hid), Ser.ok_bind]

theorem ofText_toText (hvarint : varint.Lawful) (hE : E.Lawful) (hquote : E.quote = '"')
    {r : PeerRequest PeerID} (hr : ∀ id ∈ r.peerIds, id.size.toNat ≤ 32) :
    PeerRequest.ofText varint E
        ((r.toJson fun id => bytesJson (id.encoding varint)).toText E) =
      .ok (r.map FixedSizePeerID.normal) := by
  rw [PeerRequest.ofText, Json.ofText_toText hE hquote]
  exact PeerRequest.deserialize_toJson fun id hid => carried_peerId hvarint (hr id hid)

/-- The text of a request reads as an equal request. -/
theorem exists_read (hvarint : varint.Lawful) (hE : E.Lawful) (hquote : E.quote = '"')
    {r : PeerRequest PeerID} (hr : ∀ id ∈ r.peerIds, id.size.toNat ≤ 32) :
    ∃ read, PeerRequest.ofText varint E
        ((r.toJson fun id => bytesJson (id.encoding varint)).toText E) = .ok read ∧
      read.eq FixedSizePeerID.eq r = .done true := by
  refine ⟨_, ofText_toText hvarint hE hquote hr, ?_⟩
  refine PeerRequest.eq_of_map_eq (g := FixedSizePeerID.normal) (fun p _ p' hp' hpp => ?_)
    (PeerRequest.map_id _)
  rw [id_eq] at hpp
  subst hpp
  exact eq_padded (hr p' hp')

/-- Every request over identifiers of at most 32 bytes is written to a text that reads back
as an equal request, and that no unequal request is written to. -/
theorem exists_wire (hvarint : varint.Lawful) (hE : E.Lawful) (hquote : E.quote = '"')
    (r : PeerRequest PeerID) (hr : ∀ id ∈ r.peerIds, id.size.toNat ≤ 32) :
    ∃ text, Wire varint E r text := by
  refine ⟨_, toText_eq hvarint hr, exists_read hvarint hE hquote hr, ?_⟩
  intro r' hr' htext
  rw [toText_eq hvarint hr'] at htext
  have hsame : r'.map FixedSizePeerID.normal = r.map FixedSizePeerID.normal := by
    have hread := ofText_toText hvarint hE hquote hr'
    have hjson : Json.toText E (r'.toJson fun id => bytesJson (id.encoding varint)) =
        Json.toText E (r.toJson fun id => bytesJson (id.encoding varint)) := by
      simpa [Ser.ok] using htext
    rw [hjson, ofText_toText hvarint hE hquote hr] at hread
    exact (Except.ok.inj hread).symm
  exact PeerRequest.eq_of_map_eq
    (fun p hp p' hp' heq => eq_of_normal_eq (hr' p hp) (hr p' hp') heq) hsame

/-- An offer with a newline in it, from an identifier of 32 bytes to one of none. -/
theorem exists_wire_offer :
    ∃ text, Wire leb128 Json.escaping
      (.forward ⟨32, Vector.replicate 32 255⟩ (some ⟨0, Vector.replicate 32 9⟩)
        (.webRtcOffer (FixedSizePeerID.ofByte 1) { sdp := "v=0\r\n\"", sdpType := .offer }))
      text :=
  exists_wire lawful_leb128 Json.lawful_escaping rfl _ (by decide)

example : (PeerRequest.forward (.ofByte 1) none (.newPeer (.ofByte 1))).toText leb128
    Json.escaping = Ser.ok ("\x7b\"forward\":\x7b\"from_peer_id\":[1,1],\"to_peer_id\":null," ++
      "\"data\":\x7b\"new_peer\":\x7b\"peer_id\":[1,1]\x7d\x7d\x7d\x7d") := rfl

end Wire

end SfRs.Protocol
