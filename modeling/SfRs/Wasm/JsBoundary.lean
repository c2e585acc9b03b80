import SfRs.PeerId.Capacity
/-!
# Peer identifiers in JavaScript

An identifier crosses the boundary as its binary form in a `Uint8Array`, and in an event
as its text.  The decoder that stands opposite each of these encoders expects the other
form.
-/

namespace SfRs.Wasm.JsBoundary

open SfRs.Lib SfRs.PeerId

/-- What is used of `serde_wasm_bindgen`: the values that its serialiser makes, and what its
deserialiser finds in a value.  `bytes` is what `deserialize_bytes` passes to the visitor. -/
structure SerdeWasmBindgen (JsValue : Type) where
  serializeBytes : List UInt8 → JsValue
  serializeStr : String → JsValue
  serializeStruct : List (String × JsValue) → JsValue
  string : JsValue → Except DeError String
  bytes : JsValue → Except DeError (List UInt8)
  property : JsValue → String → Except DeError JsValue

/-- Bytes become a `Uint8Array`, which is no string; a string keeps its text, and if it is
taken for bytes they are those of its text. -/
structure SerdeWasmBindgen.Lawful {JsValue : Type} (js : SerdeWasmBindgen JsValue) : Prop where
  string_bytes : ∀ b, ∃ e, js.string (js.serializeBytes b) = .error e
  bytes_bytes : ∀ b, js.bytes (js.serializeBytes b) = .ok b
  string_str : ∀ s, js.string (js.serializeStr s) = .ok s
  bytes_str : ∀ s b, js.bytes (js.serializeStr s) = .ok b → b = asBytes s
  property_struct : ∀ fields name v, fields.lookup name = some v →
    js.property (js.serializeStruct fields) name = .ok v

/-- `sf_peer_id::Error` with its variant of the wasm build. -/
inductive WasmError where
  | peerId (e : PeerId.Error)
  | serde (e : DeError)

variable {JsValue : Type}

/-! ## The identifier alone -/

/-- `From<FixedSizePeerID<S>> for JsValue`. -/
def fromPeerId (js : SerdeWasmBindgen JsValue) (varint : UnsignedVarint) (id : PeerID) :
    Outcome JsValue :=
  Outcome.bind ((id.serializedBytes varint).bind fun bytes => Ser.ok (js.serializeBytes bytes))
    Outcome.unwrap

/-- `TryFrom<JsValue> for FixedSizePeerID<S>`. -/
def tryFrom (js : SerdeWasmBindgen JsValue) (value : JsValue) :
    Outcome (Except WasmError PeerID) :=
  match js.string value with
  | .error e => .done (.error (.serde e))
  | .ok str => (fromStr 32 str).bind fun r => .done (r.mapError .peerId)

/-- `Deserialize` of an identifier. -/
def deserializePeerId (js : SerdeWasmBindgen JsValue) (varint : UnsignedVarint)
    (value : JsValue) : Except DeError PeerID := do
  visitBytes varint 32 (← js.bytes value)

/-! ## Events -/

inductive ClientEvent where
  | newPeer (peerId : PeerID)
  | message (peerId : PeerID) (message : String)
  | dataChannelOpen (peerId : PeerID)
  | dataChannelClose (peerId : PeerID)
  | dataChannelMessage (peerId : PeerID) (message : String)

/-- The variants by their fields: `peer_id` alone, or with `message`. -/
inductive Variant where
  | peer (make : PeerID → ClientEvent)
  | text (make : PeerID → String → ClientEvent)

def variantOfName : String → Option Variant
  | "NewPeer" => some (.peer .newPeer)
  | "Message" => some (.text .message)
  | "DataChannelOpen" => some (.peer .dataChannelOpen)
  | "DataChannelClose" => some (.peer .dataChannelClose)
  | "DataChannelMessage" => some (.text .dataChannelMessage)
  | _ => none

/-- `human_readable_peer_id`. -/
def humanReadablePeerId (js : SerdeWasmBindgen JsValue) (peerId : PeerID) : Ser JsValue :=
  peerId.display.bind fun text => Ser.ok (js.serializeStr text)

/-- An event as its tag `type` and its fields under `content`. -/
def tagged (js : SerdeWasmBindgen JsValue) (name : String) (fields : List (String × JsValue)) :
    JsValue :=
  js.serializeStruct
    [("type", js.serializeStr name), ("content", js.serializeStruct fields)]

def peerEvent (js : SerdeWasmBindgen JsValue) (name : String) (peerId : PeerID) : Ser JsValue :=
  (humanReadablePeerId js peerId).bind fun id => Ser.ok (tagged js name [("peer_id", id)])

def textEvent (js : SerdeWasmBindgen JsValue) (name : String) (peerId : PeerID)
    (message : String) : Ser JsValue :=
  (humanReadablePeerId js peerId).bind fun id =>
    Ser.ok (tagged js name [("peer_id", id), ("message", js.serializeStr message)])

/-- `Serialize for ClientEvent`. -/
def serializeEvent (js : SerdeWasmBindgen JsValue) : ClientEvent → Ser JsValue
  | .newPeer peerId => peerEvent js "NewPeer" peerId
  | .message peerId message => textEvent js "Message" peerId message
  | .dataChannelOpen peerId => peerEvent js "DataChannelOpen" peerId
  | .dataChannelClose peerId => peerEvent js "DataChannelClose" peerId
  | .dataChannelMessage peerId message => textEvent js "DataChannelMessage" peerId message

/-- `Deserialize for ClientEvent`. -/
def deserializeEvent (js : SerdeWasmBindgen JsValue) (varint : UnsignedVarint)
    (value : JsValue) : Except DeError ClientEvent := do
  let name ← js.string (← js.property value "type")
  match variantOfName name with
  | none => throw (.unknownVariant name)
  | some variant =>
      let content ← js.property value "content"
      let peerId ← deserializePeerId js varint (← js.property content "peer_id")
      match variant with
      | .peer make => return make peerId
      | .text make => return make peerId (← js.string (← js.property content "message"))

/-! ## What survives -/

/-- The identifier comes back from the value it was turned into. -/
def Survives (js : SerdeWasmBindgen JsValue) (varint : UnsignedVarint) (id : PeerID) : Prop :=
  ∃ value id', fromPeerId js varint id = .done value ∧ tryFrom js value = .done (.ok id') ∧
    id'.eq id = .done true

/-- The events have one variant, one message and equal identifiers. -/
def SameEvent : ClientEvent → ClientEvent → Prop
  | .newPeer a, .newPeer b => a.eq b = .done true
  | .message a s, .message b t => a.eq b = .done true ∧ s = t
  | .dataChannelOpen a, .dataChannelOpen b => a.eq b = .done true
  | .dataChannelClose a, .dataChannelClose b => a.eq b = .done true
  | .dataChannelMessage a s, .dataChannelMessage b t => a.eq b = .done true ∧ s = t
  | _, _ => False

/-- The event comes back from the value it is serialised as. -/
def EventSurvives (js : SerdeWasmBindgen JsValue) (varint : UnsignedVarint)
    (event : ClientEvent) : Prop :=
  ∃ value event', serializeEvent js event = Ser.ok value ∧
    deserializeEvent js varint value = .ok event' ∧ SameEvent event' event

variable {js : SerdeWasmBindgen JsValue} {varint : UnsignedVarint} {id : PeerID}

theorem fromPeerId_eq (hvarint : varint.Lawful) (hsize : id.size.toNat ≤ 32) :
    fromPeerId js varint id = .done (js.serializeBytes (id.encoding varint)) := by
  rw [fromPeerId, serializedBytes_of_size hsize,
    if_pos (length_encoding_small hvarint (by decide) hsize)]
  rfl

theorem fromPeerId_inv {value : JsValue} (h : fromPeerId js varint id = .done value) :
    ∃ b, value = js.serializeBytes b := by
  rw [fromPeerId] at h
  rcases hser : id.serializedBytes varint with (e | b) | _
  · rw [hser] at h
    cases h
  · rw [hser] at h
    cases h
    exact ⟨b, rfl⟩
  · rw [hser] at h
    cases h

/-- A `Uint8Array` is not a string. -/
theorem tryFrom_bytes (hjs : js.Lawful) (b : List UInt8) :
    ∃ e, tryFrom js (js.serializeBytes b) = .done (.error (.serde e)) := by
  obtain ⟨e, he⟩ := hjs.string_bytes b
  exact ⟨e, by simp only [tryFrom, he]⟩

theorem not_survives (hjs : js.Lawful) (id : PeerID) : ¬ Survives js varint id := by
  rintro ⟨value, id', hfrom, htry, -⟩
  obtain ⟨b, rfl⟩ := fromPeerId_inv hfrom
  obtain ⟨e, he⟩ := tryFrom_bytes hjs b
  rw [he] at htry
  cases htry

/-- The sibling of `TryFrom` reads the `Uint8Array`. -/
theorem deserializePeerId_fromPeerId (hjs : js.Lawful) (hvarint : varint.Lawful)
    (hsize : id.size.toNat ≤ 32) {value : JsValue} (h : fromPeerId js varint id = .done value) :
    deserializePeerId js varint value = .ok id.normal := by
  rw [fromPeerId_eq hvarint hsize] at h
  cases h
  simp only [deserializePeerId, hjs.bytes_bytes]
  exact visitBytes_encoding hvarint (by decide) hsize

/-! ## The text read as bytes -/

theorem digitByte_fin (n : Fin 16) :
    (Nat.digitChar n).toUInt8 < 128 ∧ 32 < (Nat.digitChar n).toUInt8.toNat := by
  decide +revert +kernel

/-- The first byte of a text of digits is a size beyond the capacity. -/
theorem fromBytes_hexText (hvarint : varint.Lawful) (bytes : List UInt8) :
    ∃ e, fromBytes varint 32 (asBytes (String.ofList (hexText bytes))) = .error e := by
  rcases bytes with _ | ⟨b, bytes⟩
  · have hone : varint.encodeU8 0 = [0] := hvarint.encode_small 0 (by decide)
    have htext : asBytes (String.ofList (hexText [])) = [] := rfl
    rw [htext]
    have hne : [] ≠ varint.encodeU8 0 := by simp [hone]
    exact fromBytes_truncatedVarint hvarint List.nil_prefix hne
  · have hlt : b.toNat < 256 := b.toNat_lt
    obtain ⟨hsmall, hlarge⟩ := digitByte_fin ⟨b.toNat / 16, by omega⟩
    have hascii : asBytes (String.ofList (hexText (b :: bytes))) =
        (hexText (b :: bytes)).map Char.toUInt8 :=
      asBytes_ofList_ascii fun c hc => (isLowerHex_of_mem_hexText hc).lt
    have hread := hvarint.read_encode (Nat.digitChar (b.toNat / 16)).toUInt8
      ((Nat.digitChar (b.toNat % 16)).toUInt8 :: (hexText bytes).map Char.toUInt8)
    rw [hvarint.encode_small _ hsmall, List.singleton_append] at hread
    have htext : (hexText (b :: bytes)).map Char.toUInt8 =
        (Nat.digitChar (b.toNat / 16)).toUInt8 ::
          (Nat.digitChar (b.toNat % 16)).toUInt8 :: (hexText bytes).map Char.toUInt8 := rfl
    rw [hascii, htext]
    exact ⟨_, fromBytes_of_refused hread hlarge⟩

theorem deserializePeerId_hexText (hjs : js.Lawful) (hvarint : varint.Lawful)
    (bytes : List UInt8) :
    ∃ e, deserializePeerId js varint (js.serializeStr (.ofList (hexText bytes))) = .error e := by
  rcases hbytes : js.bytes (js.serializeStr (.ofList (hexText bytes))) with e | b
  · exact ⟨e, by simp only [deserializePeerId, hbytes]; rfl⟩
  · obtain rfl := hjs.bytes_str _ _ hbytes
    obtain ⟨e, he⟩ := fromBytes_hexText hvarint bytes
    refine ⟨.custom "Failed to deserialize FixedSizePeerID", ?_⟩
    simp only [deserializePeerId, hbytes, visitBytes, bind, Except.bind, he, Except.mapError]

/-! ## Events -/

theorem display_inv {text : String} (h : id.display = .done text) :
    ∃ bytes, text = String.ofList (hexText bytes) := by
  rw [FixedSizePeerID.display] at h
  rcases hbytes : id.sizedBytes with bytes | _
  · rw [hbytes] at h
    cases h
    exact ⟨bytes, rfl⟩
  · rw [hbytes] at h
    cases h

/-- What is made of the serialised identifier is made of its text. -/
theorem humanReadablePeerId_bind {f : JsValue → JsValue} {value : JsValue}
    (h : (humanReadablePeerId js id).bind (fun v => Ser.ok (f v)) = Ser.ok value) :
    ∃ bytes, value = f (js.serializeStr (.ofList (hexText bytes))) := by
  rw [humanReadablePeerId] at h
  rcases hdisplay : id.display with text | _
  · rw [hdisplay] at h
    cases h
    obtain ⟨bytes, rfl⟩ := display_inv hdisplay
    exact ⟨bytes, rfl⟩
  · rw [hdisplay] at h
    cases h

/-- A serialised event: its fields have the text of an identifier as `peer_id`. -/
def HasTextId (js : SerdeWasmBindgen JsValue) (value : JsValue) : Prop :=
  ∃ name fields bytes, value = tagged js name fields ∧
    fields.lookup "peer_id" = some (js.serializeStr (.ofList (hexText bytes)))

theorem peerEvent_inv {name : String} {value : JsValue}
    (h : peerEvent js name id = Ser.ok value) : HasTextId js value := by
  obtain ⟨bytes, rfl⟩ := humanReadablePeerId_bind h
  exact ⟨name, _, bytes, rfl, rfl⟩

theorem textEvent_inv {name message : String} {value : JsValue}
    (h : textEvent js name id message = Ser.ok value) : HasTextId js value := by
  obtain ⟨bytes, rfl⟩ := humanReadablePeerId_bind h
  exact ⟨name, _, bytes, rfl, rfl⟩

theorem serializeEvent_inv {event : ClientEvent} {value : JsValue}
    (h : serializeEvent js event = Ser.ok value) : HasTextId js value := by
  cases event with
  | newPeer peerId => exact peerEvent_inv h
  | message peerId message => exact textEvent_inv h
  | dataChannelOpen peerId => exact peerEvent_inv h
  | dataChannelClose peerId => exact peerEvent_inv h
  | dataChannelMessage peerId message => exact textEvent_inv h

/-- Whatever the variant is, the identifier is not read. -/
theorem HasTextId.not_read (hjs : js.Lawful) (hvarint : varint.Lawful) {value : JsValue}
    (h : HasTextId js value) : ∃ e, deserializeEvent js varint value = .error e := by
  obtain ⟨name, fields, bytes, rfl, hlookup⟩ := h
  obtain ⟨e, he⟩ := deserializePeerId_hexText hjs hvarint bytes
  have htype := hjs.property_struct
    [("type", js.serializeStr name), ("content", js.serializeStruct fields)] "type" _ rfl
  have hcontent := hjs.property_struct
    [("type", js.serializeStr name), ("content", js.serializeStruct fields)] "content" _ rfl
  have hid := hjs.property_struct fields "peer_id" _ hlookup
  rcases hvariant : variantOfName name with _ | variant
  · refine ⟨.unknownVariant name, ?_⟩
    simp only [deserializeEvent, tagged, htype, bind, Except.bind, hjs.string_str, hvariant]
    rfl
  · refine ⟨e, ?_⟩
    simp only [deserializeEvent, tagged, htype, hcontent, hid, bind, Except.bind,
      hjs.string_str, hvariant, he]

theorem not_eventSurvives (hjs : js.Lawful) (hvarint : varint.Lawful) (event : ClientEvent) :
    ¬ EventSurvives js varint event := by
  rintro ⟨value, event', hserialize, hread, -⟩
  obtain ⟨e, he⟩ := (serializeEvent_inv hserialize).not_read hjs hvarint
  rw [he] at hread
  cases hread

/-- No identifier and no event comes back from JavaScript. -/
theorem not_survives_boundary (hjs : js.Lawful) (hvarint : varint.Lawful) :
    (∀ id, ¬ Survives js varint id) ∧ ∀ event, ¬ EventSurvives js varint event :=
  ⟨not_survives hjs, not_eventSurvives hjs hvarint⟩

/-! ## A value type -/

inductive JsVal where
  | undefined
  | string (s : String)
  | uint8Array (b : List UInt8)
  | object (fields : List (String × JsVal))

/-- `serde_wasm_bindgen` on strings, byte arrays and objects. -/
def jsVal : SerdeWasmBindgen JsVal where
  serializeBytes := .uint8Array
  serializeStr := .string
  serializeStruct := .object
  string
    | .string s => .ok s
    | _ => .error .invalidType
  bytes
    | .uint8Array b => .ok b
    | .string s => .ok (asBytes s)
    | _ => .error .invalidType
  property
    | .object fields, name => .ok ((fields.lookup name).getD .undefined)
    | _, _ => .error .invalidType

theorem lawful_jsVal : jsVal.Lawful := by
  constructor
  · exact fun b => ⟨.invalidType, rfl⟩
  · exact fun b => rfl
  · exact fun s => rfl
  · intro s b h
    cases h
    rfl
  · intro fields name v h
    simp only [jsVal, h, Option.getD_some]

theorem not_survives_boundary_jsVal :
    (∀ id, ¬ Survives jsVal leb128 id) ∧ ∀ event, ¬ EventSurvives jsVal leb128 event :=
  not_survives_boundary lawful_jsVal lawful_leb128

/-- The identifier `ab`, and the event that announces it, are encoded and then refused. -/
theorem not_survives_ab :
    (fromPeerId jsVal leb128 (.ofByte 0xab) = .done (.uint8Array [1, 0xab]) ∧
      ¬ Survives jsVal leb128 (.ofByte 0xab)) ∧
    serializeEvent jsVal (.newPeer (.ofByte 0xab)) =
        Ser.ok (.object [("type", .string "NewPeer"),
          ("content", .object [("peer_id", .string "ab")])]) ∧
      ¬ EventSurvives jsVal leb128 (.newPeer (.ofByte 0xab)) :=
  ⟨⟨rfl, not_survives lawful_jsVal _⟩, rfl,
    not_eventSurvives lawful_jsVal lawful_leb128 _⟩

end SfRs.Wasm.JsBoundary
