import SfRs.Protocol.Serde
import SfRs.Server.ProcessWs
/-!
# What a peer reads

The loop of a connection with the JSON functions of the protocol.  A peer that parses the
frames written to it gets the requests of its channel, in order.
-/

namespace SfRs.Server

open SfRs.Lib SfRs.Protocol SfRs.PeerId

variable {varint : UnsignedVarint} {E : Escaping}

/-- `serde_json::to_string(&*event)`, with `None` for an error. -/
def writeJson (varint : UnsignedVarint) (E : Escaping) (request : PeerRequest PeerID) :
    Option String :=
  match request.toText varint E with
  | .done (.ok text) => some text
  | _ => none

/-- `serde_json::from_str::<PeerRequest>(&raw)` -/
def readJson (varint : UnsignedVarint) (E : Escaping) (raw : String) :
    Option (PeerRequest PeerID) :=
  (PeerRequest.ofText varint E raw).toOption

/-- The loop of the handler with the given id. -/
def jsonParams (varint : UnsignedVarint) (E : Escaping) (id : PeerID) (capacity : Nat) :
    LoopParams PeerID where
  id := id
  capacity := capacity
  toString := writeJson varint E
  fromStr := readJson varint E

/-- The ids of the request are of a size that `PeerID` allows. -/
def Sized (request : PeerRequest PeerID) : Prop :=
  ∀ id ∈ request.peerIds, id.size.toNat ≤ 32

/-- The frame is read as a request that is equal to the given one. -/
def ReadsAs (varint : UnsignedVarint) (E : Escaping) (text : String)
    (request : PeerRequest PeerID) : Prop :=
  ∃ read, readJson varint E text = some read ∧
    read.eq FixedSizePeerID.eq request = .done true

/-- What is written of a request is read as that request. -/
theorem readsAs_of_writeJson (hvarint : varint.Lawful) (hE : E.Lawful) (hquote : E.quote = '"')
    {request : PeerRequest PeerID} (hsized : Sized request) {text : String}
    (hwritten : writeJson varint E request = some text) : ReadsAs varint E text request := by
  obtain ⟨read, hread, heq⟩ := exists_read hvarint hE hquote hsized
  have htext : writeJson varint E request =
      some ((request.toJson fun id => bytesJson (id.encoding varint)).toText E) := by
    rw [writeJson, toText_eq hvarint hsized]
    rfl
  obtain rfl := Option.some.inj (htext.symm.trans hwritten)
  exact ⟨read, by rw [readJson, hread]; rfl, heq⟩

/-- Whatever its socket yields, the frames written to a peer are read as the first requests
of its channel. -/
theorem run_readsAs (hvarint : varint.Lawful) (hE : E.Lawful) (hquote : E.quote = '"')
    {id : PeerID} {capacity : Nat} {items : List ReadItem}
    {requests : List (PeerRequest PeerID)} (hsized : ∀ request ∈ requests, Sized request)
    {ls : List LoopAction} {s : LoopState PeerID} {tr : List (LoopEvent PeerID)}
    (hrun : (processWs (jsonParams varint E id capacity) items requests).Run ls s tr) :
    ∃ sent, sent <+: requests ∧
      List.Forall₂ (fun request text => ReadsAs varint E text request) sent (frames tr) := by
  obtain ⟨sent, hsent, htexts⟩ := exists_sent (writerSide_of_run hrun)
  have hwritten : List.Forall₂ (fun request text => writeJson varint E request = some text)
      sent (frames tr) := by
    have hmaps : List.Forall₂ Eq (sent.map (writeJson varint E)) ((frames tr).map some) := by
      rw [List.forall₂_eq_eq_eq]
      exact htexts
    rwa [List.forall₂_map_left_iff, List.forall₂_map_right_iff] at hmaps
  have hboth := (List.forall₂_and_left sent (frames tr)).mpr
    ⟨fun request hmem => hsized request (hsent.subset hmem), hwritten⟩
  exact ⟨sent, hsent, hboth.imp fun _ _ h => readsAs_of_writeJson hvarint hE hquote h.1 h.2⟩

end SfRs.Server
