import Mathlib.Logic.Function.Basic
import SfRs.Lib.Machine
import SfRs.Wasm.PeerConnection
/-!
# The browser client

One `Client` with its `PeerManager`.  JavaScript runs one task at a time, so a step is
the code between two awaits: a call of `connect_to_peer`, a `make_offer` resumed with
the settled promise, the reader loop taking the next request, or the reader loop
resumed.  The reader loop awaits the handler of a request before it reads on, so at
most one request is being handled; any number of `make_offer` run beside it.

`Peer::new` and `create_data_channel` await nothing, so `get_or_create_peer` is part of
the step that calls it.
-/

set_option linter.unusedSectionVars false

namespace SfRs.Wasm

open SfRs.Lib SfRs.Protocol

inductive JsError (PeerID : Type) where
  | alreadyEstablished
  | notInitialized
  | peerNotFound (peerId : PeerID)
  | remoteDescriptionNotSet
  | addIceCandidate (error : WebRTCError)
  | webRtc (error : WebRTCError)
  deriving DecidableEq

inductive ClientEvent (PeerID : Type) where
  | newPeer (peerId : PeerID)
  | message (peerId : PeerID) (message : String)
  deriving DecidableEq

/-- A running `make_offer`, by the call it makes next. -/
inductive MakeOffer where
  | createOffer
  | setLocalDescription (sessionDescription : SessionDescription)
  | sendPeerRequest (sessionDescription : SessionDescription)
  deriving DecidableEq

/-- A running `handle_offer` or `handle_candidate`, by the promise it awaits. -/
inductive Handling where
  | setRemoteDescription (offer : SessionDescription)
  | createAnswer
  | setLocalDescription (localDescription : SessionDescription)
  | sendPeerRequest (localDescription : SessionDescription)
  | addIceCandidate
  deriving DecidableEq

/-- `gathering`: the task that sends the local candidates has not ended. -/
structure Peer where
  pc : PeerConnection
  gathering : Bool
  deriving DecidableEq

def Peer.new : Peer := ⟨.newDefault, true⟩

structure Client (PeerID : Type) where
  ws : Bool
  peers : PeerID → Option Peer
  knownPeerIds : List PeerID
  offers : PeerID → List MakeOffer
  reader : Option (PeerID × Handling)

/-- What a client does that others can see. -/
inductive Event (PeerID : Type) where
  | sent (request : PeerRequest PeerID)
  | addedIceCandidate (peerId : PeerID) (candidate : IceCandidate)
  | notified (event : ClientEvent PeerID)
  | failed (error : JsError PeerID)
  deriving DecidableEq

/-- What the browser decides when a promise settles: the text of a new description,
whether a remote offer rolls a local one back, and whether a candidate is accepted. -/
structure Settled where
  sdp : String
  rollsBack : Bool
  accepts : Bool

inductive Action (PeerID : Type) where
  | connect
  | connectToPeer (peerId : PeerID)
  | makeOffer (peerId : PeerID) (task : Nat) (settled : Settled)
  | receive (request : PeerRequest PeerID)
  | handle (settled : Settled)
  | gather (peerId : PeerID) (candidate : IceCandidate)

variable {PeerID : Type}

def JsError.message [ToString PeerID] : JsError PeerID → String
  | .alreadyEstablished => "WebSocket connection already established"
  | .notInitialized => "WebSocket is not initialized"
  | .peerNotFound peerId => s!"Peer not found to handle candidate: {peerId}"
  | .remoteDescriptionNotSet => "Remote description not set"
  | .addIceCandidate (.jsError value) => s!"Failed to add ICE candidate: JsError({value})"
  | .addIceCandidate .endOfCandidates => "Failed to add ICE candidate: EndOfCandidates"
  | .webRtc (.jsError value) => s!"JavaScript error: {value}"
  | .webRtc .endOfCandidates => "End of candidates"

namespace Client

def new : Client PeerID := ⟨false, fun _ => none, [], fun _ => [], none⟩

/-- The connection to a peer; the one `Peer::new` makes when there is none yet. -/
def conn (c : Client PeerID) (peerId : PeerID) : PeerConnection :=
  ((c.peers peerId).map Peer.pc).getD .newDefault

def setReader (c : Client PeerID) (reader : Option (PeerID × Handling)) : Client PeerID :=
  { c with reader := reader }

variable [DecidableEq PeerID]

def setPeer (c : Client PeerID) (peerId : PeerID) (peer : Peer) : Client PeerID :=
  { c with peers := Function.update c.peers peerId (some peer) }

def setOffers (c : Client PeerID) (peerId : PeerID) (tasks : List MakeOffer) :
    Client PeerID :=
  { c with offers := Function.update c.offers peerId tasks }

def addKnownPeerId (c : Client PeerID) (peerId : PeerID) : Client PeerID :=
  if peerId ∈ c.knownPeerIds then c
  else { c with knownPeerIds := c.knownPeerIds ++ [peerId] }

/-- `PeerManager::add_peer`. -/
def addPeer (c : Client PeerID) (peerId : PeerID) (peer : Peer) : Client PeerID :=
  (c.setPeer peerId peer).addKnownPeerId peerId

def getOrCreatePeer (c : Client PeerID) (peerId : PeerID) :
    Except (JsError PeerID) (Client PeerID × Peer × List (Event PeerID)) :=
  match c.peers peerId with
  | some peer => .ok (c, peer, [])
  | none =>
      if c.ws then
        .ok (c.addPeer peerId .new, .new, [.notified (.newPeer peerId)])
      else .error .notInitialized

def connect (c : Client PeerID) : Client PeerID × List (Event PeerID) :=
  if c.ws then (c, [.failed .alreadyEstablished]) else ({ c with ws := true }, [])

def connectToPeer (c : Client PeerID) (peerId : PeerID) :
    Client PeerID × List (Event PeerID) :=
  match c.getOrCreatePeer peerId with
  | .ok (c', _, es) => (c'.setOffers peerId (c'.offers peerId ++ [.createOffer]), es)
  | .error e => (c, [.failed e])

/-- One step of the `task`-th running `make_offer` for a peer. -/
def makeOffer (host : PeerID) (c : Client PeerID) (peerId : PeerID) (task : Nat)
    (settled : Settled) : Option (Client PeerID × List (Event PeerID)) :=
  match c.peers peerId, (c.offers peerId)[task]? with
  | some peer, some .createOffer =>
      match peer.pc.createOffer settled.sdp with
      | .ok d =>
          some (c.setOffers peerId ((c.offers peerId).set task (.setLocalDescription d)), [])
      | .error e =>
          some (c.setOffers peerId ((c.offers peerId).eraseIdx task), [.failed (.webRtc e)])
  | some peer, some (.setLocalDescription d) =>
      match peer.pc.setLocalDescription d with
      | .ok pc =>
          some ((c.setPeer peerId { peer with pc := pc }).setOffers peerId
            ((c.offers peerId).set task (.sendPeerRequest d)), [])
      | .error e =>
          some (c.setOffers peerId ((c.offers peerId).eraseIdx task), [.failed (.webRtc e)])
  | some _, some (.sendPeerRequest d) =>
      some (c.setOffers peerId ((c.offers peerId).eraseIdx task),
        [.sent (.forward host (some peerId) (.webRtcOffer peerId d))])
  | _, _ => none

/-- The second half of `handle_offer`: only an offer is answered. -/
def answerOffer (c : Client PeerID) (peerId : PeerID) (offer : SessionDescription) :
    Client PeerID :=
  c.setReader (if offer.sdpType = .offer then some (peerId, .createAnswer) else none)

/-- `Peer::handle_offer` up to its first await. -/
def handleOffer (c : Client PeerID) (peerId : PeerID) (peer : Peer)
    (offer : SessionDescription) : Client PeerID :=
  if peer.pc.remoteDescription = none then
    c.setReader (some (peerId, .setRemoteDescription offer))
  else c.answerOffer peerId offer

def handleWebRtcOffer (c : Client PeerID) (peerId : PeerID)
    (sessionDescription : SessionDescription) : Client PeerID × List (Event PeerID) :=
  match c.getOrCreatePeer peerId with
  | .ok (c', peer, es) => (c'.handleOffer peerId peer sessionDescription, es)
  | .error e => (c, [.failed e])

/-- The conversion to `RtcIceCandidate`, whose constructor wants a media line. -/
def iceCandidateToWebSys (candidate : IceCandidate) : Except WebRTCError Unit :=
  if candidate.isEndOfCandidates then .error .endOfCandidates
  else if candidate.sdpMid = none ∧ candidate.sdpMLineIndex = none then
    .error (.jsError "TypeError")
  else .ok ()

/-- `Peer::handle_candidate` up to its first await. -/
def handleCandidate (c : Client PeerID) (peerId : PeerID) (peer : Peer)
    (candidate : IceCandidate) : Client PeerID × List (Event PeerID) :=
  if peer.pc.remoteDescription = none then (c, [.failed .remoteDescriptionNotSet])
  else
    match iceCandidateToWebSys candidate with
    | .ok () =>
        (c.setReader (some (peerId, .addIceCandidate)), [.addedIceCandidate peerId candidate])
    | .error e =>
        (c, [.addedIceCandidate peerId candidate, .failed (.addIceCandidate e)])

def handleWebRtcCandidate (c : Client PeerID) (peerId : PeerID) (candidate : IceCandidate) :
    Client PeerID × List (Event PeerID) :=
  match c.peers peerId with
  | some peer => c.handleCandidate peerId peer candidate
  | none => (c, [.failed (.peerNotFound peerId)])

def handlePeerEvent (c : Client PeerID) (fromPeerId : PeerID) :
    PeerEvent PeerID → Client PeerID × List (Event PeerID)
  | .newPeer peerId => (c.addKnownPeerId peerId, [.notified (.newPeer peerId)])
  | .message _ message => (c, [.notified (.message fromPeerId message)])
  | .webRtcOffer _ sessionDescription => c.handleWebRtcOffer fromPeerId sessionDescription
  | .webRtcCandidate _ candidate => c.handleWebRtcCandidate fromPeerId candidate

def processPeerRequest (c : Client PeerID) :
    PeerRequest PeerID → Client PeerID × List (Event PeerID)
  | .forward fromPeerId _ data => c.handlePeerEvent fromPeerId data
  | .keepAlive => (c, [])

/-- The reader loop resumed inside a handler. -/
def handle (host : PeerID) (c : Client PeerID) (settled : Settled) :
    Option (Client PeerID × List (Event PeerID)) :=
  match c.reader with
  | none => none
  | some (peerId, handling) =>
      match c.peers peerId, handling with
      | none, _ => none
      | some peer, .setRemoteDescription offer =>
          match peer.pc.setRemoteDescription settled.rollsBack offer with
          | .ok pc => some ((c.setPeer peerId { peer with pc := pc }).answerOffer peerId offer, [])
          | .error e => some (c.setReader none, [.failed (.webRtc e)])
      | some peer, .createAnswer =>
          match peer.pc.createAnswer settled.sdp with
          | .ok d => some (c.setReader (some (peerId, .setLocalDescription d)), [])
          | .error e => some (c.setReader none, [.failed (.webRtc e)])
      | some peer, .setLocalDescription d =>
          match peer.pc.setLocalDescription d with
          | .ok pc =>
              some ((c.setPeer peerId { peer with pc := pc }).setReader
                (some (peerId, .sendPeerRequest d)), [])
          | .error e => some (c.setReader none, [.failed (.webRtc e)])
      | some _, .sendPeerRequest d =>
          some (c.setReader none,
            [.sent (.forward host (some peerId) (.webRtcOffer peerId d))])
      | some _, .addIceCandidate =>
          some (c.setReader none, if settled.accepts then []
            else [.failed (.addIceCandidate (.jsError "OperationError"))])

/-- The candidate task of a peer takes the next candidate from its stream. -/
def gather (host : PeerID) (c : Client PeerID) (peerId : PeerID) (candidate : IceCandidate) :
    Option (Client PeerID × List (Event PeerID)) :=
  match c.peers peerId with
  | none => none
  | some peer =>
      if peer.gathering then
        if candidate.isEndOfCandidates then
          some (c.setPeer peerId { peer with gathering := false }, [])
        else
          some (c, [.sent (.forward host (some peerId) (.webRtcCandidate peerId candidate))])
      else none

def step (host : PeerID) (c : Client PeerID) :
    Action PeerID → Option (Client PeerID × List (Event PeerID))
  | .connect => some c.connect
  | .connectToPeer peerId => some (c.connectToPeer peerId)
  | .makeOffer peerId task settled => c.makeOffer host peerId task settled
  | .receive request =>
      if c.ws ∧ c.reader = none then some (c.processPeerRequest request) else none
  | .handle settled => c.handle host settled
  | .gather peerId candidate => c.gather host peerId candidate

end Client

/-- The client with id `host`, whatever the server sends it and the browser decides. -/
def client [DecidableEq PeerID] (host : PeerID) :
    Machine (Client PeerID) (Action PeerID) (Event PeerID) :=
  ⟨.new, Client.step host⟩

variable [DecidableEq PeerID]

/-! ## What a step shows -/

/-- The events of an action: a request names the client as its sender, and a candidate
is passed on only by the action that receives it. -/
inductive Emits (host : PeerID) (a : Action PeerID) : Event PeerID → Prop
  | failed (e) : Emits host a (.failed e)
  | notified (e) : Emits host a (.notified e)
  | sent (recipient data) : Emits host a (.sent (.forward host recipient data))
  | added {q recipient id candidate} :
      a = .receive (.forward q recipient (.webRtcCandidate id candidate)) →
      Emits host a (.addedIceCandidate q candidate)

attribute [simp] Emits.failed Emits.notified Emits.sent

namespace Client

variable {host : PeerID} {a : Action PeerID} {c c' : Client PeerID} {es : List (Event PeerID)}

theorem emits_getOrCreatePeer {q : PeerID} {peer : Peer}
    (h : c.getOrCreatePeer q = .ok (c', peer, es)) : ∀ e ∈ es, Emits host a e := by
  unfold getOrCreatePeer at h
  repeat' split at h
  all_goals cases h
  all_goals simp

theorem emits_processPeerRequest (request : PeerRequest PeerID) :
    ∀ e ∈ (c.processPeerRequest request).2, Emits host (.receive request) e := by
  rcases request with _ | ⟨q, recipient, id | ⟨id, message⟩ | ⟨id, d⟩ | ⟨id, candidate⟩⟩
  case forward.webRtcOffer =>
      show ∀ e ∈ (c.handleWebRtcOffer q d).2, _
      unfold handleWebRtcOffer
      split
      case h_1 hpeer => exact emits_getOrCreatePeer hpeer
      case h_2 => simp
  case forward.webRtcCandidate =>
      show ∀ e ∈ (c.handleWebRtcCandidate q candidate).2, _
      unfold handleWebRtcCandidate handleCandidate
      repeat' split
      all_goals simp [Emits.added rfl]
  all_goals simp [processPeerRequest, handlePeerEvent]

theorem emits_of_step (h : c.step host a = some (c', es)) : ∀ e ∈ es, Emits host a e := by
  cases a with
  | connect =>
      simp only [step, connect] at h
      split at h <;> cases h
      all_goals simp
  | connectToPeer q =>
      simp only [step, connectToPeer] at h
      split at h
      case h_1 hpeer =>
          cases h
          exact emits_getOrCreatePeer hpeer
      case h_2 =>
          cases h
          simp
  | makeOffer q i settled =>
      simp only [step, makeOffer] at h
      repeat' split at h
      all_goals cases h
      all_goals simp
  | receive request =>
      simp only [step] at h
      split at h
      case isTrue =>
          have hemits : ∀ e ∈ (c.processPeerRequest request).2,
              Emits host (.receive request) e := emits_processPeerRequest request
          rw [Option.some.inj h] at hemits
          exact hemits
      case isFalse => cases h
  | handle settled =>
      simp only [step, handle] at h
      repeat' split at h
      all_goals cases h
      all_goals simp
  | gather q candidate =>
      simp only [step, gather] at h
      repeat' split at h
      all_goals cases h
      all_goals simp

end Client

/-! ## What a step does to the signalling state -/

/-- The description an event sends to `peerId`. -/
def Event.descriptionTo (peerId : PeerID) : Event PeerID → Option SessionDescription
  | .sent (.forward _ (some recipient) (.webRtcOffer _ d)) =>
      if recipient = peerId then some d else none
  | _ => none

/-- The description an action receives from `peerId`. -/
def Action.descriptionFrom (peerId : PeerID) : Action PeerID → Option SessionDescription
  | .receive (.forward sender _ (.webRtcOffer _ d)) => if sender = peerId then some d else none
  | _ => none

/-- The action resumes no task and brings no description. -/
def Action.Passive : Action PeerID → Prop
  | .makeOffer .. | .handle _ | .receive (.forward _ _ (.webRtcOffer _ _)) => False
  | _ => True

/-- No event sends a description. -/
def Silent (es : List (Event PeerID)) : Prop :=
  ∀ e ∈ es, ∀ peerId, e.descriptionTo peerId = none

/-- The description a `make_offer` has set and not yet sent. -/
def MakeOffer.unsent : MakeOffer → Option SessionDescription
  | .sendPeerRequest d => some d
  | _ => none

/-- The answer a handler has set and not yet sent. -/
def Handling.unsent : Handling → Option SessionDescription
  | .sendPeerRequest d => some d
  | _ => none

/-- The description a handler has yet to apply. -/
def Handling.unapplied : Handling → Option SessionDescription
  | .setRemoteDescription d => some d
  | _ => none

namespace Client

/-- Two states between which signalling has not moved. -/
structure Same (c c' : Client PeerID) : Prop where
  conn : c'.conn = c.conn
  offers : c'.offers = c.offers
  reader : c'.reader = c.reader

@[simp] theorem conn_setReader (c : Client PeerID) (reader : Option (PeerID × Handling)) :
    (c.setReader reader).conn = c.conn := rfl

@[simp] theorem offers_setReader (c : Client PeerID) (reader : Option (PeerID × Handling)) :
    (c.setReader reader).offers = c.offers := rfl

@[simp] theorem reader_setReader (c : Client PeerID) (reader : Option (PeerID × Handling)) :
    (c.setReader reader).reader = reader := rfl

@[simp] theorem conn_setOffers (c : Client PeerID) (peerId : PeerID) (tasks : List MakeOffer) :
    (c.setOffers peerId tasks).conn = c.conn := rfl

@[simp] theorem offers_setOffers (c : Client PeerID) (peerId : PeerID)
    (tasks : List MakeOffer) :
    (c.setOffers peerId tasks).offers = Function.update c.offers peerId tasks := rfl

@[simp] theorem reader_setOffers (c : Client PeerID) (peerId : PeerID)
    (tasks : List MakeOffer) : (c.setOffers peerId tasks).reader = c.reader := rfl

@[simp] theorem conn_setPeer (c : Client PeerID) (peerId : PeerID) (peer : Peer) :
    (c.setPeer peerId peer).conn = Function.update c.conn peerId peer.pc := by
  funext q
  by_cases hq : q = peerId
  · subst hq
    simp [conn, setPeer]
  · simp [conn, setPeer, hq]

@[simp] theorem offers_setPeer (c : Client PeerID) (peerId : PeerID) (peer : Peer) :
    (c.setPeer peerId peer).offers = c.offers := rfl

@[simp] theorem reader_setPeer (c : Client PeerID) (peerId : PeerID) (peer : Peer) :
    (c.setPeer peerId peer).reader = c.reader := rfl

@[simp] theorem conn_answerOffer (c : Client PeerID) (peerId : PeerID)
    (offer : SessionDescription) : (c.answerOffer peerId offer).conn = c.conn := rfl

@[simp] theorem offers_answerOffer (c : Client PeerID) (peerId : PeerID)
    (offer : SessionDescription) : (c.answerOffer peerId offer).offers = c.offers := rfl

theorem reader_answerOffer (c : Client PeerID) (peerId : PeerID)
    (offer : SessionDescription) :
    (c.answerOffer peerId offer).reader =
      if offer.sdpType = .offer then some (peerId, .createAnswer) else none := rfl

theorem conn_of_peers {c : Client PeerID} {peerId : PeerID} {peer : Peer}
    (h : c.peers peerId = some peer) : c.conn peerId = peer.pc := by
  simp [conn, h]

theorem conn_of_noPeer {c : Client PeerID} {peerId : PeerID} (h : c.peers peerId = none) :
    c.conn peerId = .newDefault := by
  simp [conn, h]

theorem Same.rfl {c : Client PeerID} : c.Same c := ⟨.refl _, .refl _, .refl _⟩

theorem same_addKnownPeerId (c : Client PeerID) (peerId : PeerID) :
    c.Same (c.addKnownPeerId peerId) := by
  unfold addKnownPeerId
  split <;> exact ⟨.refl _, .refl _, .refl _⟩

theorem same_setPeer {c : Client PeerID} {peerId : PeerID} {peer : Peer}
    (h : c.conn peerId = peer.pc) : c.Same (c.setPeer peerId peer) :=
  ⟨by simp [← h], .refl _, .refl _⟩

theorem same_addPeer {c : Client PeerID} {peerId : PeerID} (h : c.peers peerId = none) :
    c.Same (c.addPeer peerId .new) := by
  have hset : c.Same (c.setPeer peerId .new) := same_setPeer (conn_of_noPeer h)
  have hknown := same_addKnownPeerId (c.setPeer peerId .new) peerId
  exact ⟨hknown.conn.trans hset.conn, hknown.offers.trans hset.offers,
    hknown.reader.trans hset.reader⟩

theorem getOrCreatePeer_ok {c c' : Client PeerID} {peerId : PeerID} {peer : Peer}
    {es : List (Event PeerID)} (h : c.getOrCreatePeer peerId = .ok (c', peer, es)) :
    c.Same c' ∧ c.conn peerId = peer.pc ∧ Silent es := by
  unfold getOrCreatePeer at h
  split at h
  · cases h
    rename_i hpeer
    exact ⟨.rfl, conn_of_peers hpeer, by simp [Silent]⟩
  · rename_i hnone
    split at h
    · cases h
      exact ⟨same_addPeer hnone, conn_of_noPeer hnone, by simp [Silent, Event.descriptionTo]⟩
    · cases h

/-- What a step can do to the connections, the running offers and the handler. -/
inductive Steps (host : PeerID) (c : Client PeerID) :
    Action PeerID → Client PeerID → List (Event PeerID) → Prop
  | same {a c' es} : c.Same c' → a.Passive → Silent es → Steps host c a c' es
  | connectToPeer {q c₁ es} : c.Same c₁ → Silent es →
      Steps host c (.connectToPeer q) (c₁.setOffers q (c.offers q ++ [.createOffer])) es
  | offerCreated {q i settled d} : (c.offers q)[i]? = some .createOffer → d.sdpType = .offer →
      Steps host c (.makeOffer q i settled)
        (c.setOffers q ((c.offers q).set i (.setLocalDescription d))) []
  | offerSet {q i settled d peer pc} : c.peers q = some peer →
      (c.offers q)[i]? = some (.setLocalDescription d) →
      peer.pc.setLocalDescription d = .ok pc →
      Steps host c (.makeOffer q i settled)
        ((c.setPeer q { peer with pc := pc }).setOffers q
          ((c.offers q).set i (.sendPeerRequest d))) []
  | offerFailed {q i settled task e} : (c.offers q)[i]? = some task → task.unsent = none →
      (∀ d, task = .setLocalDescription d →
        ∃ e, (c.conn q).setLocalDescription d = .error e) →
      Steps host c (.makeOffer q i settled) (c.setOffers q ((c.offers q).eraseIdx i))
        [.failed e]
  | offerSent {q i settled d} : (c.offers q)[i]? = some (.sendPeerRequest d) →
      Steps host c (.makeOffer q i settled) (c.setOffers q ((c.offers q).eraseIdx i))
        [.sent (.forward host (some q) (.webRtcOffer q d))]
  | offerReceived {q recipient id d c₁ es} : c.reader = none → c.Same c₁ → Silent es →
      (c.conn q).remoteDescription = none →
      Steps host c (.receive (.forward q recipient (.webRtcOffer id d)))
        (c₁.setReader (some (q, .setRemoteDescription d))) es
  | offerSkipped {q recipient id d c₁ es} : c.reader = none → c.Same c₁ → Silent es →
      (c.conn q).remoteDescription ≠ none →
      Steps host c (.receive (.forward q recipient (.webRtcOffer id d))) (c₁.answerOffer q d) es
  | candidateReceived {q recipient id candidate es} : c.reader = none → Silent es →
      Steps host c (.receive (.forward q recipient (.webRtcCandidate id candidate)))
        (c.setReader (some (q, .addIceCandidate))) es
  | remoteSet {q settled d peer pc} : c.peers q = some peer →
      c.reader = some (q, .setRemoteDescription d) →
      peer.pc.setRemoteDescription settled.rollsBack d = .ok pc →
      Steps host c (.handle settled) ((c.setPeer q { peer with pc := pc }).answerOffer q d) []
  | remoteRejected {q settled d e} : c.reader = some (q, .setRemoteDescription d) →
      (c.conn q).setRemoteDescription settled.rollsBack d = .error e →
      Steps host c (.handle settled) (c.setReader none) [.failed (.webRtc e)]
  | answerCreated {q settled d} : c.reader = some (q, .createAnswer) →
      (c.conn q).createAnswer settled.sdp = .ok d →
      Steps host c (.handle settled) (c.setReader (some (q, .setLocalDescription d))) []
  | answerSet {q settled d peer pc} : c.peers q = some peer →
      c.reader = some (q, .setLocalDescription d) → peer.pc.setLocalDescription d = .ok pc →
      Steps host c (.handle settled)
        ((c.setPeer q { peer with pc := pc }).setReader (some (q, .sendPeerRequest d))) []
  | answerSent {q settled d} : c.reader = some (q, .sendPeerRequest d) →
      Steps host c (.handle settled) (c.setReader none)
        [.sent (.forward host (some q) (.webRtcOffer q d))]
  | handled {q handling settled es} : c.reader = some (q, handling) →
      handling.unsent = none → handling.unapplied = none →
      (handling = .createAnswer → ∃ e, (c.conn q).createAnswer settled.sdp = .error e) →
      (∀ d, handling = .setLocalDescription d →
        ∃ e, (c.conn q).setLocalDescription d = .error e) →
      Silent es → Steps host c (.handle settled) (c.setReader none) es

variable {host : PeerID} {c c' : Client PeerID} {es : List (Event PeerID)}

theorem steps_of_connectToPeer {q : PeerID} (h : c.connectToPeer q = (c', es)) :
    c.Steps host (.connectToPeer q) c' es := by
  unfold connectToPeer at h
  split at h
  case h_1 hpeer =>
      cases h
      obtain ⟨hsame, -, hsilent⟩ := getOrCreatePeer_ok hpeer
      rw [hsame.offers]
      exact .connectToPeer hsame hsilent
  case h_2 =>
      cases h
      exact .same .rfl trivial (by simp [Silent, Event.descriptionTo])

theorem steps_of_makeOffer {q : PeerID} {i : Nat} {settled : Settled}
    (h : c.makeOffer host q i settled = some (c', es)) :
    c.Steps host (.makeOffer q i settled) c' es := by
  unfold makeOffer at h
  split at h
  case h_1 peer hpeer htask =>
      split at h
      case h_1 d hd =>
          cases h
          exact .offerCreated htask (PeerConnection.sdpType_of_createOffer hd)
      case h_2 =>
          cases h
          exact .offerFailed htask rfl (by simp)
  case h_2 peer d hpeer htask =>
      split at h
      case h_1 pc hpc =>
          cases h
          exact .offerSet hpeer htask hpc
      case h_2 e he =>
          cases h
          refine .offerFailed htask rfl fun d' heq => ?_
          cases heq
          exact ⟨e, by rw [conn_of_peers hpeer, he]⟩
  case h_3 htask =>
      cases h
      exact .offerSent htask
  case h_4 => cases h

theorem steps_of_handleWebRtcOffer {q : PeerID} {recipient : Option PeerID} {id : PeerID}
    {d : SessionDescription} (hws : c.ws) (hreader : c.reader = none)
    (h : c.handleWebRtcOffer q d = (c', es)) :
    c.Steps host (.receive (.forward q recipient (.webRtcOffer id d))) c' es := by
  unfold handleWebRtcOffer at h
  split at h
  case h_1 hpeer =>
      cases h
      obtain ⟨hsame, hconn, hsilent⟩ := getOrCreatePeer_ok hpeer
      unfold handleOffer
      split
      case isTrue hremote =>
          exact .offerReceived hreader hsame hsilent (by rw [hconn, hremote])
      case isFalse hremote =>
          exact .offerSkipped hreader hsame hsilent (by rwa [hconn])
  case h_2 e he =>
      unfold getOrCreatePeer at he
      split at he
      · cases he
      · simp [hws] at he

theorem steps_of_handleWebRtcCandidate {q : PeerID} {recipient : Option PeerID} {id : PeerID}
    {candidate : IceCandidate} (hreader : c.reader = none)
    (h : c.handleWebRtcCandidate q candidate = (c', es)) :
    c.Steps host (.receive (.forward q recipient (.webRtcCandidate id candidate))) c' es := by
  unfold handleWebRtcCandidate at h
  split at h
  case h_1 peer _ =>
      unfold handleCandidate at h
      split at h
      case isTrue =>
          cases h
          exact .same .rfl trivial (by simp [Silent, Event.descriptionTo])
      case isFalse =>
          split at h <;> cases h
          · exact .candidateReceived hreader (by simp [Silent, Event.descriptionTo])
          · exact .same .rfl trivial (by simp [Silent, Event.descriptionTo])
  case h_2 =>
      cases h
      exact .same .rfl trivial (by simp [Silent, Event.descriptionTo])

theorem steps_of_processPeerRequest {request : PeerRequest PeerID} (hws : c.ws)
    (hreader : c.reader = none) (h : c.processPeerRequest request = (c', es)) :
    c.Steps host (.receive request) c' es := by
  rcases request with _ | ⟨q, recipient, id | ⟨id, message⟩ | ⟨id, d⟩ | ⟨id, candidate⟩⟩
  case keepAlive =>
      cases h
      exact .same .rfl trivial (by simp [Silent])
  case forward.newPeer =>
      cases h
      exact .same (same_addKnownPeerId c id) trivial
        (by simp [Silent, Event.descriptionTo])
  case forward.message =>
      cases h
      exact .same .rfl trivial (by simp [Silent, Event.descriptionTo])
  case forward.webRtcOffer => exact steps_of_handleWebRtcOffer hws hreader h
  case forward.webRtcCandidate => exact steps_of_handleWebRtcCandidate hreader h

theorem steps_of_handle {settled : Settled} (h : c.handle host settled = some (c', es)) :
    c.Steps host (.handle settled) c' es := by
  unfold handle at h
  split at h
  case h_1 => cases h
  case h_2 q handling hreader =>
      split at h
      case h_1 => cases h
      case h_2 peer d hpeer =>
          split at h
          case h_1 pc hpc =>
              cases h
              exact .remoteSet hpeer hreader hpc
          case h_2 e he =>
              cases h
              exact .remoteRejected hreader (by rw [conn_of_peers hpeer, he])
      case h_3 peer hpeer =>
          split at h
          case h_1 d hd =>
              cases h
              exact .answerCreated hreader (by rw [conn_of_peers hpeer, hd])
          case h_2 e he =>
              cases h
              exact .handled hreader rfl rfl (fun _ => ⟨e, by rw [conn_of_peers hpeer, he]⟩)
                (by simp) (by simp [Silent, Event.descriptionTo])
      case h_4 peer d hpeer =>
          split at h
          case h_1 pc hpc =>
              cases h
              exact .answerSet hpeer hreader hpc
          case h_2 e he =>
              cases h
              refine .handled hreader rfl rfl (by simp) (fun d' heq => ?_)
                (by simp [Silent, Event.descriptionTo])
              cases heq
              exact ⟨e, by rw [conn_of_peers hpeer, he]⟩
      case h_5 =>
          cases h
          exact .answerSent hreader
      case h_6 =>
          cases h
          refine .handled hreader rfl rfl (by simp) (by simp) ?_
          split <;> simp [Silent, Event.descriptionTo]

theorem steps_of_gather {q : PeerID} {candidate : IceCandidate}
    (h : c.gather host q candidate = some (c', es)) :
    c.Steps host (.gather q candidate) c' es := by
  unfold gather at h
  split at h
  case h_1 => cases h
  case h_2 peer hpeer =>
      repeat' split at h
      all_goals cases h
      · have hconn : c.conn q = peer.pc := conn_of_peers hpeer
        exact .same (same_setPeer hconn) trivial (by simp [Silent])
      · exact .same .rfl trivial (by simp [Silent, Event.descriptionTo])

theorem steps_of_step {a : Action PeerID} (h : c.step host a = some (c', es)) :
    c.Steps host a c' es := by
  cases a with
  | connect =>
      simp only [step, connect] at h
      split at h <;> cases h
      · exact .same .rfl trivial (by simp [Silent, Event.descriptionTo])
      · exact .same ⟨.refl _, .refl _, .refl _⟩ trivial (by simp [Silent])
  | connectToPeer q =>
      simp only [step, Option.some.injEq] at h
      exact steps_of_connectToPeer h
  | makeOffer q i settled => exact steps_of_makeOffer h
  | receive request =>
      simp only [step] at h
      split at h
      case isTrue hready =>
          rw [Option.some.injEq] at h
          exact steps_of_processPeerRequest hready.1 hready.2 h
      case isFalse => cases h
  | handle settled => exact steps_of_handle h
  | gather q candidate => exact steps_of_gather h

end Client

end SfRs.Wasm
