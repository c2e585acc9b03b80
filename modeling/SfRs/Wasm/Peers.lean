import SfRs.Lib.Async
import SfRs.Wasm.Client
import SfRs.Wasm.PeerManager
/-!
# One peer for each identifier

The asynchronous functions of the client, which suspend at the promises of the browser and
at the channel to the socket.  `Peer::new` is awaited and awaits nothing: no other task runs
between the lookup of a peer and its insertion.

A task here is a call of `connect`, one of `connect_to_peer`, or the handling of a request.
The reader loop handles one request after the other; these may overlap too.  The tasks that
`Peer::new` starts leave the peer manager alone.
-/

set_option linter.unusedSectionVars false

namespace SfRs.Wasm.Peers

open SfRs.Lib SfRs.Protocol

/-- The errors of the client, and those of a cell that refuses a borrow. -/
inductive Failure (PeerID : Type) where
  | borrowPeerManager
  | borrowPeerManagerMut
  | borrowWebSocket
  | borrowWebSocketMut
  | js (error : JsError PeerID)

inductive Event (PeerID : Type) where
  | inserted (peer : PeerRef PeerID) (replaced : Option (PeerRef PeerID))
  | got (peerId : PeerID) (result : Except (Failure PeerID) (PeerRef PeerID))
  | notified (event : ClientEvent PeerID)
  | sent (request : PeerRequest PeerID)
  | failed (error : Failure PeerID)

/-- The client, and the connections of the peers that `Peer::new` has allocated. -/
structure Client (PeerID : Type) where
  peerManager : RefCell (PeerManager PeerID)
  ws : RefCell Bool
  conns : List PeerConnection

/-- A call on a client, which can suspend and can fail. -/
abbrev Call (PeerID : Type) : Type → Type :=
  ExceptT (Failure PeerID) (Async (Client PeerID) Settled (Event PeerID))

/-- What the browser does when `Peer::new` makes a connection, or `connect` a socket. -/
abbrev Constructed := Except String Unit

inductive Task (PeerID : Type) where
  | connect (webSocket : Constructed)
  | connectToPeer (peerId : PeerID) (rtc : Constructed)
  | handleRequest (request : PeerRequest PeerID) (rtc : Constructed)

variable {PeerID α : Type}

def Failure.message [ToString PeerID] : Failure PeerID → String
  | .borrowPeerManager => "Failed to borrow PeerManager: already mutably borrowed"
  | .borrowPeerManagerMut => "Failed to borrow PeerManager mutably: already borrowed"
  | .borrowWebSocket => "Failed to borrow WebSocket: already mutably borrowed"
  | .borrowWebSocketMut => "Failed to borrow WebSocket mutably: already borrowed"
  | .js error => error.message

namespace Call

def self : Call PeerID (Client PeerID) :=
  ExceptT.lift (Async.get : Async (Client PeerID) Settled (Event PeerID) (Client PeerID))

def update (f : Client PeerID → Client PeerID) : Call PeerID Unit :=
  ExceptT.lift (Async.modify f : Async (Client PeerID) Settled (Event PeerID) Unit)

def tell (e : Event PeerID) : Call PeerID Unit :=
  ExceptT.lift (Async.tell e : Async (Client PeerID) Settled (Event PeerID) Unit)

/-- The next point at which another task can run. -/
def await : Call PeerID Settled :=
  ExceptT.lift (Async.await : Async (Client PeerID) Settled (Event PeerID) Settled)

end Call

open Call

def notifyEvent (event : ClientEvent PeerID) : Call PeerID Unit := tell (.notified event)

/-! ## Connections -/

/-- A promise of a connection: when it settles, the browser has done `f` to it. -/
def promise (peer : PeerRef PeerID)
    (f : Settled → PeerConnection → Except WebRTCError (α × PeerConnection)) : Call PeerID α := do
  let settled ← await
  let c ← self
  match f settled (c.conns.getD peer.inner .newDefault) with
  | .ok (a, pc) =>
      update fun c => { c with conns := c.conns.set peer.inner pc }
      return a
  | .error e => throw (.js (.webRtc e))

namespace Peer

def createOffer (peer : PeerRef PeerID) : Call PeerID SessionDescription :=
  promise peer fun settled pc => (pc.createOffer settled.sdp).map (·, pc)

def createAnswer (peer : PeerRef PeerID) : Call PeerID SessionDescription :=
  promise peer fun settled pc => (pc.createAnswer settled.sdp).map (·, pc)

def setLocalDescription (peer : PeerRef PeerID) (description : SessionDescription) :
    Call PeerID Unit :=
  promise peer fun _ pc => (pc.setLocalDescription description).map ((), ·)

def setRemoteDescription (peer : PeerRef PeerID) (description : SessionDescription) :
    Call PeerID Unit :=
  promise peer fun settled pc => (pc.setRemoteDescription settled.rollsBack description).map ((), ·)

def getRemoteDescription (peer : PeerRef PeerID) : Call PeerID (Option SessionDescription) := do
  let c ← self
  return (c.conns.getD peer.inner .newDefault).remoteDescription

/-- The channel takes the request at once; sending ends when the channel has room again. -/
def sendPeerRequest (request : PeerRequest PeerID) : Call PeerID Unit := do
  tell (.sent request)
  let _ ← await

/-- `Peer::new`, which no promise is awaited in. -/
def new (id : PeerID) (rtc : Constructed) : Call PeerID (PeerRef PeerID) := do
  match rtc with
  | .ok () =>
      let c ← self
      update fun c => { c with conns := c.conns ++ [.newDefault] }
      return ⟨id, c.conns.length⟩
  | .error value => throw (.js (.webRtc (.jsError value)))

def makeOffer (host : PeerID) (peer : PeerRef PeerID) : Call PeerID Unit := do
  let sessionDescription ← createOffer peer
  setLocalDescription peer sessionDescription
  sendPeerRequest (.forward host (some peer.id) (.webRtcOffer peer.id sessionDescription))

/-- The second half of `handle_offer`: only an offer is answered. -/
def answerOffer (host : PeerID) (peer : PeerRef PeerID) (offer : SessionDescription) :
    Call PeerID Unit :=
  if offer.sdpType = .offer then do
    let localDescription ← createAnswer peer
    setLocalDescription peer localDescription
    sendPeerRequest (.forward host (some peer.id) (.webRtcOffer peer.id localDescription))
  else return ()

def handleOffer (host : PeerID) (peer : PeerRef PeerID) (offer : SessionDescription) :
    Call PeerID Unit := do
  let remoteDescription ← getRemoteDescription peer
  if remoteDescription.isNone then
    setRemoteDescription peer offer
  answerOffer host peer offer

def addIceCandidate (candidate : IceCandidate) : Call PeerID Unit :=
  match Wasm.Client.iceCandidateToWebSys candidate with
  | .ok () => do
      let settled ← await
      if settled.accepts then return ()
      else throw (.js (.addIceCandidate (.jsError "OperationError")))
  | .error e => throw (.js (.addIceCandidate e))

def handleCandidate (peer : PeerRef PeerID) (candidate : IceCandidate) : Call PeerID Unit := do
  let remoteDescription ← getRemoteDescription peer
  if remoteDescription.isNone then throw (.js .remoteDescriptionNotSet)
  else addIceCandidate candidate

end Peer

/-! ## The client -/

def borrowWs : Call PeerID Unit := do
  let c ← self
  match c.ws.tryRead id with
  | some true => return ()
  | some false => throw (.js .notInitialized)
  | none => throw .borrowWebSocket

/-- A statement that reads the manager and ends its borrow. -/
def borrowPm (f : PeerManager PeerID → α) : Call PeerID α := do
  let c ← self
  match c.peerManager.tryRead f with
  | some a => return a
  | none => throw .borrowPeerManager

/-- A statement that changes the manager and ends its borrow. -/
def borrowPmMut (f : PeerManager PeerID → PeerManager PeerID) : Call PeerID Unit := do
  let c ← self
  match c.peerManager.tryWrite f with
  | some pm => update fun c => { c with peerManager := pm }
  | none => throw .borrowPeerManagerMut

def connect (webSocket : Constructed) : Call PeerID Unit := do
  let c ← self
  match c.ws.tryRead id with
  | some true => throw (.js .alreadyEstablished)
  | _ =>
      match webSocket with
      | .error value => throw (.js (.webRtc (.jsError value)))
      | .ok () =>
          match c.ws.tryWrite fun _ => true with
          | some ws => update fun c => { c with ws := ws }
          | none => throw .borrowWebSocketMut

variable [DecidableEq PeerID]

def addPeer (peer : PeerRef PeerID) : Call PeerID Unit := do
  let c ← self
  borrowPmMut fun pm => pm.addPeer peer
  tell (.inserted peer (c.peerManager.value.getPeer peer.id))

def getOrCreatePeer (peerId : PeerID) (rtc : Constructed) : Call PeerID (PeerRef PeerID) := do
  let found ← borrowPm fun pm => pm.getPeer peerId
  match found with
  | some peer => return peer
  | none =>
      borrowWs
      let newPeer ← Peer.new peerId rtc
      addPeer newPeer
      notifyEvent (.newPeer peerId)
      return newPeer

/-- A call of `get_or_create_peer`, with its result told. -/
def callGetOrCreatePeer (peerId : PeerID) (rtc : Constructed) : Call PeerID (PeerRef PeerID) :=
  ExceptT.mk do
    let result ← (getOrCreatePeer peerId rtc).run
    Async.tell (.got peerId result)
    return result

def newPeerDiscovered (peerId : PeerID) : Call PeerID Unit := do
  let added ← ExceptT.lift (borrowPmMut fun pm => pm.addKnownPeerId peerId).run
  match added with
  | .ok () => notifyEvent (.newPeer peerId)
  | .error e => tell (.failed e)

def connectToPeer (host peerId : PeerID) (rtc : Constructed) : Call PeerID Unit := do
  let peer ← callGetOrCreatePeer peerId rtc
  Peer.makeOffer host peer

def handleWebRtcOffer (host peerId : PeerID) (sessionDescription : SessionDescription)
    (rtc : Constructed) : Call PeerID Unit := do
  let peer ← callGetOrCreatePeer peerId rtc
  Peer.handleOffer host peer sessionDescription

def handleWebRtcCandidate (peerId : PeerID) (candidate : IceCandidate) : Call PeerID Unit := do
  let found ← borrowPm fun pm => pm.getPeer peerId
  match found with
  | some peer => Peer.handleCandidate peer candidate
  | none => throw (.js (.peerNotFound peerId))

def handlePeerEvent (host fromPeerId : PeerID) (event : PeerEvent PeerID) (rtc : Constructed) :
    Call PeerID Unit :=
  match event with
  | .newPeer peerId => newPeerDiscovered peerId
  | .message _ message => notifyEvent (.message fromPeerId message)
  | .webRtcOffer _ sessionDescription => handleWebRtcOffer host fromPeerId sessionDescription rtc
  | .webRtcCandidate _ candidate => handleWebRtcCandidate fromPeerId candidate

def processPeerRequest (host : PeerID) (request : PeerRequest PeerID) (rtc : Constructed) :
    Call PeerID Unit :=
  match request with
  | .forward fromPeerId _ data => handlePeerEvent host fromPeerId data rtc
  | .keepAlive => return ()

/-- The call that a task makes. -/
def Task.call (host : PeerID) : Task PeerID → Call PeerID Unit
  | .connect webSocket => Peers.connect webSocket
  | .connectToPeer peerId rtc => Peers.connectToPeer host peerId rtc
  | .handleRequest request rtc => processPeerRequest host request rtc

/-- An error ends the task, and is reported. -/
def Task.run (host : PeerID) (task : Task PeerID) :
    Async (Client PeerID) Settled (Event PeerID) Unit := do
  let result ← (task.call host).run
  match result with
  | .ok () => return ()
  | .error e => Async.tell (.failed e)

/-- The client with id `host`, whatever its tasks and however they interleave. -/
def tasks (host : PeerID) :
    Machine (Executor (Client PeerID) Settled (Event PeerID)) (Wake (Task PeerID) Settled)
      (Event PeerID) :=
  executor ⟨.new .new, .new false, []⟩ (Task.run host)

/-! ## What a stretch does -/

/-- The event is not about the peers of the manager. -/
def Event.IsOther : Event PeerID → Prop
  | .inserted _ _ | .got _ _ => False
  | _ => True

/-- What a call of `get_or_create_peer` does, all in one stretch. -/
inductive Gets (c : Client PeerID) (peerId : PeerID) : List (Event PeerID) → Client PeerID →
    Except (Failure PeerID) (PeerRef PeerID) → Prop
  | found {peer} : c.peerManager.value.getPeer peerId = some peer → Gets c peerId [] c (.ok peer)
  | created : c.peerManager.value.getPeer peerId = none →
      Gets c peerId [.inserted ⟨peerId, c.conns.length⟩ none, .notified (.newPeer peerId)]
        { c with
          peerManager :=
            { c.peerManager with value := c.peerManager.value.addPeer ⟨peerId, c.conns.length⟩ }
          conns := c.conns ++ [.newDefault] }
        (.ok ⟨peerId, c.conns.length⟩)
  | failed {e c'} : c'.peerManager = c.peerManager →
      (c.peerManager.borrows = 0 → c'.conns = c.conns) → Gets c peerId [] c' (.error e)

/-- What a stretch of a task does to the peer manager. -/
inductive Steps (c : Client PeerID) : List (Event PeerID) → Client PeerID → Prop
  | other {es c'} : c'.peerManager = c.peerManager → c'.conns.length = c.conns.length →
      (∀ e ∈ es, e.IsOther) → Steps c es c'
  | discovered (id) : Steps c [] { c with peerManager :=
      { c.peerManager with value := c.peerManager.value.addKnownPeerId id } }
  | got {id es c' r} : Gets c id es c' r → Steps c (es ++ [.got id r]) c'

section Follows

open Async (Follows follows_lift follows_return follows_throw)

theorem follows_self : (self : Call PeerID _).run.Follows Steps := follows_lift Async.follows_get

theorem follows_await : (await : Call PeerID _).run.Follows Steps :=
  follows_lift Async.follows_await

theorem follows_tell {e : Event PeerID} (h : e.IsOther) : (tell e).run.Follows Steps :=
  follows_lift (Async.follows_tell fun _ => .other rfl rfl (by simpa using h))

theorem follows_promise (peer : PeerRef PeerID)
    (f : Settled → PeerConnection → Except WebRTCError (α × PeerConnection)) :
    (promise peer f).run.Follows Steps := by
  refine follows_await.tryBind fun settled => follows_self.tryBind fun c => ?_
  split
  case h_1 =>
      refine Follows.tryBind ?_ fun _ => follows_return _
      exact follows_lift (Async.follows_modify fun _ => .other rfl (by simp) (by simp))
  case h_2 => exact follows_throw _

theorem follows_sendPeerRequest (request : PeerRequest PeerID) :
    (Peer.sendPeerRequest request).run.Follows Steps :=
  (follows_tell (e := .sent request) trivial).tryBind fun _ =>
    follows_await.tryBind fun _ => follows_return _

theorem follows_makeOffer (host : PeerID) (peer : PeerRef PeerID) :
    (Peer.makeOffer host peer).run.Follows Steps :=
  (follows_promise peer _).tryBind fun _ => (follows_promise peer _).tryBind fun _ =>
    follows_sendPeerRequest _

theorem follows_getRemoteDescription (peer : PeerRef PeerID) :
    (Peer.getRemoteDescription peer).run.Follows Steps :=
  follows_self.tryBind fun _ => follows_return _

theorem follows_answerOffer (host : PeerID) (peer : PeerRef PeerID) (offer : SessionDescription) :
    (Peer.answerOffer host peer offer).run.Follows Steps := by
  unfold Peer.answerOffer
  split
  case isTrue =>
      exact (follows_promise peer _).tryBind fun _ => (follows_promise peer _).tryBind fun _ =>
        follows_sendPeerRequest _
  case isFalse => exact follows_return _

theorem follows_handleOffer (host : PeerID) (peer : PeerRef PeerID) (offer : SessionDescription) :
    (Peer.handleOffer host peer offer).run.Follows Steps := by
  refine (follows_getRemoteDescription peer).tryBind fun remote => ?_
  split
  case isTrue => exact (follows_promise peer _).tryBind fun _ => follows_answerOffer host peer offer
  case isFalse => exact follows_answerOffer host peer offer

theorem follows_handleCandidate (peer : PeerRef PeerID) (candidate : IceCandidate) :
    (Peer.handleCandidate peer candidate).run.Follows Steps := by
  refine (follows_getRemoteDescription peer).tryBind fun remote => ?_
  split
  case isTrue => exact follows_throw _
  case isFalse =>
      unfold Peer.addIceCandidate
      split
      case h_1 =>
          refine follows_await.tryBind fun settled => ?_
          split
          case isTrue => exact follows_return _
          case isFalse => exact follows_throw _
      case h_2 => exact follows_throw _

theorem follows_borrowPm (f : PeerManager PeerID → α) : (borrowPm f).run.Follows Steps := by
  refine follows_self.tryBind fun c => ?_
  split
  case h_1 => exact follows_return _
  case h_2 => exact follows_throw _

theorem follows_connect (webSocket : Constructed) :
    (connect webSocket : Call PeerID Unit).run.Follows Steps := by
  refine follows_self.tryBind fun c => ?_
  split
  case h_1 => exact follows_throw _
  case h_2 =>
      split
      case h_1 => exact follows_throw _
      case h_2 =>
          split
          case h_1 => exact follows_lift (Async.follows_modify fun _ => .other rfl rfl (by simp))
          case h_2 => exact follows_throw _

end Follows

/-! ## Looking up and creating a peer -/

section Gets

open Async (poll_tryBind_ok poll_tryBind_error)

variable {c : Client PeerID}

theorem poll_self_bind (k : Client PeerID → Call PeerID α) (c : Client PeerID) :
    (self >>= k).run.poll c = (k c).run.poll c := rfl

theorem poll_borrowPm (f : PeerManager PeerID → α) (c : Client PeerID) :
    (borrowPm f).run.poll c = ⟨c, [], .inl (match c.peerManager.tryRead f with
      | some a => .ok a
      | none => .error .borrowPeerManager)⟩ := by
  rw [borrowPm, poll_self_bind]
  cases c.peerManager.tryRead f <;> rfl

theorem poll_borrowWs (c : Client PeerID) :
    (borrowWs : Call PeerID Unit).run.poll c = ⟨c, [], .inl (match c.ws.tryRead id with
      | some true => .ok ()
      | some false => .error (.js .notInitialized)
      | none => .error .borrowWebSocket)⟩ := by
  rw [borrowWs, poll_self_bind]
  rcases c.ws.tryRead id with _ | _ | _ <;> rfl

theorem poll_borrowPmMut (f : PeerManager PeerID → PeerManager PeerID) (c : Client PeerID) :
    (borrowPmMut f).run.poll c = if c.peerManager.borrows = 0 then
        ⟨{ c with peerManager := { c.peerManager with value := f c.peerManager.value } }, [],
          .inl (.ok ())⟩
      else ⟨c, [], .inl (.error .borrowPeerManagerMut)⟩ := by
  rw [borrowPmMut, poll_self_bind]
  by_cases h : c.peerManager.borrows = 0
  · rw [if_pos h, RefCell.tryWrite_of_eq h]
    rfl
  · rw [if_neg h, RefCell.tryWrite_of_ne h]
    rfl

/-- The insertion of a peer, up to the end of the call. -/
theorem poll_addPeer (c : Client PeerID) (peer : PeerRef PeerID) :
    (addPeer peer).run.poll c = if c.peerManager.borrows = 0 then
        ⟨{ c with peerManager :=
            { c.peerManager with value := c.peerManager.value.addPeer peer } },
          [.inserted peer (c.peerManager.value.getPeer peer.id)], .inl (.ok ())⟩
      else ⟨c, [], .inl (.error .borrowPeerManagerMut)⟩ := by
  rw [addPeer, poll_self_bind]
  have hwrite := poll_borrowPmMut (fun pm => pm.addPeer peer) c
  by_cases h : c.peerManager.borrows = 0
  · rw [if_pos h] at hwrite ⊢
    exact poll_tryBind_ok hwrite rfl
  · rw [if_neg h] at hwrite ⊢
    exact poll_tryBind_error hwrite

theorem poll_getOrCreatePeer (c : Client PeerID) (peerId : PeerID) (rtc : Constructed) :
    ∃ c' es r, (getOrCreatePeer peerId rtc).run.poll c = ⟨c', es, .inl r⟩ ∧
      Gets c peerId es c' r := by
  have hread := poll_borrowPm (fun pm => pm.getPeer peerId) c
  cases hfound : c.peerManager.tryRead fun pm => pm.getPeer peerId with
  | none =>
      rw [hfound] at hread
      exact ⟨_, _, _, poll_tryBind_error hread, .failed rfl fun _ => rfl⟩
  | some found =>
      rw [hfound] at hread
      have hvalue := RefCell.eq_of_tryRead hfound
      cases found with
      | some peer => exact ⟨_, _, _, poll_tryBind_ok hread rfl, .found hvalue.symm⟩
      | none =>
          have hws := poll_borrowWs c
          rcases hsender : c.ws.tryRead id with _ | _ | _
          case none =>
              rw [hsender] at hws
              exact ⟨_, _, _, poll_tryBind_ok hread (poll_tryBind_error hws),
                .failed rfl fun _ => rfl⟩
          case some.false =>
              rw [hsender] at hws
              exact ⟨_, _, _, poll_tryBind_ok hread (poll_tryBind_error hws),
                .failed rfl fun _ => rfl⟩
          case some.true =>
              rw [hsender] at hws
              cases rtc with
              | error value =>
                  exact ⟨_, _, _, poll_tryBind_ok hread (poll_tryBind_ok hws
                    (poll_tryBind_error rfl)), .failed rfl fun _ => rfl⟩
              | ok u =>
                  have hadd := poll_addPeer { c with conns := c.conns ++ [.newDefault] }
                    ⟨peerId, c.conns.length⟩
                  by_cases hfree : c.peerManager.borrows = 0
                  · rw [if_pos hfree] at hadd
                    refine ⟨_, _, _, poll_tryBind_ok hread (poll_tryBind_ok hws
                      (poll_tryBind_ok rfl (poll_tryBind_ok hadd rfl))), ?_⟩
                    rw [← hvalue]
                    exact .created hvalue.symm
                  · rw [if_neg hfree] at hadd
                    exact ⟨_, _, _, poll_tryBind_ok hread (poll_tryBind_ok hws
                      (poll_tryBind_ok rfl (poll_tryBind_error hadd))),
                      .failed rfl fun h => absurd h hfree⟩

theorem poll_callGetOrCreatePeer {c' : Client PeerID} {es : List (Event PeerID)}
    {peerId : PeerID} {rtc : Constructed} {r : Except (Failure PeerID) (PeerRef PeerID)}
    (h : (getOrCreatePeer peerId rtc).run.poll c = ⟨c', es, .inl r⟩) :
    (callGetOrCreatePeer peerId rtc).run.poll c = ⟨c', es ++ [.got peerId r], .inl r⟩ :=
  Async.poll_bind_done h

end Gets

section Follows

open Async (Follows follows_lift follows_return follows_throw)

theorem follows_callGetOrCreatePeer (peerId : PeerID) (rtc : Constructed) :
    (callGetOrCreatePeer peerId rtc).run.Follows Steps := by
  refine Async.follows_of_poll fun c => ?_
  obtain ⟨c', es, r, hpoll, hgets⟩ := poll_getOrCreatePeer c peerId rtc
  exact ⟨c', _, r, poll_callGetOrCreatePeer hpoll, .single (.got hgets)⟩

theorem follows_addKnownPeerId (peerId : PeerID) :
    (borrowPmMut fun pm => pm.addKnownPeerId peerId).run.Follows Steps := by
  refine Async.follows_of_poll fun c => ?_
  rw [poll_borrowPmMut]
  split
  case isTrue => exact ⟨_, _, _, rfl, .single (.discovered peerId)⟩
  case isFalse => exact ⟨_, _, _, rfl, .nil⟩

theorem follows_newPeerDiscovered (peerId : PeerID) :
    (newPeerDiscovered peerId).run.Follows Steps := by
  refine (follows_lift (follows_addKnownPeerId peerId)).tryBind fun added => ?_
  cases added with
  | ok u => exact follows_tell (e := .notified (.newPeer peerId)) trivial
  | error e => exact follows_tell (e := .failed e) trivial

theorem follows_handlePeerEvent (host fromPeerId : PeerID) (event : PeerEvent PeerID)
    (rtc : Constructed) : (handlePeerEvent host fromPeerId event rtc).run.Follows Steps := by
  cases event with
  | newPeer peerId => exact follows_newPeerDiscovered peerId
  | message _ message => exact follows_tell (e := .notified (.message fromPeerId message)) trivial
  | webRtcOffer _ sessionDescription =>
      exact (follows_callGetOrCreatePeer fromPeerId rtc).tryBind fun peer =>
        follows_handleOffer host peer sessionDescription
  | webRtcCandidate _ candidate =>
      refine (follows_borrowPm _).tryBind fun found => ?_
      cases found with
      | some peer => exact follows_handleCandidate peer candidate
      | none => exact follows_throw _

theorem follows_call (host : PeerID) (task : Task PeerID) :
    (task.call host).run.Follows Steps := by
  cases task with
  | connect webSocket => exact follows_connect webSocket
  | connectToPeer peerId rtc =>
      exact (follows_callGetOrCreatePeer peerId rtc).tryBind fun peer => follows_makeOffer host peer
  | handleRequest request rtc =>
      cases request with
      | keepAlive => exact follows_return _
      | forward fromPeerId _ data => exact follows_handlePeerEvent host fromPeerId data rtc

theorem follows_run (host : PeerID) (task : Task PeerID) : (task.run host).Follows Steps := by
  refine (follows_call host task).bind fun result => ?_
  cases result with
  | ok u => exact Async.follows_pure _
  | error e => exact Async.follows_tell fun _ => .other rfl rfl (by simp [Event.IsOther])

end Follows

/-! ## The machine of the client -/

section Refines

open Async (poll_tryBind_ok poll_tryBind_error)

/-- The machine that takes `get_or_create_peer` as part of one step has the same peers, the
same known identifiers and the same socket, and nothing is borrowed. -/
structure Refines (c : Client PeerID) (a : Wasm.Client PeerID) : Prop where
  free : c.peerManager.borrows = 0
  wsFree : c.ws.borrows = 0
  ws : c.ws.value = a.ws
  known : c.peerManager.value.knownPeerIds = a.knownPeerIds
  peers : ∀ id, (c.peerManager.value.getPeer id).isSome = (a.peers id).isSome

variable {c : Client PeerID} {a : Wasm.Client PeerID}

theorem refines_addPeer (h : Refines c a) (peerId : PeerID) (inner : Nat)
    (conns : List PeerConnection) :
    Refines { c with
      peerManager := { c.peerManager with value := c.peerManager.value.addPeer ⟨peerId, inner⟩ }
      conns := conns } (a.addPeer peerId .new) := by
  have hknown : (c.peerManager.value.addPeer ⟨peerId, inner⟩).knownPeerIds =
      (a.addPeer peerId .new).knownPeerIds := by
    by_cases hmem : peerId ∈ a.knownPeerIds
    all_goals simp [PeerManager.addPeer, PeerManager.addKnownPeerId, Wasm.Client.addPeer,
      Wasm.Client.addKnownPeerId, Wasm.Client.setPeer, h.known, hmem]
  have hpeers : (a.addPeer peerId .new).peers = Function.update a.peers peerId (some .new) := by
    simp only [Wasm.Client.addPeer, Wasm.Client.addKnownPeerId]
    split <;> rfl
  have hws : (a.addPeer peerId .new).ws = a.ws := by
    simp only [Wasm.Client.addPeer, Wasm.Client.addKnownPeerId]
    split <;> rfl
  refine ⟨h.free, h.wsFree, h.ws.trans hws.symm, hknown, fun id => ?_⟩
  rw [hpeers]
  by_cases hid : id = peerId
  · subst hid
    have hself := PeerManager.getPeer_addPeer_self c.peerManager.value ⟨id, inner⟩
    simp [hself]
  · have hother : (c.peerManager.value.addPeer ⟨peerId, inner⟩).getPeer id =
        c.peerManager.value.getPeer id := by
      rw [PeerManager.getPeer, PeerManager.peers_addPeer, AList.lookup_insert_ne hid]
      rfl
    rw [Function.update_of_ne hid, ← h.peers id, hother]

/-- Polling `get_or_create_peer` once does what the machine takes it to do. -/
theorem getOrCreatePeer_refines (h : Refines c a) (peerId : PeerID) :
    ∃ c' es r, (getOrCreatePeer peerId (.ok ())).run.poll c = ⟨c', es, .inl r⟩ ∧
      match a.getOrCreatePeer peerId with
      | .ok (a', _, _) => (∃ peer, r = .ok peer) ∧ Refines c' a'
      | .error e => r = .error (.js e) ∧ Refines c' a := by
  have hread := poll_borrowPm (fun pm => pm.getPeer peerId) c
  rw [RefCell.tryRead_of_nonneg h.free.ge] at hread
  have hsome := h.peers peerId
  cases hfound : c.peerManager.value.getPeer peerId with
  | some peer =>
      rw [hfound] at hread hsome
      obtain ⟨old, hold⟩ := Option.isSome_iff_exists.mp hsome.symm
      refine ⟨_, _, _, poll_tryBind_ok hread rfl, ?_⟩
      simp only [Wasm.Client.getOrCreatePeer, hold]
      exact ⟨⟨peer, rfl⟩, h⟩
  | none =>
      rw [hfound] at hread hsome
      have hnone : a.peers peerId = none := by simpa using hsome.symm
      have hws := poll_borrowWs c
      rw [RefCell.tryRead_of_nonneg h.wsFree.ge, h.ws] at hws
      cases hsocket : a.ws with
      | false =>
          rw [hsocket] at hws
          refine ⟨_, _, _, poll_tryBind_ok hread (poll_tryBind_error hws), ?_⟩
          simp only [Wasm.Client.getOrCreatePeer, hnone, hsocket]
          exact ⟨rfl, h⟩
      | true =>
          rw [hsocket] at hws
          have hadd := poll_addPeer { c with conns := c.conns ++ [.newDefault] }
            ⟨peerId, c.conns.length⟩
          rw [if_pos h.free] at hadd
          refine ⟨_, _, _, poll_tryBind_ok hread (poll_tryBind_ok hws
            (poll_tryBind_ok rfl (poll_tryBind_ok hadd rfl))), ?_⟩
          simp only [Wasm.Client.getOrCreatePeer, hnone, hsocket]
          exact ⟨⟨_, rfl⟩, refines_addPeer h peerId _ _⟩

end Refines

/-! ## All interleavings -/

/-- What holds of the manager and of the peers that the calls have returned. -/
structure Sound (c : Client PeerID) (tr : List (Event PeerID)) : Prop where
  free : c.peerManager.borrows = 0
  manager : c.peerManager.value.Sound
  conns : c.conns.length = c.peerManager.value.peerCount
  got : ∀ id peer, .got id (.ok peer) ∈ tr → c.peerManager.value.getPeer id = some peer
  inserted : ∀ peer replaced, .inserted peer replaced ∈ tr → replaced = none

variable {c c' : Client PeerID} {tr es : List (Event PeerID)}

theorem Sound.extend (h : Sound c tr) (hfree : c'.peerManager.borrows = 0)
    (hmanager : c'.peerManager.value.Sound)
    (hconns : c'.conns.length = c'.peerManager.value.peerCount)
    (hkept : ∀ id peer, c.peerManager.value.getPeer id = some peer →
      c'.peerManager.value.getPeer id = some peer)
    (hgot : ∀ id peer, .got id (.ok peer) ∈ es → c'.peerManager.value.getPeer id = some peer)
    (hinserted : ∀ peer replaced, .inserted peer replaced ∈ es → replaced = none) :
    Sound c' (tr ++ es) := by
  refine ⟨hfree, hmanager, hconns, ?_, ?_⟩
  · intro id peer hmem
    rcases List.mem_append.mp hmem with hold | hnew
    · exact hkept id peer (h.got id peer hold)
    · exact hgot id peer hnew
  · intro peer replaced hmem
    rcases List.mem_append.mp hmem with hold | hnew
    · exact h.inserted peer replaced hold
    · exact hinserted peer replaced hnew

theorem Sound.gets (h : Sound c tr) {peerId : PeerID}
    {r : Except (Failure PeerID) (PeerRef PeerID)} (hgets : Gets c peerId es c' r) :
    Sound c' (tr ++ (es ++ [.got peerId r])) := by
  cases hgets with
  | found hpeer =>
      refine h.extend h.free h.manager h.conns (fun _ _ hold => hold) ?_ (by simp)
      rintro id peer hmem
      obtain ⟨rfl, rfl⟩ : id = peerId ∧ peer = _ := by simpa using hmem
      exact hpeer
  | created hnone =>
      refine h.extend h.free (h.manager.addPeer hnone) ?_ ?_ ?_ ?_
      · simp [PeerManager.addPeer, PeerManager.peerCount_addKnownPeerId, h.conns]
      · exact fun id peer hold => PeerManager.getPeer_addPeer hold hnone
      · rintro id peer hmem
        obtain ⟨rfl, rfl⟩ : id = peerId ∧ peer = _ := by simpa using hmem
        exact PeerManager.getPeer_addPeer_self _ _
      · rintro peer replaced hmem
        have hboth : peer = ⟨peerId, c.conns.length⟩ ∧ replaced = none := by simpa using hmem
        exact hboth.2
  | failed hmanager hconns =>
      have hsame := hconns h.free
      refine h.extend ?_ ?_ ?_ ?_ (by simp) (by simp)
      · rw [hmanager, h.free]
      · rw [hmanager]
        exact h.manager
      · rw [hmanager, hsame, h.conns]
      · rw [hmanager]
        exact fun _ _ hold => hold

theorem Sound.steps (h : Sound c tr) (hsteps : Steps c es c') : Sound c' (tr ++ es) := by
  cases hsteps with
  | other hmanager hconns hother =>
      refine h.extend ?_ ?_ ?_ ?_ ?_ ?_
      · rw [hmanager, h.free]
      · rw [hmanager]
        exact h.manager
      · rw [hmanager, hconns, h.conns]
      · rw [hmanager]
        exact fun _ _ hold => hold
      · exact fun id peer hmem => absurd (hother _ hmem) (by simp [Event.IsOther])
      · exact fun peer replaced hmem => absurd (hother _ hmem) (by simp [Event.IsOther])
  | discovered id =>
      refine h.extend h.free (h.manager.addKnownPeerId id) ?_ ?_ (by simp) (by simp)
      · rw [PeerManager.peerCount_addKnownPeerId, h.conns]
      · intro id' peer hold
        rw [PeerManager.getPeer, PeerManager.peers_addKnownPeerId]
        exact hold
  | got hgets => exact h.gets hgets

/-- The known identifiers only grow at their end. -/
theorem prefix_of_steps (hsteps : Steps c es c') :
    c.peerManager.value.knownPeerIds <+: c'.peerManager.value.knownPeerIds := by
  cases hsteps with
  | other hmanager _ _ => rw [hmanager]
  | discovered id => exact PeerManager.prefix_addKnownPeerId _ id
  | got hgets =>
      cases hgets with
      | found _ => exact List.prefix_rfl
      | created _ => exact PeerManager.prefix_addPeer _ _
      | failed hmanager _ => rw [hmanager]

theorem prefix_of_trail (h : Trail Steps c es c') :
    c.peerManager.value.knownPeerIds <+: c'.peerManager.value.knownPeerIds := by
  induction h with
  | nil => exact List.prefix_rfl
  | snoc _ hsteps ih => exact ih.trans (prefix_of_steps hsteps)

theorem sound_of_run {host : PeerID} {ls : List (Wake (Task PeerID) Settled)}
    {x : Executor (Client PeerID) Settled (Event PeerID)}
    (h : (tasks host).Run ls x tr) : Sound x.state tr := by
  have hinit : Sound (⟨.new .new, .new false, []⟩ : Client PeerID) [] :=
    ⟨rfl, PeerManager.sound_new, rfl, by simp, by simp⟩
  have hstep : ∀ (c : Client PeerID) (tr es : List (Event PeerID)) (c' : Client PeerID),
      Sound c tr → Steps c es c' → Sound c' (tr ++ es) := fun _ _ _ _ h hsteps => h.steps hsteps
  exact (Executor.trail_of_run (follows_run host) h).2.invariant hstep hinit

/-- A call of `get_or_create_peer` does not suspend, and if it fails it has added nothing. -/
theorem poll_getOrCreatePeer_error (c : Client PeerID) (peerId : PeerID) (rtc : Constructed) :
    ∃ c' es r, (callGetOrCreatePeer peerId rtc).run.poll c = ⟨c', es, .inl r⟩ ∧
      ∀ e, r = .error e → c'.peerManager.value.peers = c.peerManager.value.peers ∧
        c'.peerManager.value.knownPeerIds = c.peerManager.value.knownPeerIds := by
  obtain ⟨c', es, r, hpoll, hgets⟩ := poll_getOrCreatePeer c peerId rtc
  refine ⟨c', _, r, poll_callGetOrCreatePeer hpoll, ?_⟩
  rintro e rfl
  cases hgets with
  | failed hmanager _ => simp [hmanager]

/-- However the tasks of a client interleave, it has one peer for each identifier, with one
connection, and every call for the identifier that succeeds returns it. -/
theorem one_peer_per_id (host : PeerID) {ls ks : List (Wake (Task PeerID) Settled)}
    {x x' : Executor (Client PeerID) Settled (Event PeerID)} {tr tr' : List (Event PeerID)}
    (h : (tasks host).Run ls x tr) (h' : (tasks host).Run (ls ++ ks) x' tr') :
    let pm := x.state.peerManager.value
    (∀ id peer peer', .got id (.ok peer) ∈ tr → .got id (.ok peer') ∈ tr → peer = peer') ∧
      (∀ peer replaced, .inserted peer replaced ∈ tr → replaced = none) ∧
      pm.peerCount = pm.peers.entries.length ∧ x.state.conns.length = pm.peerCount ∧
      pm.knownPeerIds.Nodup ∧ (∀ id ∈ pm.peers, id ∈ pm.knownPeerIds) ∧
      pm.knownPeerIds <+: x'.state.peerManager.value.knownPeerIds ∧
      ∀ peerId rtc, ∃ c es r,
        (callGetOrCreatePeer peerId rtc).run.poll x.state = ⟨c, es, .inl r⟩ ∧
          ∀ e, r = .error e → c.peerManager.value.peers = pm.peers ∧
            c.peerManager.value.knownPeerIds = pm.knownPeerIds := by
  have hsound := sound_of_run h
  obtain ⟨es, -, htrail⟩ := Executor.trail_of_append (follows_run host) h h'
  refine ⟨?_, hsound.inserted, ?_, hsound.conns, hsound.manager.nodup, hsound.manager.known,
    prefix_of_trail htrail, poll_getOrCreatePeer_error x.state⟩
  · intro id peer peer' hgot hgot'
    have hsame := (hsound.got id peer hgot).symm.trans (hsound.got id peer' hgot')
    exact Option.some.inj hsame
  · rw [hsound.manager.count, AList.keys, List.keys, List.length_map]

/-- Two calls for peer 7 overlap: the second is made while the offer of the first is awaited,
and they share one connection. -/
theorem one_peer_per_id_overlapping :
    ∃ (x : Executor (Client Nat) Settled (Event Nat)) (tr : List (Event Nat)),
      (tasks 0).Run [.spawn (.connect (.ok ())), .spawn (.connectToPeer 7 (.ok ())),
        .spawn (.connectToPeer 7 (.ok ()))] x tr ∧ x.waiting.length = 2 ∧
      x.state.peerManager.value.peers.entries.length = 1 := by
  let ls : List (Wake (Task Nat) Settled) := [.spawn (.connect (.ok ())),
    .spawn (.connectToPeer 7 (.ok ())), .spawn (.connectToPeer 7 (.ok ()))]
  have hexec : ∃ x tr, (tasks 0).exec ls = some (x, tr) ∧ x.waiting.length = 2 ∧
      x.state.conns.length = 1 := ⟨_, _, rfl, rfl, rfl⟩
  obtain ⟨x, tr, hexec, hwaiting, hconns⟩ := hexec
  have hrun : (tasks 0).Run ls x tr := Machine.run_of_exec hexec
  have hsame : (tasks 0).Run (ls ++ []) x tr := by rwa [List.append_nil]
  obtain ⟨-, -, hcount, hone, -⟩ := one_peer_per_id 0 hrun hsame
  exact ⟨x, tr, hrun, hwaiting, by rw [← hcount, ← hone, hconns]⟩

end SfRs.Wasm.Peers
