import Mathlib.Logic.Function.Basic
import SfRs.Lib.Machine
import SfRs.WebRtc.DataChannel
/-!
# The data channels of a page

Every `Peer` reads the data channels that its connection announces, and a call of
`make_offer` creates one.  Of each channel three tasks read the streams: `client` is told
of its states and of its texts, and errors are logged.  A task that ends drops its stream,
and with it the listener.

A step is one such task resumed once, a call up to its first await, or what the browser
does to a channel.  Channels are named by the order in which they appear on the page.
-/

set_option linter.unusedSectionVars false

namespace SfRs.Wasm.Channels

open SfRs.Lib SfRs.WebRtc

def defaultChannelName : String := "sf-channel"

/-- The events of a client that are about data channels. -/
inductive ClientEvent (PeerID : Type) where
  | dataChannelOpen (peerId : PeerID)
  | dataChannelClose (peerId : PeerID)
  | dataChannelMessage (peerId : PeerID) (message : String)
  deriving DecidableEq

inductive JsError (PeerID : Type) where
  | peerNotFound (peerId : PeerID)
  | webRtc (error : WebRtc.WebRTCError)
  deriving DecidableEq

/-- A channel with the streams that its tasks still read. -/
structure Channel (PeerID : Type) where
  peerId : PeerID
  inner : RtcDataChannel
  states : Option (Unbounded RtcDataChannelState)
  messages : Option (Unbounded (Except WebRtc.WebRTCError Message))

/-- `dc`: the channel that texts are sent on. -/
structure Peer where
  dc : Option Nat
  dcStream : Unbounded Nat

/-- `fresh`: the name of the next channel. -/
structure Page (PeerID : Type) where
  peers : PeerID → Option Peer
  channels : Nat → Option (Channel PeerID)
  fresh : Nat
  counters : Counters

inductive Event (PeerID : Type) where
  | created (i : Nat) (peerId : PeerID)
  | installed (i : Nat) (state : RtcDataChannelState)
  | opened (i : Nat)
  | closed (i : Nat)
  /-- A `message` event, and whether a listener heard it. -/
  | dispatched (i : Nat) (data : MessageData) (heard : Bool)
  /-- The tasks of the channel notify the client. -/
  | notified (i : Nat) (event : ClientEvent PeerID)
  | sent (i : Nat) (message : String)
  | returned (result : Except (JsError PeerID) Unit)
  deriving DecidableEq

inductive Action (PeerID : Type) where
  | newPeer (peerId : PeerID)
  | makeOffer (peerId : PeerID)
  | sendMessageToPeer (peerId : PeerID) (message : String) (thrown : Option String)
  /-- The browser fires `datachannel` on the connection to `peerId`. -/
  | dataChannel (peerId : PeerID) (label : String) (isOpen : Bool)
  | announceOpen (i : Nat)
  | close (i : Nat)
  | announceClosed (i : Nat)
  | dispatch (i : Nat) (data : MessageData)
  | pollChannels (peerId : PeerID)
  | pollStates (i : Nat)
  | pollMessages (i : Nat)

variable {PeerID : Type}

def JsError.message [ToString PeerID] : JsError PeerID → String
  | .peerNotFound peerId => s!"Peer not found for sending message: {peerId}"
  | .webRtc error => error.message

/-- The channel that an event is about. -/
def Event.channel? : Event PeerID → Option Nat
  | .created i _ | .installed i _ | .opened i | .closed i | .dispatched i _ _ | .notified i _
  | .sent i _ => some i
  | .returned _ => none

/-- What the task of `state_stream` tells the client. -/
def stateEvent (peerId : PeerID) : RtcDataChannelState → Option (ClientEvent PeerID)
  | .open => some (.dataChannelOpen peerId)
  | .closed => some (.dataChannelClose peerId)
  | .connecting | .closing => none

/-- What the task of `message_stream` tells the client. -/
def messageEvent (peerId : PeerID) : Message → Option (ClientEvent PeerID)
  | .text message => some (.dataChannelMessage peerId message)
  | .binary _ => none

namespace Channel

/-- `init_data_channel_callbacks`. -/
def install (ch : Channel PeerID) : Channel PeerID :=
  { ch with states := some (stateStream ch.inner), messages := some .new }

/-- The task of `state_stream` takes the next state, or ends with its stream. -/
def pollStates (i : Nat) (ch : Channel PeerID) : Option (Channel PeerID × List (Event PeerID)) :=
  match ch.states with
  | none => none
  | some c =>
      match c.pollNext with
      | .ready (some state, c) =>
          some ({ ch with states := some c },
            (stateEvent ch.peerId state).toList.map (.notified i))
      | .ready (none, _) => some ({ ch with states := none }, [])
      | .pending => none

/-- The task of `message_stream` takes the next message; an error ends it too. -/
def pollMessages (i : Nat) (ch : Channel PeerID) : Option (Channel PeerID × List (Event PeerID)) :=
  match ch.messages with
  | none => none
  | some c =>
      match c.pollNext with
      | .ready (some (.ok message), c) =>
          some ({ ch with messages := some c },
            (messageEvent ch.peerId message).toList.map (.notified i))
      | .ready (_, _) => some ({ ch with messages := none }, [])
      | .pending => none

end Channel

namespace Page

def init : Page PeerID := ⟨fun _ => none, fun _ => none, 0, ⟨0, 0⟩⟩

def setChannel (w : Page PeerID) (i : Nat) (ch : Channel PeerID) : Page PeerID :=
  { w with channels := Function.update w.channels i (some ch) }

/-- A channel appears on the page. -/
def addChannel (w : Page PeerID) (ch : Channel PeerID) : Page PeerID :=
  { w.setChannel w.fresh ch with fresh := w.fresh + 1 }

/-- A step of a channel that leaves the rest of the page alone. -/
def onChannel (w : Page PeerID) (i : Nat)
    (f : Channel PeerID → Option (Channel PeerID × List (Event PeerID))) :
    Option (Page PeerID × List (Event PeerID)) :=
  (w.channels i).bind fun ch => (f ch).map fun r => (w.setChannel i r.1, r.2)

/-- The listener for `message` counts what it hears. -/
def dispatch (w : Page PeerID) (i : Nat) (data : MessageData) :
    Option (Page PeerID × List (Event PeerID)) :=
  match w.channels i with
  | none => none
  | some ch =>
      match ch.messages with
      | some c =>
          let r := receive w.counters data
          some ({ w.setChannel i { ch with messages := some (c.send r.2) } with counters := r.1 },
            [.dispatched i data true])
      | none => some (w, [.dispatched i data false])

variable [DecidableEq PeerID]

def setPeer (w : Page PeerID) (peerId : PeerID) (peer : Peer) : Page PeerID :=
  { w with peers := Function.update w.peers peerId (some peer) }

/-- `make_offer` up to its first await. -/
def makeOffer (w : Page PeerID) (peerId : PeerID) :
    Option (Page PeerID × List (Event PeerID)) :=
  match w.peers peerId with
  | none => none
  | some peer =>
      let i := w.fresh
      let ch : Channel PeerID := ⟨peerId, .create defaultChannelName, none, none⟩
      some ((w.addChannel ch.install).setPeer peerId { peer with dc := some i },
        [.created i peerId, .installed i ch.inner.readyState])

/-- `send_message_to_peer`. -/
def sendMessageToPeer (w : Page PeerID) (peerId : PeerID) (message : String)
    (thrown : Option String) : Page PeerID × List (Event PeerID) :=
  match w.peers peerId with
  | none => (w, [.returned (.error (.peerNotFound peerId))])
  | some peer =>
      -- without a channel `direct_send_str` sends nothing, and succeeds
      match peer.dc.bind fun i => (w.channels i).map (i, ·) with
      | none => (w, [.returned (.ok ())])
      | some (i, ch) =>
          match ch.inner.sendStr w.counters message thrown with
          | .ok counters => ({ w with counters := counters }, [.sent i message, .returned (.ok ())])
          | .error e => (w, [.returned (.error (.webRtc e))])

/-- The listener for `datachannel`. -/
def dataChannel (w : Page PeerID) (peerId : PeerID) (label : String) (isOpen : Bool) :
    Option (Page PeerID × List (Event PeerID)) :=
  match w.peers peerId with
  | none => none
  | some peer =>
      let i := w.fresh
      let inner : RtcDataChannel := ⟨label, if isOpen then .open else .connecting, false⟩
      some ((w.addChannel ⟨peerId, inner, none, none⟩).setPeer peerId
        { peer with dcStream := peer.dcStream.send i }, [.created i peerId])

/-- The task of `data_channel_stream` takes the next channel. -/
def pollChannels (w : Page PeerID) (peerId : PeerID) :
    Option (Page PeerID × List (Event PeerID)) :=
  match w.peers peerId with
  | none => none
  | some peer =>
      match peer.dcStream.pollNext with
      | .ready (some i, dcStream) =>
          let w' := w.setPeer peerId { peer with dcStream := dcStream }
          (w.channels i).map fun ch =>
            if ch.inner.label = defaultChannelName then
              ((w'.setChannel i ch.install).setPeer peerId ⟨some i, dcStream⟩,
                [.installed i ch.inner.readyState])
            else (w', [])
      | _ => none

def step (w : Page PeerID) : Action PeerID → Option (Page PeerID × List (Event PeerID))
  | .newPeer peerId =>
      if (w.peers peerId).isNone then some (w.setPeer peerId ⟨none, .new⟩, []) else none
  | .makeOffer peerId => w.makeOffer peerId
  | .sendMessageToPeer peerId message thrown => some (w.sendMessageToPeer peerId message thrown)
  | .dataChannel peerId label isOpen => w.dataChannel peerId label isOpen
  | .announceOpen i =>
      w.onChannel i fun ch => ch.inner.announceOpen.map fun inner =>
        ({ ch with inner := inner, states := ch.states.map onOpen }, [.opened i])
  | .close i => w.onChannel i fun ch => some ({ ch with inner := ch.inner.close }, [])
  | .announceClosed i =>
      w.onChannel i fun ch => ch.inner.announceClosed.map fun inner =>
        ({ ch with inner := inner, states := ch.states.map (onClose inner) }, [.closed i])
  | .dispatch i data => w.dispatch i data
  | .pollChannels peerId => w.pollChannels peerId
  | .pollStates i => w.onChannel i (Channel.pollStates i)
  | .pollMessages i => w.onChannel i (Channel.pollMessages i)

end Page

/-! ## What a step can do -/

/-- What happens to a channel, with the counters. -/
inductive Channel.Acts (i : Nat) (ch : Channel PeerID) (m : Counters) :
    Channel PeerID → Counters → List (Event PeerID) → Prop
  | opened {inner} (hopen : ch.inner.announceOpen = some inner) :
      Acts i ch m { ch with inner := inner, states := ch.states.map onOpen } m [.opened i]
  | closing : Acts i ch m { ch with inner := ch.inner.close } m []
  | closed {inner} (hclosed : ch.inner.announceClosed = some inner) :
      Acts i ch m { ch with inner := inner, states := ch.states.map (onClose inner) } m
        [.closed i]
  | heard {c} (hmessages : ch.messages = some c) (data : MessageData) :
      Acts i ch m { ch with messages := some (c.send (receive m data).2) } (receive m data).1
        [.dispatched i data true]
  | missed (hmessages : ch.messages = none) (data : MessageData) :
      Acts i ch m ch m [.dispatched i data false]
  | stateTaken {c c' state} (hstates : ch.states = some c)
      (hpoll : c.pollNext = .ready (some state, c')) :
      Acts i ch m { ch with states := some c' } m
        ((stateEvent ch.peerId state).toList.map (.notified i))
  | statesEnded {c c'} (hstates : ch.states = some c) (hpoll : c.pollNext = .ready (none, c')) :
      Acts i ch m { ch with states := none } m []
  | messageTaken {c c' message} (hmessages : ch.messages = some c)
      (hpoll : c.pollNext = .ready (some (.ok message), c')) :
      Acts i ch m { ch with messages := some c' } m
        ((messageEvent ch.peerId message).toList.map (.notified i))
  | messagesFailed {c c' e} (hmessages : ch.messages = some c)
      (hpoll : c.pollNext = .ready (some (.error e), c')) :
      Acts i ch m { ch with messages := none } m []
  | messagesEnded {c c'} (hmessages : ch.messages = some c)
      (hpoll : c.pollNext = .ready (none, c')) :
      Acts i ch m { ch with messages := none } m []

theorem Channel.acts_of_pollStates {i : Nat} {ch ch' : Channel PeerID} {es : List (Event PeerID)}
    (h : ch.pollStates i = some (ch', es)) (m : Counters) :
    ch.Acts i m ch' m es ∧ ∀ data heard, .dispatched i data heard ∉ es := by
  unfold pollStates at h
  split at h
  case h_1 => cases h
  case h_2 c hstates =>
      split at h
      case h_1 state c' hpoll =>
          cases h
          exact ⟨.stateTaken hstates hpoll, by simp⟩
      case h_2 c' hpoll =>
          cases h
          exact ⟨.statesEnded hstates hpoll, by simp⟩
      case h_3 => cases h

theorem Channel.acts_of_pollMessages {i : Nat} {ch ch' : Channel PeerID}
    {es : List (Event PeerID)} (h : ch.pollMessages i = some (ch', es)) (m : Counters) :
    ch.Acts i m ch' m es ∧ ∀ data heard, .dispatched i data heard ∉ es := by
  unfold pollMessages at h
  split at h
  case h_1 => cases h
  case h_2 c hmessages =>
      split at h
      case h_1 message c' hpoll =>
          cases h
          exact ⟨.messageTaken hmessages hpoll, by simp⟩
      case h_2 item c' hnot hpoll =>
          cases h
          rcases item with _ | e | message
          · exact ⟨.messagesEnded hmessages hpoll, by simp⟩
          · exact ⟨.messagesFailed hmessages hpoll, by simp⟩
          · exact absurd rfl (hnot message)
      case h_3 => cases h

namespace Page

variable [DecidableEq PeerID]

/-- The steps of a page, one constructor for each kind of effect. -/
inductive Steps (w : Page PeerID) : Action PeerID → Page PeerID → List (Event PeerID) → Prop
  | newPeer {p} (hnone : w.peers p = none) : Steps w (.newPeer p) (w.setPeer p ⟨none, .new⟩) []
  | offered {p peer} (hpeer : w.peers p = some peer) :
      Steps w (.makeOffer p)
        ((w.addChannel (Channel.install ⟨p, .create defaultChannelName, none, none⟩)).setPeer p
          { peer with dc := some w.fresh })
        [.created w.fresh p, .installed w.fresh .connecting]
  | announced {p peer label isOpen} (hpeer : w.peers p = some peer) :
      Steps w (.dataChannel p label isOpen)
        ((w.addChannel ⟨p, ⟨label, if isOpen then .open else .connecting, false⟩, none, none⟩)
          |>.setPeer p { peer with dcStream := peer.dcStream.send w.fresh })
        [.created w.fresh p]
  | taken {p peer i dcStream ch} (hpeer : w.peers p = some peer)
      (hpoll : peer.dcStream.pollNext = .ready (some i, dcStream)) (hch : w.channels i = some ch)
      (hlabel : ch.inner.label = defaultChannelName) :
      Steps w (.pollChannels p)
        (((w.setPeer p { peer with dcStream := dcStream }).setChannel i ch.install).setPeer p
          ⟨some i, dcStream⟩) [.installed i ch.inner.readyState]
  | ignored {p peer i dcStream} (hpeer : w.peers p = some peer)
      (hpoll : peer.dcStream.pollNext = .ready (some i, dcStream)) :
      Steps w (.pollChannels p) (w.setPeer p { peer with dcStream := dcStream }) []
  | unsent {p message thrown} (result) :
      Steps w (.sendMessageToPeer p message thrown) w [.returned result]
  | sent {p message thrown i ch counters} (hch : w.channels i = some ch)
      (hsent : ch.inner.sendStr w.counters message thrown = .ok counters) :
      Steps w (.sendMessageToPeer p message thrown) { w with counters := counters }
        [.sent i message, .returned (.ok ())]
  | acts {a i ch ch' m es} (hch : w.channels i = some ch)
      (hacts : ch.Acts i w.counters ch' m es)
      (hdispatch : ∀ data heard, .dispatched i data heard ∈ es → a = .dispatch i data) :
      Steps w a { w.setChannel i ch' with counters := m } es

variable {w w' : Page PeerID} {es : List (Event PeerID)}

theorem steps_of_onChannel {a : Action PeerID} {i : Nat}
    {f : Channel PeerID → Option (Channel PeerID × List (Event PeerID))}
    (h : w.onChannel i f = some (w', es))
    (hf : ∀ ch ch', f ch = some (ch', es) → ch.Acts i w.counters ch' w.counters es ∧
      ∀ data heard, .dispatched i data heard ∉ es) :
    w.Steps a w' es := by
  obtain ⟨ch, hch, hmap⟩ := Option.bind_eq_some_iff.mp h
  obtain ⟨⟨ch', es'⟩, hstep, hpair⟩ := Option.map_eq_some_iff.mp hmap
  cases hpair
  obtain ⟨hacts, hes⟩ := hf ch ch' hstep
  exact .acts hch hacts fun data heard hmem => absurd hmem (hes data heard)

theorem setChannel_eq_self {i : Nat} {ch : Channel PeerID} (hch : w.channels i = some ch) :
    w.setChannel i ch = w := by
  simp [setChannel, ← hch]

theorem steps_of_dispatch {i : Nat} {data : MessageData} (h : w.dispatch i data = some (w', es)) :
    w.Steps (.dispatch i data) w' es := by
  unfold dispatch at h
  split at h
  case h_1 => cases h
  case h_2 ch hch =>
      split at h
      case h_1 c hmessages =>
          cases h
          exact .acts hch (.heard hmessages data) (by simp)
      case h_2 hmessages =>
          cases h
          have hacts := Steps.acts (w := w) (a := .dispatch i data) hch (.missed hmessages data)
            (by simp)
          rwa [setChannel_eq_self hch] at hacts

theorem steps_of_step {a : Action PeerID} (h : w.step a = some (w', es)) : w.Steps a w' es := by
  cases a with
  | newPeer p =>
      simp only [step] at h
      split at h
      case isTrue hnone =>
          cases h
          exact .newPeer (Option.isNone_iff_eq_none.mp hnone)
      case isFalse => cases h
  | makeOffer p =>
      simp only [step, makeOffer] at h
      split at h
      case h_1 => cases h
      case h_2 peer hpeer =>
          cases h
          exact .offered hpeer
  | sendMessageToPeer p message thrown =>
      simp only [step, sendMessageToPeer] at h
      split at h
      case h_1 =>
          cases h
          exact .unsent _
      case h_2 peer hpeer =>
          split at h
          case h_1 =>
              cases h
              exact .unsent _
          case h_2 i ch hdc =>
              obtain ⟨i', -, hmap⟩ := Option.bind_eq_some_iff.mp hdc
              obtain ⟨ch', hch, hpair⟩ := Option.map_eq_some_iff.mp hmap
              cases hpair
              split at h
              case h_1 counters hsent =>
                  cases h
                  exact .sent hch hsent
              case h_2 =>
                  cases h
                  exact .unsent _
  | dataChannel p label isOpen =>
      simp only [step, dataChannel] at h
      split at h
      case h_1 => cases h
      case h_2 peer hpeer =>
          cases h
          exact .announced hpeer
  | announceOpen i =>
      refine steps_of_onChannel h fun ch ch' hmap => ?_
      obtain ⟨inner, hopen, hpair⟩ := Option.map_eq_some_iff.mp hmap
      cases hpair
      exact ⟨.opened hopen, by simp⟩
  | close i =>
      refine steps_of_onChannel h fun ch ch' hmap => ?_
      cases hmap
      exact ⟨.closing, by simp⟩
  | announceClosed i =>
      refine steps_of_onChannel h fun ch ch' hmap => ?_
      obtain ⟨inner, hclosed, hpair⟩ := Option.map_eq_some_iff.mp hmap
      cases hpair
      exact ⟨.closed hclosed, by simp⟩
  | dispatch i data => exact steps_of_dispatch h
  | pollChannels p =>
      simp only [step, pollChannels] at h
      split at h
      case h_1 => cases h
      case h_2 peer hpeer =>
          split at h
          case h_1 i dcStream hpoll =>
              obtain ⟨ch, hch, heq⟩ := Option.map_eq_some_iff.mp h
              split at heq
              case isTrue hlabel =>
                  cases heq
                  exact .taken hpeer hpoll hch hlabel
              case isFalse =>
                  cases heq
                  exact .ignored hpeer hpoll
          case h_2 => cases h
  | pollStates i => exact steps_of_onChannel h fun _ _ hpoll => Channel.acts_of_pollStates hpoll _
  | pollMessages i =>
      exact steps_of_onChannel h fun _ _ hpoll => Channel.acts_of_pollMessages hpoll _

end Page

/-- The page, whatever the scripts call and the browser does. -/
def page [DecidableEq PeerID] : Machine (Page PeerID) (Action PeerID) (Event PeerID) :=
  ⟨.init, Page.step⟩

end SfRs.Wasm.Channels
