import SfRs.Lib.Mpsc
/-!
# Data channels

The wrapper `DataChannel` and the streams of its events.  The browser announces a channel
as open and as closed once each, and in between its `ready_state` only moves forward.  Of
the events of a channel, those of class `MessageEvent` carry data.

Sent and received messages are counted under one pair of names, so by one pair of counters.
-/

namespace SfRs.WebRtc

open SfRs.Lib

inductive RtcDataChannelState where
  | connecting
  | open
  | closing
  | closed
  deriving DecidableEq

inductive WebRTCError where
  | jsError (value : String)
  | serdeError (error : String)
  | endOfCandidates
  | dataChannelSend (value : String)
  | dataChannelNotOpen (state : Option RtcDataChannelState)
  | dataChannelInvalidDataType
  | eventError (text : String)
  deriving DecidableEq

inductive Message where
  | text (s : String)
  | binary (bytes : List UInt8)
  deriving DecidableEq

/-- What the listener finds in the data of a `MessageEvent`. -/
inductive MessageData where
  | string (s : String)
  | arrayBuffer (bytes : List UInt8)
  | blob
  | unknown
  deriving DecidableEq

/-- The counters `data_channel.message_count` and `data_channel.message_bytes`. -/
structure Counters where
  messageCount : UInt64
  messageBytes : UInt64
  deriving DecidableEq

/-- `announced`: the `open` event has been fired. -/
structure RtcDataChannel where
  label : String
  readyState : RtcDataChannelState
  announced : Bool
  deriving DecidableEq

def RtcDataChannelState.name : RtcDataChannelState → String
  | .connecting => "Connecting"
  | .open => "Open"
  | .closing => "Closing"
  | .closed => "Closed"

def WebRTCError.message : WebRTCError → String
  | .jsError value => s!"JavaScript error: {value}"
  | .serdeError error => s!"Serialization/Deserialization error: {error}"
  | .endOfCandidates => "End of candidates"
  | .dataChannelSend value => s!"DataChannel send error: {value}"
  | .dataChannelNotOpen (some state) => s!"DataChannel is not open (state: Some({state.name}))"
  | .dataChannelNotOpen none => "DataChannel is not open (state: None)"
  | .dataChannelInvalidDataType => "DataChannel received unexpected data type"
  | .eventError text => s!"Event error: {text}"

namespace Counters

/-- The increments of a message without its bytes. -/
def countMessage (m : Counters) : Counters := { m with messageCount := m.messageCount + 1 }

def countBytes (m : Counters) (bytes : Nat) : Counters :=
  { m with messageBytes := m.messageBytes + UInt64.ofNat bytes }

end Counters

/-- The listener of `message_stream`: the counters, and the item for the stream. -/
def receive (m : Counters) : MessageData → Counters × Except WebRTCError Message
  | .string s => (m.countMessage.countBytes s.utf8ByteSize, .ok (.text s))
  | .arrayBuffer bytes => (m.countMessage.countBytes bytes.length, .ok (.binary bytes))
  | .blob | .unknown => (m.countMessage, .error .dataChannelInvalidDataType)

namespace RtcDataChannel

/-- `createDataChannel(label)` of the browser. -/
def create (label : String) : RtcDataChannel := ⟨label, .connecting, false⟩

/-- What the three `send` functions share; the browser may throw. -/
def sendWith (self : RtcDataChannel) (m : Counters) (len : Nat) (thrown : Option String) :
    Except WebRTCError Counters :=
  if self.readyState ≠ .open then .error (.dataChannelNotOpen (some self.readyState))
  else
    match thrown with
    | some value => .error (.jsError value)
    | none => .ok (m.countMessage.countBytes len)

def send (self : RtcDataChannel) (m : Counters) (data : List UInt8) (thrown : Option String) :
    Except WebRTCError Counters :=
  self.sendWith m data.length thrown

def sendStr (self : RtcDataChannel) (m : Counters) (data : String) (thrown : Option String) :
    Except WebRTCError Counters :=
  self.sendWith m data.utf8ByteSize thrown

def sendArrayBuffer (self : RtcDataChannel) (m : Counters) (data : List UInt8)
    (thrown : Option String) : Except WebRTCError Counters :=
  self.sendWith m data.length thrown

/-- The browser sets the channel open, and fires `open`, unless it is being closed. -/
def announceOpen (self : RtcDataChannel) : Option RtcDataChannel :=
  match self.readyState, self.announced with
  | .connecting, false | .open, false => some { self with readyState := .open, announced := true }
  | _, _ => none

/-- `close()` of the wrapper, or the start of closing by the other side. -/
def close (self : RtcDataChannel) : RtcDataChannel :=
  match self.readyState with
  | .connecting | .open => { self with readyState := .closing }
  | .closing | .closed => self

/-- The browser sets the channel closed, and fires `close`. -/
def announceClosed (self : RtcDataChannel) : Option RtcDataChannel :=
  if self.readyState = .closed then none else some { self with readyState := .closed }

def isClosed (self : RtcDataChannel) : Bool :=
  match self.readyState with
  | .closing | .closed => true
  | .connecting | .open => false

end RtcDataChannel

/-! ## The stream of states -/

/-- `state_stream`: the state the channel is in comes first. -/
def stateStream (target : RtcDataChannel) : Unbounded RtcDataChannelState :=
  Unbounded.new.send target.readyState

/-- The listener for `open`. -/
def onOpen (c : Unbounded RtcDataChannelState) : Unbounded RtcDataChannelState := c.send .open

/-- The listener for `close`. -/
def onClose (target : RtcDataChannel) (c : Unbounded RtcDataChannelState) :
    Unbounded RtcDataChannelState :=
  let c := c.send target.readyState
  if target.readyState = .closed then c.closeChannel else c

end SfRs.WebRtc
