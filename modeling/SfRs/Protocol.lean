/-!
# The signalling protocol

The requests and events that clients and the server exchange.  Peer identifiers are
only compared, so they are a type parameter.
-/

namespace SfRs.Protocol

inductive SdpType where
  | offer
  | answer
  | pranswer
  | rollback
  deriving DecidableEq

structure SessionDescription where
  sdp : String
  sdpType : SdpType
  deriving DecidableEq

structure IceCandidate where
  candidate : Option String
  sdpMLineIndex : Option UInt16
  sdpMid : Option String
  deriving DecidableEq

def IceCandidate.isEndOfCandidates (c : IceCandidate) : Bool := c.candidate.isNone

/-- An event from the server to peers. -/
inductive PeerEvent (PeerID : Type) where
  | newPeer (peerId : PeerID)
  | message (peerId : PeerID) (message : String)
  | webRtcOffer (peerId : PeerID) (sessionDescription : SessionDescription)
  | webRtcCandidate (peerId : PeerID) (candidate : IceCandidate)
  deriving DecidableEq

inductive PeerRequest (PeerID : Type) where
  | keepAlive
  | forward (fromPeerId : PeerID) (toPeerId : Option PeerID) (data : PeerEvent PeerID)
  deriving DecidableEq

end SfRs.Protocol
