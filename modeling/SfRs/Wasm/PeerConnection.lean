import SfRs.Protocol
/-!
# Peer connections

The signalling half of `RTCPeerConnection`, as the wrapper `PeerConnection` uses it.
A signaling state carries the pending descriptions it implies, and the current local
and remote descriptions are one value, because an answer sets them together.

`rollback` descriptions are rejected: in the states in which a client sets a remote
description there is no remote offer to roll back.
-/

namespace SfRs.Wasm

open SfRs.Protocol

inductive WebRTCError where
  | jsError (value : String)
  | endOfCandidates
  deriving DecidableEq

inductive SignalingState where
  | stable
  | haveLocalOffer (pendingLocal : SessionDescription)
  | haveRemoteOffer (pendingRemote : SessionDescription)
  | haveRemotePranswer (pendingLocal pendingRemote : SessionDescription)
  deriving DecidableEq

structure CurrentDescriptions where
  localDescription : SessionDescription
  remoteDescription : SessionDescription
  deriving DecidableEq

structure PeerConnection where
  signalingState : SignalingState
  current : Option CurrentDescriptions
  deriving DecidableEq

namespace PeerConnection

/-- `PeerConnection::new_default`. -/
def newDefault : PeerConnection := ⟨.stable, none⟩

def invalidState {α : Type} : Except WebRTCError α :=
  .error (.jsError "InvalidStateError")

/-- The pending local description, or else the current one. -/
def localDescription (pc : PeerConnection) : Option SessionDescription :=
  match pc.signalingState with
  | .haveLocalOffer d | .haveRemotePranswer d _ => some d
  | .stable | .haveRemoteOffer _ => pc.current.map (·.localDescription)

/-- `get_remote_description`: the pending remote description, or else the current one. -/
def remoteDescription (pc : PeerConnection) : Option SessionDescription :=
  match pc.signalingState with
  | .haveRemoteOffer d | .haveRemotePranswer _ d => some d
  | .stable | .haveLocalOffer _ => pc.current.map (·.remoteDescription)

def createOffer (pc : PeerConnection) (sdp : String) :
    Except WebRTCError SessionDescription :=
  match pc.signalingState with
  | .stable | .haveLocalOffer _ => .ok ⟨sdp, .offer⟩
  | .haveRemoteOffer _ | .haveRemotePranswer _ _ => invalidState

def createAnswer (pc : PeerConnection) (sdp : String) :
    Except WebRTCError SessionDescription :=
  match pc.signalingState with
  | .haveRemoteOffer _ => .ok ⟨sdp, .answer⟩
  | .stable | .haveLocalOffer _ | .haveRemotePranswer _ _ => invalidState

def setLocalDescription (pc : PeerConnection) (description : SessionDescription) :
    Except WebRTCError PeerConnection :=
  match pc.signalingState, description.sdpType with
  | .stable, .offer => .ok { pc with signalingState := .haveLocalOffer description }
  | .haveRemoteOffer remote, .answer => .ok ⟨.stable, some ⟨description, remote⟩⟩
  | _, _ => invalidState

/-- An offer that meets a local offer is rejected, or rolls the local offer back. -/
def setRemoteDescription (pc : PeerConnection) (rollsBack : Bool)
    (description : SessionDescription) : Except WebRTCError PeerConnection :=
  match pc.signalingState, description.sdpType with
  | .stable, .offer => .ok { pc with signalingState := .haveRemoteOffer description }
  | .haveLocalOffer _, .offer =>
      if rollsBack then .ok { pc with signalingState := .haveRemoteOffer description }
      else invalidState
  | .haveLocalOffer offer, .answer | .haveRemotePranswer offer _, .answer =>
      .ok ⟨.stable, some ⟨offer, description⟩⟩
  | .haveLocalOffer offer, .pranswer | .haveRemotePranswer offer _, .pranswer =>
      .ok { pc with signalingState := .haveRemotePranswer offer description }
  | _, _ => invalidState

@[simp] theorem localDescription_newDefault : newDefault.localDescription = none := rfl

@[simp] theorem remoteDescription_newDefault : newDefault.remoteDescription = none := rfl

theorem sdpType_of_createOffer {pc : PeerConnection} {sdp : String}
    {d : SessionDescription} (h : pc.createOffer sdp = .ok d) : d.sdpType = .offer := by
  unfold createOffer at h
  split at h <;> cases h
  all_goals rfl

theorem createAnswer_ok {pc : PeerConnection} {sdp : String} {d : SessionDescription}
    (h : pc.createAnswer sdp = .ok d) :
    d.sdpType = .answer ∧ ∃ remote, pc.signalingState = .haveRemoteOffer remote := by
  unfold createAnswer at h
  split at h
  case h_1 remote hstate =>
      cases h
      exact ⟨rfl, remote, hstate⟩
  all_goals cases h

/-- An offer is set locally from `stable`, an answer in reply to a remote offer. -/
theorem setLocalDescription_ok {pc pc' : PeerConnection} {d : SessionDescription}
    (h : pc.setLocalDescription d = .ok pc') :
    (pc.signalingState = .stable ∧ d.sdpType = .offer ∧
      pc' = { pc with signalingState := .haveLocalOffer d }) ∨
    ∃ remote, pc.signalingState = .haveRemoteOffer remote ∧ d.sdpType = .answer ∧
      pc' = ⟨.stable, some ⟨d, remote⟩⟩ := by
  unfold setLocalDescription at h
  split at h
  case h_1 hstate htype =>
      cases h
      exact Or.inl ⟨hstate, htype, rfl⟩
  case h_2 remote hstate htype =>
      cases h
      exact Or.inr ⟨remote, hstate, htype, rfl⟩
  case h_3 => cases h

theorem isSome_remoteDescription_of_setLocalDescription {pc pc' : PeerConnection}
    {d : SessionDescription} (h : pc.setLocalDescription d = .ok pc')
    (hremote : pc.remoteDescription.isSome) : pc'.remoteDescription.isSome := by
  rcases setLocalDescription_ok h with ⟨hstate, -, rfl⟩ | ⟨remote, -, -, rfl⟩
  · simpa [remoteDescription, hstate] using hremote
  · rfl

theorem isSome_remoteDescription_of_setRemoteDescription {pc pc' : PeerConnection}
    {rollsBack : Bool} {d : SessionDescription}
    (h : pc.setRemoteDescription rollsBack d = .ok pc') : pc'.remoteDescription.isSome := by
  unfold setRemoteDescription at h
  split at h
  case h_2 =>
      split at h <;> cases h
      rfl
  all_goals cases h
  all_goals rfl

theorem sdpType_of_haveRemoteOffer {pc pc' : PeerConnection} {rollsBack : Bool}
    {d remote : SessionDescription} (h : pc.setRemoteDescription rollsBack d = .ok pc')
    (hstate : pc'.signalingState = .haveRemoteOffer remote) : d.sdpType = .offer := by
  unfold setRemoteDescription at h
  split at h
  case h_1 htype => exact htype
  case h_2 htype => exact htype
  all_goals cases h
  all_goals cases hstate

/-- A local offer is answered, whatever the browser does with remote offers. -/
theorem setRemoteDescription_answer {pc : PeerConnection} {rollsBack : Bool}
    {d offer : SessionDescription} (hstate : pc.signalingState = .haveLocalOffer offer)
    (htype : d.sdpType = .answer) :
    pc.setRemoteDescription rollsBack d = .ok ⟨.stable, some ⟨offer, d⟩⟩ := by
  simp [setRemoteDescription, hstate, htype]

end PeerConnection

end SfRs.Wasm
