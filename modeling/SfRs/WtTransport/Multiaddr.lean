import SfRs.Lib.Net
/-!
# Multiaddresses

A multiaddress is a sequence of protocol components.  `multiaddr_to_socketaddr`
looks at fixed positions; the lemma at the end describes the addresses it takes.
-/

namespace SfRs.WtTransport

open SfRs.Lib

/-- The bytes of a libp2p peer id. -/
abbrev PeerId := List UInt8

/-- A protocol component.  The components that no function of the transport looks for
are kept by their code and argument. -/
inductive Component where
  | ip4 (ip : Ipv4Addr)
  | ip6 (ip : Ipv6Addr)
  | tcp (port : UInt16)
  | udp (port : UInt16)
  | quic
  | quicV1
  | webTransport
  | p2p (id : PeerId)
  | other (code : Nat) (argument : List UInt8)
  deriving DecidableEq

abbrev Multiaddr := List Component

/-- The errors of `sf_wt_transport`, with the text of a third-party error. -/
inductive Error where
  | invalidServer
  | invalidQuicEndpoint (text : String)
  | invalidMultiaddr (ma : Multiaddr)
  | io (text : String)
  | reqwestError (text : String)
  | hexError (text : String)
  | webTransport (text : String)
  deriving DecidableEq

/-- The loop of `multiaddr_to_socketaddr` over the components after the fourth. -/
def tailPeerId : List Component → Option PeerId → Option (Option PeerId)
  | [], peerId => some peerId
  | .p2p id :: iter, _ => tailPeerId iter (some id)
  | _ :: _, _ => none

def multiaddrToSocketaddr : Multiaddr → Option (SocketAddr × Option PeerId)
  | proto₁ :: proto₂ :: _ :: .webTransport :: iter =>
      match tailPeerId iter none with
      | none => none
      | some peerId =>
          match proto₁, proto₂ with
          | .ip4 ip, .udp port => some (⟨.v4 ip, port⟩, peerId)
          | .ip6 ip, .udp port => some (⟨.v6 ip, port⟩, peerId)
          | _, _ => none
  | _ => none

def remoteMaToSocketaddr (ma : Multiaddr) : Except Error (SocketAddr × Option PeerId) :=
  match multiaddrToSocketaddr ma with
  | some res => .ok res
  | none => .error (.invalidMultiaddr ma)

/-- `ip4` or `ip6`, then `udp`, any one component, `webtransport`, and only `p2p`
components after it. -/
def DialForm (ma : Multiaddr) : Prop :=
  ∃ host port version iter, ma = host :: .udp port :: version :: .webTransport :: iter ∧
    ((∃ ip, host = .ip4 ip) ∨ ∃ ip, host = .ip6 ip) ∧ ∀ c ∈ iter, ∃ id, c = .p2p id

theorem isSome_tailPeerId_iff (iter : List Component) (peerId : Option PeerId) :
    (tailPeerId iter peerId).isSome ↔ ∀ c ∈ iter, ∃ id, c = .p2p id := by
  induction iter generalizing peerId with
  | nil => simp [tailPeerId]
  | cons c iter ih => cases c <;> simp [tailPeerId, ih]

theorem isSome_multiaddrToSocketaddr_iff (ma : Multiaddr) :
    (multiaddrToSocketaddr ma).isSome ↔ DialForm ma := by
  constructor
  · intro h
    match ma, h with
    | proto₁ :: proto₂ :: version :: .webTransport :: iter, h =>
        have htail : (tailPeerId iter none).isSome := by
          rw [multiaddrToSocketaddr] at h
          cases htail : tailPeerId iter none with
          | none => simp [htail] at h
          | some peerId => rfl
        obtain ⟨peerId, hpeer⟩ := Option.isSome_iff_exists.mp htail
        have hall := (isSome_tailPeerId_iff iter none).mp htail
        simp only [multiaddrToSocketaddr, hpeer] at h
        split at h
        · exact ⟨_, _, _, _, rfl, Or.inl ⟨_, rfl⟩, hall⟩
        · exact ⟨_, _, _, _, rfl, Or.inr ⟨_, rfl⟩, hall⟩
        · simp at h
  · rintro ⟨host, port, version, iter, rfl, hhost, hall⟩
    obtain ⟨peerId, hpeer⟩ :=
      Option.isSome_iff_exists.mp ((isSome_tailPeerId_iff iter none).mpr hall)
    rcases hhost with ⟨ip, rfl⟩ | ⟨ip, rfl⟩
    · simp [multiaddrToSocketaddr, hpeer]
    · simp [multiaddrToSocketaddr, hpeer]

end SfRs.WtTransport
