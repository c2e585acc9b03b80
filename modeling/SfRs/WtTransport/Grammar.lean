import SfRs.WtTransport.Multiaddr
/-!
# The grammar of WebTransport addresses

An address is a host, a UDP port, a QUIC version, `webtransport`, and the peer id if there
is one.  `multiaddr_to_socketaddr` reads all of these, but it does not look at the version
and takes any number of peer ids.
-/

namespace SfRs.WtTransport

open SfRs.Lib

inductive IsHost : Component → IpAddr → Prop
  | ip4 (ip : Ipv4Addr) : IsHost (.ip4 ip) (.v4 ip)
  | ip6 (ip : Ipv6Addr) : IsHost (.ip6 ip) (.v6 ip)

inductive IsQuic : Component → Prop
  | quic : IsQuic .quic
  | quicV1 : IsQuic .quicV1

/-- At most one `p2p` component. -/
inductive PeerPart : List Component → Option PeerId → Prop
  | absent : PeerPart [] none
  | present (id : PeerId) : PeerPart [.p2p id] (some id)

/-- The address grammar, with the endpoint and the peer that an address stands for. -/
inductive WebTransportForm : Multiaddr → SocketAddr → Option PeerId → Prop
  | mk {host version : Component} {ip : IpAddr} {port : UInt16} {tail : List Component}
      {peer : Option PeerId} (hhost : IsHost host ip) (hversion : IsQuic version)
      (htail : PeerPart tail peer) :
      WebTransportForm (host :: .udp port :: version :: .webTransport :: tail) ⟨ip, port⟩ peer

/-- `multiaddr_to_socketaddr` reads `ma` as the grammar does. -/
def ReadsGrammar (ma : Multiaddr) : Prop :=
  ∀ addr peer, multiaddrToSocketaddr ma = some (addr, peer) ↔ WebTransportForm ma addr peer

/-- All but the version and the number of the peer ids is as the grammar has it, and one of
these two is not. -/
def BeyondGrammar (ma : Multiaddr) : Prop :=
  ∃ host ip port version tail, ma = host :: .udp port :: version :: .webTransport :: tail ∧
    IsHost host ip ∧ (∀ c ∈ tail, ∃ id, c = .p2p id) ∧ (¬ IsQuic version ∨ 2 ≤ tail.length)

/-! ## What is accepted -/

variable {ma : Multiaddr} {addr : SocketAddr} {peer : Option PeerId}

/-- An accepted address, position by position. -/
theorem multiaddrToSocketaddr_eq_some_iff :
    multiaddrToSocketaddr ma = some (addr, peer) ↔
      ∃ host version tail, ma = host :: .udp addr.port :: version :: .webTransport :: tail ∧
        IsHost host addr.ip ∧ tailPeerId tail none = some peer := by
  constructor
  · intro h
    match ma, h with
    | proto₁ :: proto₂ :: version :: .webTransport :: tail, h =>
        rw [multiaddrToSocketaddr] at h
        cases htail : tailPeerId tail none with
        | none => simp [htail] at h
        | some peerId =>
            simp only [htail] at h
            split at h
            · cases h
              exact ⟨_, version, tail, rfl, .ip4 _, htail⟩
            · cases h
              exact ⟨_, version, tail, rfl, .ip6 _, htail⟩
            · cases h
  · rintro ⟨host, version, tail, rfl, hhost, htail⟩
    obtain ⟨ip, port⟩ := addr
    cases hhost with
    | ip4 ip => simp [multiaddrToSocketaddr, htail]
    | ip6 ip => simp [multiaddrToSocketaddr, htail]

theorem tailPeerId_of_peerPart {tail : List Component} (h : PeerPart tail peer) :
    tailPeerId tail none = some peer := by
  cases h with
  | absent => rfl
  | present id => rfl

/-- The peer ids are in order, so at most one of them is the grammar's. -/
theorem peerPart_of_tailPeerId {tail : List Component} (h : tailPeerId tail none = some peer)
    (hlen : tail.length < 2) : PeerPart tail peer := by
  match tail, hlen with
  | [], _ =>
      cases h
      exact .absent
  | [c], _ =>
      cases c with
      | p2p id =>
          cases h
          exact .present id
      | _ => cases h

/-- What the grammar has is accepted. -/
theorem WebTransportForm.accepted (h : WebTransportForm ma addr peer) :
    multiaddrToSocketaddr ma = some (addr, peer) := by
  obtain ⟨hhost, hversion, htail⟩ := h
  exact multiaddrToSocketaddr_eq_some_iff.mpr
    ⟨_, _, _, rfl, hhost, tailPeerId_of_peerPart htail⟩

/-- An accepted address is in the grammar unless it is one of those beyond it. -/
theorem webTransportForm_of_accepted (h : multiaddrToSocketaddr ma = some (addr, peer))
    (hnot : ¬ BeyondGrammar ma) : WebTransportForm ma addr peer := by
  obtain ⟨host, version, tail, rfl, hhost, htail⟩ := multiaddrToSocketaddr_eq_some_iff.mp h
  have hall : ∀ c ∈ tail, ∃ id, c = .p2p id :=
    (isSome_tailPeerId_iff tail none).mp (by rw [htail]; rfl)
  have hversion : IsQuic version := by
    by_contra hother
    exact hnot ⟨host, addr.ip, addr.port, version, tail, rfl, hhost, hall, .inl hother⟩
  have hlen : tail.length < 2 := by
    by_contra hmany
    exact hnot ⟨host, addr.ip, addr.port, version, tail, rfl, hhost, hall,
      .inr (Nat.le_of_not_lt hmany)⟩
  exact .mk hhost hversion (peerPart_of_tailPeerId htail hlen)

theorem BeyondGrammar.accepted (h : BeyondGrammar ma) :
    ∃ addr peer, multiaddrToSocketaddr ma = some (addr, peer) := by
  obtain ⟨host, ip, port, version, tail, rfl, hhost, hall, -⟩ := h
  obtain ⟨peer, hpeer⟩ := Option.isSome_iff_exists.mp ((isSome_tailPeerId_iff tail none).mpr hall)
  exact ⟨⟨ip, port⟩, peer,
    multiaddrToSocketaddr_eq_some_iff.mpr ⟨host, version, tail, rfl, hhost, hpeer⟩⟩

theorem BeyondGrammar.not_webTransportForm (h : BeyondGrammar ma) :
    ¬ WebTransportForm ma addr peer := by
  rintro ⟨hhost, hversion, htail⟩
  obtain ⟨host, ip, port, version, tail, heq, -, -, hwrong⟩ := h
  simp only [List.cons.injEq] at heq
  obtain ⟨-, -, rfl, -, rfl⟩ := heq
  rcases hwrong with hother | hmany
  · exact hother hversion
  · cases htail with
    | absent => simp at hmany
    | present id => simp at hmany

/-- The parser and the grammar differ on the addresses with another component in place of
the QUIC version or with more than one peer id, and on no others. -/
theorem readsGrammar_iff (ma : Multiaddr) : ReadsGrammar ma ↔ ¬ BeyondGrammar ma := by
  constructor
  · intro hreads hbeyond
    obtain ⟨addr, peer, haccepted⟩ := hbeyond.accepted
    exact hbeyond.not_webTransportForm ((hreads addr peer).mp haccepted)
  · intro hnot addr peer
    exact ⟨fun h => webTransportForm_of_accepted h hnot, fun h => h.accepted⟩

/-- `/ip4/1.1.1.1/udp/4433/tcp/443/webtransport` is accepted. -/
theorem not_readsGrammar_tcp :
    ¬ ReadsGrammar [.ip4 ⟨Vector.replicate 4 1⟩, .udp 4433, .tcp 443, .webTransport] := by
  intro hreads
  obtain ⟨-, hversion, -⟩ :=
    (hreads ⟨.v4 ⟨Vector.replicate 4 1⟩, 4433⟩ none).mp (by decide +kernel)
  cases hversion

end SfRs.WtTransport
