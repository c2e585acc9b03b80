import SfRs.Node.DialUrl
import SfRs.WtTransport.Announced
/-!
# Dialling what a listener announces

One node listens on all interfaces and announces their addresses as they come and go, and
another node dials an address that it was told.  As long as the address has not expired,
the connection is attempted to an interface that is up, at the port that was bound.
-/

namespace SfRs.EndToEnd

open SfRs.Lib SfRs.WtTransport SfRs.Dial

variable {Response Client Url : Type} {services : Services Response Client Url}
  {endpoint : Url → Option SocketAddr} {node : Node} {transport : WebTransport}
  {bind : SocketAddr} {ip : IpAddr} {port : UInt16} {ma : Multiaddr}

/-- An address of an interface is handed to the transport, and leads to the interface
unless the client cannot be made. -/
theorem dial_of_decodesAs (hurl : ParsesAddresses services.parseUrl endpoint)
    (hdecodes : DecodesAs ma ip port) (htransport : node.transports .webTransport = some transport)
    (peerId : PeerId) :
    ∃ url, endpoint url = some ⟨ip, port⟩ ∧ node.dial services peerId ma =
      .done (((dialClient services transport ⟨ip, port⟩).map fun client => ⟨client, url⟩).mapError
        .transport) := by
  obtain ⟨url, hconnect, hendpoint⟩ := connect_ok hurl ⟨ip, port⟩
  refine ⟨url, hendpoint, ?_⟩
  rw [Node.dial, hdecodes.protocol]
  cases hclient : dialClient services transport ⟨ip, port⟩ with
  | error e =>
      simp [htransport, WebTransport.dial, remoteMaToSocketaddr, hdecodes.dials, hclient,
        Except.map, Except.mapError]
  | ok client =>
      simp [htransport, WebTransport.dial, remoteMaToSocketaddr, hdecodes.dials, hclient, hconnect,
        Except.map, Except.mapError]

/-- The address of an IPv6 interface is not dialled over TCP. -/
theorem dial_fingerprint_v6 (hurl : ParsesAddresses services.parseUrl endpoint)
    (hget : ∀ url, services.parseUrl url = none → ∃ e, services.get url = .error e)
    {ip : Ipv6Addr} (hdecodes : DecodesAs ma (.v6 ip) port)
    (htransport : node.transports .webTransport = some ⟨true⟩) (peerId : PeerId) :
    ∃ e, node.dial services peerId ma = .done (.error (.transport (.reqwestError e))) := by
  obtain ⟨e, hfails⟩ := dial_v6_fails hurl hget peerId hdecodes.dials
  refine ⟨e, ?_⟩
  simp [Node.dial, hdecodes.protocol, htransport, hfails, Except.mapError]

/-- An address that a listener has announced, and not taken back, leads to an interface that
is up and to the port that the listener is bound to.  With the fingerprint asked for, that
of an IPv6 interface does not lead to a connection. -/
theorem dial_announced (hurl : ParsesAddresses services.parseUrl endpoint)
    (hget : ∀ url, services.parseUrl url = none → ∃ e, services.get url = .error e)
    (htransport : node.transports .webTransport = some transport) {results : List IfResult}
    {calls : Nat} (hcalls : results.length ≤ calls)
    (hannounced : ma ∈ (polledEvents bind calls results).foldl announcedAfter ∅)
    (peerId : PeerId) :
    ∃ ip ∈ results.foldl upAfter ∅, SameFamily bind.ip ip ∧
      (∃ url, endpoint url = some ⟨ip, bind.port⟩ ∧ node.dial services peerId ma =
        .done (((dialClient services transport ⟨ip, bind.port⟩).map fun client =>
          ⟨client, url⟩).mapError .transport)) ∧
      (transport.allowTcpFingerprint = true → (∃ ip', ip = .v6 ip') →
        ∃ e, node.dial services peerId ma = .done (.error (.transport (.reqwestError e)))) := by
  have haddresses := announced_results bind results ∅
  rw [show addressesOf bind ∅ = ∅ by simp [addressesOf]] at haddresses
  rw [polledEvents_eq hcalls, haddresses] at hannounced
  obtain ⟨ip, hup, haddress⟩ := hannounced
  obtain ⟨hfamily, rfl⟩ := ipToListenaddr_eq_some_iff.mp haddress
  have hdecodes := decodesAs_socketaddrToMultiaddr ⟨ip, bind.port⟩
  refine ⟨ip, hup, hfamily, dial_of_decodesAs hurl hdecodes htransport peerId, ?_⟩
  rintro hfingerprint ⟨ip', rfl⟩
  obtain ⟨allowTcpFingerprint⟩ := transport
  obtain rfl : allowTcpFingerprint = true := hfingerprint
  exact dial_fingerprint_v6 hurl hget hdecodes htransport peerId

/-- Services that refuse what is not the URL of an internet address. -/
def checkedServices : Services Unit Unit SocketAddr :=
  { addressServices with
    get := fun url => if (parseAddressUrl url).isSome then .ok () else .error "builder error" }

def diallingNode : Node where
  peerId := []
  transports _ := some ⟨true⟩

/-- The third interface is of the other family, and the first one goes down again. -/
def watched : List IfResult :=
  [.ok (.up (.v4 ⟨Vector.replicate 4 10⟩)), .ok (.up (.v4 ⟨Vector.replicate 4 20⟩)),
    .ok (.up (.v6 ⟨Vector.replicate 8 1⟩)), .ok (.down (.v4 ⟨Vector.replicate 4 10⟩))]

theorem dial_announced_watched :
    ∃ ip ∈ watched.foldl upAfter ∅, diallingNode.dial checkedServices []
        (socketaddrToMultiaddr ⟨.v4 ⟨Vector.replicate 4 20⟩, 4433⟩) =
      .done (.ok ⟨(), ⟨ip, 4433⟩⟩) := by
  have hget : ∀ url, checkedServices.parseUrl url = none →
      ∃ e, checkedServices.get url = .error e := by
    intro url hnone
    refine ⟨_, if_neg ?_⟩
    rw [show parseAddressUrl url = none from hnone]
    decide
  have hannounced : socketaddrToMultiaddr ⟨.v4 ⟨Vector.replicate 4 20⟩, 4433⟩ ∈
      (polledEvents ⟨.v4 ⟨Vector.replicate 4 0⟩, 4433⟩ 4 watched).foldl announcedAfter ∅ := by
    have hne : socketaddrToMultiaddr ⟨.v4 ⟨Vector.replicate 4 20⟩, 4433⟩ ≠
        socketaddrToMultiaddr ⟨.v4 ⟨Vector.replicate 4 10⟩, 4433⟩ := by decide
    exact ⟨Or.inl rfl, hne⟩
  have hurl : ParsesAddresses checkedServices.parseUrl some := parsesAddresses_parseAddressUrl
  have htransport : diallingNode.transports .webTransport = some ⟨true⟩ := rfl
  obtain ⟨ip, hup, hfamily, ⟨url, hendpoint, hdial⟩, -⟩ :=
    dial_announced hurl hget htransport (by decide) hannounced []
  obtain ⟨-, ip', -, rfl⟩ | ⟨_, -, h, -⟩ := hfamily
  · obtain rfl : url = ⟨.v4 ip', 4433⟩ := Option.some.inj hendpoint
    obtain ⟨_, hparse, -⟩ := (contactsAddress_v4 hurl ip' 4433).fingerprint
    have hfingerprint : checkedServices.get (fingerprintUrl ⟨.v4 ip', 4433⟩) = .ok () :=
      if_pos (Option.isSome_iff_exists.mpr ⟨_, hparse⟩)
    have hclient : dialClient checkedServices ⟨true⟩ ⟨.v4 ip', 4433⟩ = .ok () := by
      rw [dialClient, if_pos rfl, fetchFingerprint_eq, hfingerprint]
      rfl
    rw [hclient] at hdial
    exact ⟨.v4 ip', hup, hdial⟩
  · exact absurd h (by simp)

end SfRs.EndToEnd
