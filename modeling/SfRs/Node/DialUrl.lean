import SfRs.Lib.Url
import SfRs.Node.Dial
import SfRs.WtTransport.Grammar
/-!
# The URLs that dialling requests

The parsed address is formatted twice: in `url_from_socket_addr` with brackets around an
IPv6 address, and for the fingerprint without them.
-/

namespace SfRs.Dial

open SfRs.Lib SfRs.WtTransport

variable {Response Client Url : Type}

/-- The text that `url_from_socket_addr` parses. -/
def socketAddrUrl (addr : SocketAddr) (scheme : String) : String :=
  scheme ++ "://" ++ urlHost addr.ip ++ ":" ++ toString addr.port.toNat

/-- The text that the fingerprint is requested with. -/
def fingerprintUrl (addr : SocketAddr) : String :=
  "http://" ++ addr.ip.display ++ ":" ++ toString addr.port.toNat ++ "/fingerprint"

theorem urlFromSocketAddr_eq (services : Services Response Client Url) (addr : SocketAddr)
    (scheme : String) :
    urlFromSocketAddr services addr scheme =
      Outcome.expect (services.parseUrl (socketAddrUrl addr scheme)) := rfl

theorem fetchFingerprint_eq (services : Services Response Client Url) (addr : SocketAddr) :
    fetchFingerprint services addr =
      ((services.get (fingerprintUrl addr)).mapError .reqwestError >>= fun response =>
        (services.text response).mapError .reqwestError >>= fun text =>
          (services.decodeHex text).mapError .hexError) := rfl

/-- Both URLs are well formed, and denote the address by the same authority. -/
structure ContactsAddress (services : Services Response Client Url)
    (endpoint : Url → Option SocketAddr) (addr : SocketAddr) : Prop where
  fingerprint : ∃ url, services.parseUrl (fingerprintUrl addr) = some url ∧
    endpoint url = some addr
  connect : ∃ url, urlFromSocketAddr services addr "https" = .done url ∧
    endpoint url = some addr
  authority : authority (fingerprintUrl addr) = authority (socketAddrUrl addr "https")

variable {services : Services Response Client Url} {endpoint : Url → Option SocketAddr}

/-- The host and port of a URL from an address, as its authority. -/
def hostPort (addr : SocketAddr) : String := urlHost addr.ip ++ ":" ++ toString addr.port.toNat

theorem readAuthority_hostPort (addr : SocketAddr) :
    readAuthority (hostPort addr).toList = some addr := by
  obtain ⟨ip, port⟩ := addr
  cases ip with
  | v4 ip => exact readAuthority_v4 ip port
  | v6 ip => exact readAuthority_v6 ip port

theorem socketAddrUrl_eq (addr : SocketAddr) (scheme : String) :
    socketAddrUrl addr scheme = scheme ++ "://" ++ hostPort addr ++ "" := by
  simp only [socketAddrUrl, hostPort, String.append_assoc, String.append_empty]

theorem http_scheme : "http://" = "http" ++ "://" := rfl

theorem fingerprintUrl_v4 (ip : Ipv4Addr) (port : UInt16) :
    fingerprintUrl ⟨.v4 ip, port⟩ =
      "http" ++ "://" ++ hostPort ⟨.v4 ip, port⟩ ++ "/fingerprint" := by
  simp only [fingerprintUrl, http_scheme, hostPort, urlHost, IpAddr.display, String.append_assoc]

theorem fingerprintUrl_v6 (ip : Ipv6Addr) (port : UInt16) :
    fingerprintUrl ⟨.v6 ip, port⟩ =
      "http" ++ "://" ++ (ip.display ++ ":" ++ toString port.toNat) ++ "/fingerprint" := by
  simp only [fingerprintUrl, http_scheme, IpAddr.display, String.append_assoc]

theorem isPath_fingerprint : IsPath "/fingerprint" := .inr ⟨"fingerprint", rfl⟩

/-! ## The two families -/

/-- The `https` URL is always well formed: `expect` does not panic. -/
theorem connect_ok (hurl : ParsesAddresses services.parseUrl endpoint) (addr : SocketAddr) :
    ∃ url, urlFromSocketAddr services addr "https" = .done url ∧ endpoint url = some addr := by
  obtain ⟨url, hparse, hendpoint⟩ := hurl.accepts "https" (by simp) (hostPort addr) "" addr
    (.inl rfl) (readAuthority_hostPort addr)
  refine ⟨url, ?_, hendpoint⟩
  rw [urlFromSocketAddr_eq, socketAddrUrl_eq, hparse, Outcome.expect_some]

theorem contactsAddress_v4 (hurl : ParsesAddresses services.parseUrl endpoint) (ip : Ipv4Addr)
    (port : UInt16) : ContactsAddress services endpoint ⟨.v4 ip, port⟩ := by
  have hread := readAuthority_hostPort ⟨.v4 ip, port⟩
  have hslash := slash_not_mem_of_readAuthority hread
  refine ⟨?_, connect_ok hurl _, ?_⟩
  · rw [fingerprintUrl_v4]
    exact hurl.accepts "http" (by simp) _ _ _ isPath_fingerprint hread
  · rw [fingerprintUrl_v4, socketAddrUrl_eq,
      authority_append (by decide) hslash isPath_fingerprint,
      authority_append (by decide) hslash (.inl rfl)]

/-- Without its brackets an IPv6 address does not make a URL. -/
theorem fingerprintUrl_v6_rejected (hurl : ParsesAddresses services.parseUrl endpoint)
    (ip : Ipv6Addr) (port : UInt16) :
    services.parseUrl (fingerprintUrl ⟨.v6 ip, port⟩) = none := by
  rw [fingerprintUrl_v6]
  exact hurl.rejects "http" (by simp) ip.display port "/fingerprint" isPath_fingerprint
    (by rw [readIpv6_display]; rfl)

theorem contactsAddress_iff (hurl : ParsesAddresses services.parseUrl endpoint)
    (addr : SocketAddr) : ContactsAddress services endpoint addr ↔ ∃ ip, addr.ip = .v4 ip := by
  obtain ⟨ip, port⟩ := addr
  cases ip with
  | v4 ip => exact ⟨fun _ => ⟨ip, rfl⟩, fun _ => contactsAddress_v4 hurl ip port⟩
  | v6 ip =>
      refine ⟨fun hcontacts => ?_, fun ⟨_, h⟩ => by cases h⟩
      obtain ⟨url, hparse, -⟩ := hcontacts.fingerprint
      rw [fingerprintUrl_v6_rejected hurl] at hparse
      cases hparse

/-- Dialling an accepted address formats it as two well-formed URLs of one authority exactly
when it is an IPv4 address.  The URL that is connected to is always well formed and always
of the address. -/
theorem dial_contacts_address (hurl : ParsesAddresses services.parseUrl endpoint)
    {ma : Multiaddr} {addr : SocketAddr} {peer : Option PeerId}
    (haccepted : multiaddrToSocketaddr ma = some (addr, peer)) :
    (ContactsAddress services endpoint addr ↔ ∃ ip, ma.head? = some (.ip4 ip)) ∧
      ∃ url, urlFromSocketAddr services addr "https" = .done url ∧ endpoint url = some addr := by
  refine ⟨?_, connect_ok hurl addr⟩
  rw [contactsAddress_iff hurl]
  obtain ⟨ip, port⟩ := addr
  obtain ⟨host, version, tail, rfl, hhost, -⟩ :=
    multiaddrToSocketaddr_eq_some_iff.mp haccepted
  rw [List.head?_cons]
  cases hhost with
  | ip4 ip => simp
  | ip6 ip => simp

/-- Services whose URL parser knows the URLs of internet addresses. -/
def addressServices : Services Unit Unit SocketAddr where
  get _ := .ok ()
  text _ := .ok ""
  decodeHex _ := .ok []
  withServerCertificateHashes _ := .ok ()
  withSystemRoots := .ok ()
  parseUrl := parseAddressUrl

theorem dial_contacts_address_v4 :
    let addr : SocketAddr := ⟨.v4 ⟨Vector.replicate 4 1⟩, 4433⟩
    let ma : Multiaddr := [.ip4 ⟨Vector.replicate 4 1⟩, .udp 4433, .quicV1, .webTransport]
    (ContactsAddress addressServices some addr ↔ ∃ ip, ma.head? = some (.ip4 ip)) ∧
      ∃ url, urlFromSocketAddr addressServices addr "https" = .done url ∧ some url = some addr := by
  intro addr ma
  have haccepted : multiaddrToSocketaddr ma = some (addr, none) := by decide +kernel
  exact dial_contacts_address parsesAddresses_parseAddressUrl haccepted

/-- The fingerprint URL of `/ip6/::/udp/4433/quic-v1/webtransport` is not one. -/
theorem not_contactsAddress_v6 :
    multiaddrToSocketaddr
        [.ip6 ⟨Vector.replicate 8 0⟩, .udp 4433, .quicV1, .webTransport] =
      some (⟨.v6 ⟨Vector.replicate 8 0⟩, 4433⟩, none) ∧
    ¬ ContactsAddress addressServices some ⟨.v6 ⟨Vector.replicate 8 0⟩, 4433⟩ := by
  refine ⟨by decide +kernel, fun hcontacts => ?_⟩
  obtain ⟨ip, hip⟩ := (contactsAddress_iff parsesAddresses_parseAddressUrl _).mp hcontacts
  cases hip

/-! ## Dialling -/

/-- A connection is attempted to the parsed address only. -/
theorem endpoint_of_dial (hurl : ParsesAddresses services.parseUrl endpoint)
    {transport : WebTransport} {peerId : PeerId} {ma : Multiaddr} {attempt : Attempt Client Url}
    (h : transport.dial services peerId ma = .done (.ok attempt)) :
    ∃ addr peer, multiaddrToSocketaddr ma = some (addr, peer) ∧
      endpoint attempt.url = some addr := by
  rcases hparse : multiaddrToSocketaddr ma with _ | ⟨addr, peer⟩
  · simp [WebTransport.dial, remoteMaToSocketaddr, hparse] at h
  obtain ⟨url, hconnect, hendpoint⟩ := connect_ok hurl addr
  rcases hclient : dialClient services transport addr with e | client
  · simp [WebTransport.dial, remoteMaToSocketaddr, hparse, hclient] at h
  · simp only [WebTransport.dial, remoteMaToSocketaddr, hparse, Outcome.unwrap_ok,
      Outcome.done_bind, hclient, hconnect, Outcome.done.injEq, Except.ok.injEq] at h
    exact ⟨addr, peer, rfl, by rw [← h, hendpoint]⟩

/-- With the fingerprint asked for, no IPv6 address is connected to: the request fails on
its URL. -/
theorem dial_v6_fails (hurl : ParsesAddresses services.parseUrl endpoint)
    (hget : ∀ url, services.parseUrl url = none → ∃ e, services.get url = .error e)
    {ma : Multiaddr} {ip : Ipv6Addr} {port : UInt16} {peer : Option PeerId} (peerId : PeerId)
    (haccepted : multiaddrToSocketaddr ma = some (⟨.v6 ip, port⟩, peer)) :
    ∃ e, (WebTransport.mk true).dial services peerId ma = .done (.error (.reqwestError e)) := by
  obtain ⟨e, hfail⟩ := hget _ (fingerprintUrl_v6_rejected hurl ip port)
  have hfetch : fetchFingerprint services ⟨.v6 ip, port⟩ = .error (.reqwestError e) := by
    rw [fetchFingerprint_eq, hfail]
    rfl
  have hclient : dialClient services (WebTransport.mk true) ⟨.v6 ip, port⟩ =
      .error (.reqwestError e) := by
    simp only [dialClient, if_true, hfetch]
    rfl
  exact ⟨e, by simp [WebTransport.dial, remoteMaToSocketaddr, haccepted, hclient]⟩

end SfRs.Dial
