import SfRs.Lib.Outcome
import SfRs.WtTransport.Multiaddr
/-!
# Dialling an address

`Node::dial` picks a transport by looking for a `webtransport` component anywhere
in the address, while `WebTransport::dial` unwraps a parser that wants the
component in fourth place.  The services of other crates are the fields of
`Services`; dialling is followed up to the connection attempt.
-/

namespace SfRs.Dial

open SfRs.Lib SfRs.WtTransport

/-- What dialling uses of `reqwest`, `hex`, `url` and `web_transport`. -/
structure Services (Response Client Url : Type) where
  get : String → Except String Response
  text : Response → Except String String
  decodeHex : String → Except String (List UInt8)
  withServerCertificateHashes : List (List UInt8) → Except String Client
  withSystemRoots : Except String Client
  parseUrl : String → Option Url

/-- The arguments of `client.connect(&url)`. -/
structure Attempt (Client Url : Type) where
  client : Client
  url : Url

structure WebTransport where
  /-- Allow dialing the MA by tcp to get the fingerprint. -/
  allowTcpFingerprint : Bool

variable {Response Client Url : Type}

/-- The host of a URL: the text of the address, in brackets for IPv6. -/
def urlHost : IpAddr → String
  | .v6 ip => "[" ++ ip.display ++ "]"
  | .v4 ip => ip.display

def urlFromSocketAddr (services : Services Response Client Url) (addr : SocketAddr)
    (scheme : String) : Outcome Url :=
  Outcome.expect
    (services.parseUrl
      (scheme ++ "://" ++ urlHost addr.ip ++ ":" ++ toString addr.port.toNat))

/-- The certificate fingerprint that the server publishes over TCP. -/
def fetchFingerprint (services : Services Response Client Url) (addr : SocketAddr) :
    Except WtTransport.Error (List UInt8) := do
  let response ←
    (services.get ("http://" ++ addr.ip.display ++ ":" ++ toString addr.port.toNat ++
      "/fingerprint")).mapError .reqwestError
  let text ← (services.text response).mapError .reqwestError
  (services.decodeHex text).mapError .hexError

def dialClient (services : Services Response Client Url) (self : WebTransport)
    (addr : SocketAddr) : Except WtTransport.Error Client :=
  if self.allowTcpFingerprint then do
    let fingerprint ← fetchFingerprint services addr
    (services.withServerCertificateHashes [fingerprint]).mapError .webTransport
  else services.withSystemRoots.mapError .webTransport

/-- `WebTransport::dial` and the future it returns, up to `client.connect`. -/
def WebTransport.dial (services : Services Response Client Url) (self : WebTransport)
    (_peerId : PeerId) (ma : Multiaddr) :
    Outcome (Except WtTransport.Error (Attempt Client Url)) :=
  (Outcome.unwrap (remoteMaToSocketaddr ma)).bind fun (addr, _) =>
    match dialClient services self addr with
    | .error e => .done (.error e)
    | .ok client =>
        (urlFromSocketAddr services addr "https").bind fun url =>
          .done (.ok { client := client, url := url })

/-- `sf_core::Protocol`. -/
inductive Protocol where
  | webTransport
  | webRTC
  deriving DecidableEq

inductive Error where
  | noProtocolsInMultiaddr (ma : Multiaddr)
  | transportNotFound (protocol : Protocol)
  | transport (e : WtTransport.Error)
  deriving DecidableEq

structure Node where
  peerId : PeerId
  transports : Protocol → Option WebTransport

/-- The loop of `extract_protocol_from_multiaddr`, which stops at the first match. -/
def findProtocol : List Component → Option Protocol
  | [] => none
  | .webTransport :: _ => some .webTransport
  | _ :: components => findProtocol components

def extractProtocolFromMultiaddr (address : Multiaddr) : Except Error Protocol :=
  match findProtocol address with
  | some protocol => .ok protocol
  | none => .error (.noProtocolsInMultiaddr address)

/-- `Node::dial`, up to the connection attempt. -/
def Node.dial (services : Services Response Client Url) (self : Node)
    (remotePeerId : PeerId) (address : Multiaddr) :
    Outcome (Except Error (Attempt Client Url)) :=
  match extractProtocolFromMultiaddr address with
  | .error e => .done (.error e)
  | .ok protocol =>
      match self.transports protocol with
      | none => .done (.error (.transportNotFound protocol))
      | some transport =>
          (transport.dial services remotePeerId address).bind fun res =>
            .done (res.mapError .transport)

/-! ## The two parsers -/

theorem findProtocol_eq (components : List Component) :
    findProtocol components =
      if .webTransport ∈ components then some .webTransport else none := by
  induction components with
  | nil => simp [findProtocol]
  | cons c components ih => cases c <;> simp [findProtocol, ih]

/-- `Url::parse` takes an `https` URL whose host is the text of an IP address. -/
def ParsesHostUrls (services : Services Response Client Url) : Prop :=
  ∀ ip (port : UInt16),
    (services.parseUrl ("https" ++ "://" ++ urlHost ip ++ ":" ++ toString port.toNat)).isSome

theorem webTransport_dial_of_dialForm (services : Services Response Client Url)
    (hurl : ParsesHostUrls services) (transport : WebTransport) (peerId : PeerId)
    {ma : Multiaddr} (hform : DialForm ma) :
    (transport.dial services peerId ma).Returns := by
  obtain ⟨⟨addr, remote⟩, hparse⟩ :=
    Option.isSome_iff_exists.mp ((isSome_multiaddrToSocketaddr_iff ma).mpr hform)
  obtain ⟨url, hparseUrl⟩ := Option.isSome_iff_exists.mp (hurl addr.ip addr.port)
  cases hclient : dialClient services transport addr with
  | error e => simp [WebTransport.dial, remoteMaToSocketaddr, hparse, hclient]
  | ok client =>
      simp only [WebTransport.dial, remoteMaToSocketaddr, hparse, Outcome.unwrap_ok,
        Outcome.done_bind, hclient, urlFromSocketAddr, hparseUrl, Outcome.expect_some,
        Outcome.returns_done]

theorem webTransport_dial_of_not_dialForm (services : Services Response Client Url)
    (transport : WebTransport) (peerId : PeerId) {ma : Multiaddr} (hform : ¬ DialForm ma) :
    transport.dial services peerId ma = .panicked := by
  have hparse : multiaddrToSocketaddr ma = none := by
    rw [← isSome_multiaddrToSocketaddr_iff] at hform
    simpa using hform
  simp [WebTransport.dial, remoteMaToSocketaddr, hparse]

/-- With a WebTransport transport registered, dialling returns exactly on the addresses
without a `webtransport` component and those of the form the second parser takes. -/
theorem node_dial_returns_iff (services : Services Response Client Url)
    (hurl : ParsesHostUrls services) (node : Node)
    (hreg : (node.transports .webTransport).isSome) (remotePeerId : PeerId)
    (address : Multiaddr) :
    (node.dial services remotePeerId address).Returns ↔
      .webTransport ∉ address ∨ DialForm address := by
  obtain ⟨transport, htransport⟩ := Option.isSome_iff_exists.mp hreg
  by_cases hmem : .webTransport ∈ address
  · have hdial : node.dial services remotePeerId address =
        (transport.dial services remotePeerId address).bind fun res =>
          .done (res.mapError .transport) := by
      simp [Node.dial, extractProtocolFromMultiaddr, findProtocol_eq, hmem, htransport]
    simp only [hmem, not_true_eq_false, false_or]
    constructor
    · intro hreturns
      by_contra hform
      rw [hdial, webTransport_dial_of_not_dialForm services transport remotePeerId hform]
        at hreturns
      exact hreturns rfl
    · intro hform
      have hreturns :=
        webTransport_dial_of_dialForm services hurl transport remotePeerId hform
      rw [hdial]
      cases hres : transport.dial services remotePeerId address with
      | panicked => exact absurd hres hreturns
      | done res => simp
  · simp [Node.dial, extractProtocolFromMultiaddr, findProtocol_eq, hmem]

/-- Services that answer every request and take every URL. -/
def answeringServices : Services Unit Unit String where
  get _ := .ok ()
  text _ := .ok ""
  decodeHex _ := .ok []
  withServerCertificateHashes _ := .ok ()
  withSystemRoots := .ok ()
  parseUrl := some

/-- A node with a WebTransport transport that trusts the system roots. -/
def webTransportNode : Node where
  peerId := []
  transports
    | .webTransport => some { allowTcpFingerprint := false }
    | .webRTC => none

/-- `/ip4/127.0.0.1/udp/4433/quic-v1/webtransport` is dialled. -/
theorem node_dial_localhost_returns :
    (webTransportNode.dial answeringServices []
      [.ip4 ⟨#v[127, 0, 0, 1]⟩, .udp 4433, .quicV1, .webTransport]).Returns :=
  (node_dial_returns_iff answeringServices (fun _ _ => rfl) webTransportNode rfl [] _).mpr
    (Or.inr ⟨_, _, _, _, rfl, Or.inl ⟨_, rfl⟩, by simp⟩)

/-- A `certhash` component (code 466) after `webtransport`, as in the addresses other
WebTransport nodes announce, makes dialling panic. -/
theorem not_node_dial_certhash_returns :
    ¬ (webTransportNode.dial answeringServices []
      [.ip4 ⟨#v[127, 0, 0, 1]⟩, .udp 4433, .quicV1, .webTransport, .other 466 []]).Returns := by
  intro hreturns
  exact hreturns rfl

end SfRs.Dial
