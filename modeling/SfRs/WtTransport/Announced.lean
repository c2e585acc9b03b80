import Mathlib.Data.Set.Insert
import SfRs.Node.Dial
import SfRs.WtTransport.Grammar
import SfRs.WtTransport.Listening
/-!
# Announced interface addresses

The listener encodes the address of an interface, and three functions decode such an
address: for dialling, for listening and for the choice of the transport.  No two
interfaces have one address, so an expiry takes back what its own interface announced.
-/

namespace SfRs.WtTransport

open SfRs.Lib
open SfRs.Node (TransportEvent)

def SameFamily (a b : IpAddr) : Prop :=
  (∃ x y, a = .v4 x ∧ b = .v4 y) ∨ ∃ x y, a = .v6 x ∧ b = .v6 y

/-- What the decoders make of the address of an interface. -/
structure DecodesAs (ma : Multiaddr) (ip : IpAddr) (port : UInt16) : Prop where
  dials : multiaddrToSocketaddr ma = some (⟨ip, port⟩, none)
  listens : extractIpPort ma = .ok (ip, port)
  protocol : Dial.extractProtocolFromMultiaddr ma = .ok .webTransport

/-- The interfaces that are up after one more result of the watcher. -/
def upAfter (up : Set IpAddr) : IfResult → Set IpAddr
  | .ok (.up addr) => insert addr up
  | .ok (.down addr) => up \ {addr}
  | .error _ => up

/-- The addresses that are announced and not expired after one more event. -/
def announcedAfter (announced : Set Multiaddr) : TransportEvent → Set Multiaddr
  | .listenAddr address => insert address announced
  | .addrExpired address => announced \ {address}
  | _ => announced

/-- The events that so many calls of `poll_if_addr` return, up to the first that is pending. -/
def polledEvents (bind : SocketAddr) : Nat → List IfResult → List TransportEvent
  | 0, _ => []
  | calls + 1, results =>
      match pollIfResults bind results with
      | (.ready event, results) => event :: polledEvents bind calls results
      | (.pending, _) => []

/-- The addresses of interfaces. -/
def addressesOf (bind : SocketAddr) (ips : Set IpAddr) : Set Multiaddr :=
  {ma | ∃ ip ∈ ips, ipToListenaddr bind ip = some ma}

/-! ## Encoding and decoding -/

variable {bind bind' : SocketAddr} {ip ip' : IpAddr} {ma : Multiaddr}

theorem isSame_iff (a b : IpAddr) : isSame a b = true ↔ SameFamily a b := by
  cases a <;> cases b <;> simp [isSame, SameFamily]

theorem ipToListenaddr_eq_some_iff :
    ipToListenaddr bind ip = some ma ↔
      SameFamily bind.ip ip ∧ socketaddrToMultiaddr ⟨ip, bind.port⟩ = ma := by
  rw [ipToListenaddr, ← isSame_iff]
  split_ifs with hsame
  · simp [hsame]
  · simp [hsame]

theorem isHost_ipComponent (ip : IpAddr) : IsHost (ipComponent ip) ip := by
  cases ip with
  | v4 ip => exact .ip4 ip
  | v6 ip => exact .ip6 ip

/-- The listener writes the grammar of WebTransport addresses. -/
theorem webTransportForm_socketaddrToMultiaddr (addr : SocketAddr) :
    WebTransportForm (socketaddrToMultiaddr addr) addr none :=
  .mk (isHost_ipComponent addr.ip) .quicV1 .absent

theorem decodesAs_socketaddrToMultiaddr (addr : SocketAddr) :
    DecodesAs (socketaddrToMultiaddr addr) addr.ip addr.port := by
  refine ⟨(webTransportForm_socketaddrToMultiaddr addr).accepted, ?_, ?_⟩
  · obtain ⟨ip, port⟩ := addr
    cases ip with
    | v4 ip => rfl
    | v6 ip => rfl
  · have hmem : Component.webTransport ∈ socketaddrToMultiaddr addr := by
      simp [socketaddrToMultiaddr]
    simp [Dial.extractProtocolFromMultiaddr, Dial.findProtocol_eq, hmem]

theorem socketaddrToMultiaddr_injective {addr addr' : SocketAddr}
    (h : socketaddrToMultiaddr addr = socketaddrToMultiaddr addr') : addr = addr' := by
  have hdials := (decodesAs_socketaddrToMultiaddr addr).dials
  rw [h, (decodesAs_socketaddrToMultiaddr addr').dials] at hdials
  injection hdials with hpair
  exact (congrArg Prod.fst hpair).symm

theorem ipToListenaddr_injective (h : ipToListenaddr bind ip = some ma)
    (h' : ipToListenaddr bind' ip' = some ma) : ip = ip' ∧ bind.port = bind'.port := by
  obtain ⟨-, rfl⟩ := ipToListenaddr_eq_some_iff.mp h
  obtain ⟨-, heq⟩ := ipToListenaddr_eq_some_iff.mp h'
  have haddr := socketaddrToMultiaddr_injective heq
  injection haddr with hip hport
  exact ⟨hip.symm, hport.symm⟩

/-! ## Announcing and expiring -/

theorem mem_addressesOf {ips : Set IpAddr} :
    ma ∈ addressesOf bind ips ↔ ∃ ip ∈ ips, ipToListenaddr bind ip = some ma := Iff.rfl

theorem addressesOf_insert_of_some {ips : Set IpAddr} (h : ipToListenaddr bind ip = some ma) :
    addressesOf bind (insert ip ips) = insert ma (addressesOf bind ips) := by
  ext other
  simp only [mem_addressesOf, Set.mem_insert_iff, exists_eq_or_imp, h, Option.some.injEq,
    eq_comm (a := ma)]

theorem addressesOf_insert_of_none {ips : Set IpAddr} (h : ipToListenaddr bind ip = none) :
    addressesOf bind (insert ip ips) = addressesOf bind ips := by
  ext other
  simp only [mem_addressesOf, Set.mem_insert_iff, exists_eq_or_imp, h, reduceCtorEq, false_or]

/-- Only the interface itself has the address that is taken back. -/
theorem addressesOf_diff_of_some {ips : Set IpAddr} (h : ipToListenaddr bind ip = some ma) :
    addressesOf bind (ips \ {ip}) = addressesOf bind ips \ {ma} := by
  ext other
  simp only [mem_addressesOf, Set.mem_sdiff, Set.mem_singleton_iff]
  constructor
  · rintro ⟨ip', ⟨hmem, hne⟩, hother⟩
    refine ⟨⟨ip', hmem, hother⟩, ?_⟩
    rintro rfl
    exact hne (ipToListenaddr_injective hother h).1
  · rintro ⟨⟨ip', hmem, hother⟩, hne⟩
    refine ⟨ip', ⟨hmem, ?_⟩, hother⟩
    rintro rfl
    exact hne (Option.some.inj (hother.symm.trans h))

theorem addressesOf_diff_of_none {ips : Set IpAddr} (h : ipToListenaddr bind ip = none) :
    addressesOf bind (ips \ {ip}) = addressesOf bind ips := by
  ext other
  simp only [mem_addressesOf, Set.mem_sdiff, Set.mem_singleton_iff]
  refine ⟨fun ⟨ip', hmem, hother⟩ => ⟨ip', hmem.1, hother⟩, fun ⟨ip', hmem, hother⟩ => ?_⟩
  refine ⟨ip', ⟨hmem, ?_⟩, hother⟩
  rintro rfl
  rw [h] at hother
  cases hother

/-- One result changes the announced addresses as it changes the interfaces. -/
theorem announced_step (bind : SocketAddr) (ips : Set IpAddr) (result : IfResult) :
    (report bind result).toList.foldl announcedAfter (addressesOf bind ips) =
      addressesOf bind (upAfter ips result) := by
  rcases result with error | ⟨ip⟩ | ⟨ip⟩
  · rfl
  · rcases h : ipToListenaddr bind ip with _ | ma
    · simp [report, h, upAfter, addressesOf_insert_of_none h]
    · simp [report, h, upAfter, announcedAfter, addressesOf_insert_of_some h]
  · rcases h : ipToListenaddr bind ip with _ | ma
    · simp [report, h, upAfter, addressesOf_diff_of_none h]
    · simp [report, h, upAfter, announcedAfter, addressesOf_diff_of_some h]

theorem announced_results (bind : SocketAddr) (results : List IfResult) (ips : Set IpAddr) :
    (results.filterMap (report bind)).foldl announcedAfter (addressesOf bind ips) =
      addressesOf bind (results.foldl upAfter ips) := by
  induction results generalizing ips with
  | nil => rfl
  | cons result results ih =>
      have hstep := announced_step bind ips result
      rw [List.foldl_cons, ← ih, ← hstep]
      cases hreport : report bind result with
      | none => simp [hreport]
      | some event => simp [hreport]

/-- A call returns the event of the first result that is reported, and uses up the results
up to it. -/
theorem pollIfResults_cases (bind : SocketAddr) (results : List IfResult) :
    (∃ event rest, pollIfResults bind results = (.ready event, rest) ∧
        rest.length < results.length ∧
        results.filterMap (report bind) = event :: rest.filterMap (report bind)) ∨
      ∃ rest, pollIfResults bind results = (.pending, rest) ∧
        results.filterMap (report bind) = [] := by
  induction results with
  | nil => exact .inr ⟨[], rfl, rfl⟩
  | cons result results ih =>
      cases hreport : report bind result with
      | none =>
          rcases ih with ⟨event, rest, hpoll, hlen, hevents⟩ | ⟨rest, hpoll, hevents⟩
          · exact .inl ⟨event, rest, by simp [pollIfResults, hreport, hpoll],
              Nat.lt_succ_of_lt hlen, by simp [hreport, hevents]⟩
          · exact .inr ⟨rest, by simp [pollIfResults, hreport, hpoll],
              by simp [hreport, hevents]⟩
      | some event =>
          exact .inl ⟨event, results, by simp [pollIfResults, hreport], Nat.lt_succ_self _,
            by simp [hreport]⟩

theorem polledEvents_eq {calls : Nat} {results : List IfResult} (h : results.length ≤ calls) :
    polledEvents bind calls results = results.filterMap (report bind) := by
  induction calls generalizing results with
  | zero =>
      obtain rfl : results = [] := List.length_eq_zero_iff.mp (Nat.le_zero.mp h)
      rfl
  | succ calls ih =>
      rcases pollIfResults_cases bind results with
        ⟨event, rest, hpoll, hlen, hevents⟩ | ⟨rest, hpoll, hevents⟩
      · simp only [polledEvents, hpoll]
        rw [ih (by omega), hevents]
      · simp only [polledEvents, hpoll]
        rw [hevents]

/-- What is promised of the interface addresses of a listener. -/
structure AnnouncesInterfaces (bind : SocketAddr) : Prop where
  isSome_iff : ∀ ip, (ipToListenaddr bind ip).isSome ↔ SameFamily bind.ip ip
  decodes : ∀ ip ma, ipToListenaddr bind ip = some ma → DecodesAs ma ip bind.port
  distinct : ∀ bind' ip ip' ma, ipToListenaddr bind ip = some ma →
    ipToListenaddr bind' ip' = some ma → ip = ip' ∧ bind.port = bind'.port
  expires : ∀ results calls, results.length ≤ calls →
    (polledEvents bind calls results).foldl announcedAfter ∅ =
      addressesOf bind (results.foldl upAfter ∅)

/-- The address of every interface of the listener's family is dialled, listened on and
dispatched as that interface, and after any results of the watcher the addresses that are
announced and not expired are those of the interfaces that are up. -/
theorem announcesInterfaces (bind : SocketAddr) : AnnouncesInterfaces bind := by
  constructor
  · intro ip
    rw [ipToListenaddr, ← isSame_iff]
    split_ifs with hsame <;> simp [hsame]
  · intro ip ma h
    obtain ⟨-, rfl⟩ := ipToListenaddr_eq_some_iff.mp h
    exact decodesAs_socketaddrToMultiaddr ⟨ip, bind.port⟩
  · exact fun bind' ip ip' ma h h' => ipToListenaddr_injective h h'
  · intro results calls hcalls
    have hempty : addressesOf bind ∅ = ∅ := by
      simp [addressesOf]
    have hall := announced_results bind results ∅
    rwa [hempty, ← polledEvents_eq hcalls] at hall

end SfRs.WtTransport
