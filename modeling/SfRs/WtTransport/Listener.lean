import SfRs.Node.Events
/-!
# The listener

A `Listener` is a stream of events from three sources: an event it was created with, the
interface watcher, and the sessions that the QUIC endpoint accepts.  The queues hold what
the watcher and the accept channel return before they are pending, or closed.
-/

namespace SfRs.WtTransport

open SfRs.Lib
open SfRs.Node (TransportEvent)

/-- `if_watch::IfEvent`, with the address of the network. -/
inductive IfEvent where
  | up (addr : IpAddr)
  | down (addr : IpAddr)

/-- What `poll_if_event` returns: an event, or the text of an `io::Error`. -/
abbrev IfResult := Except String IfEvent

/-- The receiving end of the accept channel: the sessions in it, and whether the sender
is gone. -/
structure AcceptChannel (Session : Type) where
  sessions : List Session
  closed : Bool

structure Listener (Session : Type) where
  bind : SocketAddr
  addr : Multiaddr
  accept : AcceptChannel Session
  ifWatcher : Option (List IfResult)
  pendingEvent : Option TransportEvent
  acceptReady : Bool

def isSame : IpAddr → IpAddr → Bool
  | .v4 _, .v4 _ | .v6 _, .v6 _ => true
  | _, _ => false

def ipComponent : IpAddr → Component
  | .v4 ip => .ip4 ip
  | .v6 ip => .ip6 ip

def socketaddrToMultiaddr (socketAddr : SocketAddr) : Multiaddr :=
  [ipComponent socketAddr.ip, .udp socketAddr.port, .quicV1, .webTransport]

def ipToListenaddr (endpointAddr : SocketAddr) (ip : IpAddr) : Option Multiaddr :=
  if isSame endpointAddr.ip ip then some (socketaddrToMultiaddr ⟨ip, endpointAddr.port⟩)
  else none

def localhost : Ipv4Addr := ⟨#v[127, 0, 0, 1]⟩

/-- The remote address of a `Connection`, whatever its session. -/
def remoteAddress : Multiaddr := [.ip4 localhost, .tcp 0]

/-- The event that an interface result is reported as. -/
def report (bind : SocketAddr) : IfResult → Option TransportEvent
  | .ok (.up addr) => (ipToListenaddr bind addr).map .listenAddr
  | .ok (.down addr) => (ipToListenaddr bind addr).map .addrExpired
  | .error error => some (.listenError error)

/-- The loop of `poll_if_addr`: results that are not reported are skipped. -/
def pollIfResults (bind : SocketAddr) : List IfResult → Poll TransportEvent × List IfResult
  | [] => (.pending, [])
  | result :: results =>
      match report bind result with
      | some event => (.ready event, results)
      | none => pollIfResults bind results

namespace Listener

variable {Session : Type}

/-- `Listener::new`. -/
def new (bind : SocketAddr) (addr : Multiaddr) (ifWatcher : Option (List IfResult))
    (pendingEvent : Option TransportEvent) : Listener Session where
  bind := bind
  addr := addr
  accept := ⟨[], false⟩
  ifWatcher := ifWatcher
  pendingEvent := pendingEvent
  acceptReady := false

def pollIfAddr (self : Listener Session) : Poll TransportEvent × Listener Session :=
  match self.ifWatcher with
  | none => (.pending, self)
  | some results =>
      let r := pollIfResults self.bind results
      (r.1, { self with ifWatcher := some r.2 })

/-- One turn of the loop of `poll_next`: what is returned, or none to go on. -/
def turn (self : Listener Session) :
    Option (Poll (Option TransportEvent)) × Listener Session :=
  match self.pendingEvent with
  | some event => (some (.ready (some event)), { self with pendingEvent := none })
  | none =>
      match self.pollIfAddr with
      | (.ready event, self) => (some (.ready (some event)), self)
      | (.pending, self) =>
          match self.accept.sessions, self.accept.closed with
          | _ :: sessions, _ =>
              (some (.ready (some (.newConnection remoteAddress))),
                { self with
                  accept := { self.accept with sessions := sessions }
                  acceptReady := false })
          -- the channel is closed: `continue`
          | [], true => (none, self)
          | [], false => (some .pending, self)

/-- `poll_next`, which is none if it has not returned after `fuel` turns. -/
def pollNext : Nat → Listener Session → Option (Poll (Option TransportEvent) × Listener Session)
  | 0, _ => none
  | fuel + 1, self =>
      match self.turn with
      | (some result, self) => some (result, self)
      | (none, self) => pollNext fuel self

/-- The call to `poll_next` returns. -/
def PollReturns (self : Listener Session) : Prop := ∃ fuel, (self.pollNext fuel).isSome

/-- There is an event to return, a session to accept, or an open channel to wait for. -/
def HasSource (self : Listener Session) : Prop :=
  self.pendingEvent.isSome ∨ (∃ result ∈ self.ifWatcher.getD [], (report self.bind result).isSome) ∨
    self.accept.sessions ≠ [] ∨ self.accept.closed = false

end Listener

/-! ## The interface watcher -/

theorem pollIfResults_pending_iff (bind : SocketAddr) (results : List IfResult) :
    (pollIfResults bind results).1 = .pending ↔
      ∀ result ∈ results, (report bind result).isSome = false := by
  induction results with
  | nil => simp [pollIfResults]
  | cons result results ih =>
      cases hreport : report bind result with
      | none => simp [pollIfResults, hreport, ih]
      | some event => simp [pollIfResults, hreport]

/-- When no result is reported all of them are used up. -/
theorem pollIfResults_of_pending {bind : SocketAddr} {results : List IfResult}
    (h : (pollIfResults bind results).1 = .pending) : (pollIfResults bind results).2 = [] := by
  induction results with
  | nil => rfl
  | cons result results ih =>
      cases hreport : report bind result with
      | none =>
          simp only [pollIfResults, hreport] at h ⊢
          exact ih h
      | some event => simp [pollIfResults, hreport] at h

/-! ## The loop -/

namespace Listener

variable {Session : Type} {self self' : Listener Session}

theorem pollIfAddr_pending_iff (self : Listener Session) :
    self.pollIfAddr.1 = .pending ↔
      ¬ ∃ result ∈ self.ifWatcher.getD [], (report self.bind result).isSome := by
  unfold pollIfAddr
  cases self.ifWatcher with
  | none => simp
  | some results => simp [pollIfResults_pending_iff]

/-- Polling the watcher only takes results from it. -/
theorem pollIfAddr_eq (self : Listener Session) :
    self.pollIfAddr.2 = { self with ifWatcher := self.pollIfAddr.2.ifWatcher } := by
  unfold pollIfAddr
  cases self.ifWatcher with
  | none => rfl
  | some results => rfl

theorem ifWatcher_of_pending (h : self.pollIfAddr.1 = .pending) :
    self.pollIfAddr.2.ifWatcher.getD [] = [] := by
  unfold pollIfAddr at h ⊢
  cases hwatcher : self.ifWatcher with
  | none => simp [hwatcher]
  | some results =>
      simp only [hwatcher] at h
      simp [pollIfResults_of_pending h]

/-- A turn returns exactly when there is a source, and without one it leaves none. -/
theorem turn_cases (self : Listener Session) :
    (self.HasSource ∧ ∃ result, self.turn.1 = some result) ∨
      (¬ self.HasSource ∧ self.turn.1 = none ∧ ¬ self.turn.2.HasSource) := by
  have hiff := pollIfAddr_pending_iff self
  have hframe := pollIfAddr_eq self
  have hused := @ifWatcher_of_pending _ self
  unfold turn
  cases hevent : self.pendingEvent with
  | some event => exact .inl ⟨.inl (by simp [hevent]), _, rfl⟩
  | none =>
      rcases hpoll : self.pollIfAddr with ⟨poll, next⟩
      rw [hpoll] at hiff hframe hused
      simp only at hiff hframe hused
      cases poll with
      | ready event =>
          have hreported := not_not.mp (mt hiff.mpr (by simp))
          exact .inl ⟨.inr (.inl hreported), _, rfl⟩
      | pending =>
          have hnone := hiff.mp rfl
          have haccept : next.accept = self.accept := by rw [hframe]
          cases hsessions : self.accept.sessions with
          | cons session sessions =>
              refine .inl ⟨.inr (.inr (.inl (by simp [hsessions]))), ?_⟩
              simp [haccept, hsessions]
          | nil =>
              cases hclosed : self.accept.closed with
              | false =>
                  refine .inl ⟨.inr (.inr (.inr hclosed)), ?_⟩
                  simp [haccept, hsessions, hclosed]
              | true =>
                  have hpending : next.pendingEvent = none := by rw [hframe, hevent]
                  refine .inr ⟨?_, ?_, ?_⟩
                  · rintro (h | h | h | h)
                    · simp [hevent] at h
                    · exact hnone h
                    · exact h hsessions
                    · simp [hclosed] at h
                  · simp [haccept, hsessions, hclosed]
                  · have hempty := hused rfl
                    rintro (h | h | h | h)
                    · simp [haccept, hsessions, hclosed, hpending] at h
                    · simp [haccept, hsessions, hclosed, hempty] at h
                    · simp [haccept, hsessions, hclosed] at h
                    · simp [haccept, hsessions, hclosed] at h

theorem pollNext_of_hasSource (h : self.HasSource) :
    ∃ r, ∀ fuel, self.pollNext (fuel + 1) = some r := by
  rcases turn_cases self with ⟨-, result, hturn⟩ | ⟨hnot, -⟩
  · rcases hself : self.turn with ⟨returned, next⟩
    obtain rfl : returned = some result := by rw [← hturn, hself]
    exact ⟨(result, next), fun fuel => by rw [pollNext, hself]⟩
  · exact absurd h hnot

/-- Without a source every turn goes on. -/
theorem pollNext_eq_none (fuel : Nat) {self : Listener Session} (h : ¬ self.HasSource) :
    self.pollNext fuel = none := by
  induction fuel generalizing self with
  | zero => rfl
  | succ fuel ih =>
      rcases turn_cases self with ⟨hsource, -⟩ | ⟨-, hturn, hnext⟩
      · exact absurd hsource h
      · rcases hself : self.turn with ⟨returned, next⟩
        obtain rfl : returned = none := by rw [← hturn, hself]
        rw [hself] at hnext
        rw [pollNext, hself]
        exact ih hnext

/-- `poll_next` returns exactly when there is something to return or an open channel to
wait for. -/
theorem pollReturns_iff (self : Listener Session) : self.PollReturns ↔ self.HasSource := by
  constructor
  · rintro ⟨fuel, hsome⟩
    by_contra hnot
    rw [pollNext_eq_none fuel hnot] at hsome
    exact absurd hsome (by simp)
  · intro hsource
    obtain ⟨r, hr⟩ := pollNext_of_hasSource hsource
    exact ⟨1, by rw [hr 0]; rfl⟩

/-- A listener on `127.0.0.1:4443` whose endpoint has shut down. -/
theorem not_pollReturns_closed :
    ¬ PollReturns ({
      bind := ⟨.v4 localhost, 4443⟩
      addr := [.ip4 localhost, .udp 4443, .quicV1, .webTransport]
      accept := ⟨[], true⟩
      ifWatcher := none
      pendingEvent := none
      acceptReady := false } : Listener Unit) := by
  rintro ⟨fuel, hsome⟩
  rw [pollNext_eq_none fuel (by rintro (h | h | h | h) <;> simp at h)] at hsome
  exact absurd hsome (by simp)

end Listener

end SfRs.WtTransport
