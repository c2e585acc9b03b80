import Mathlib.Algebra.BigOperators.Group.List.Basic
import Mathlib.Algebra.Order.BigOperators.Group.List
import Mathlib.Algebra.Order.Ring.Nat
import SfRs.Lib.Outcome
import SfRs.WtTransport.Multiaddr
/-!
# The events of a node

`Node` is a stream of events that polls its transports in a loop.  Each kind of
transport event is logged and the loop starts over, so the only way out of it is that
all transports are pending.  A listener is given by the results of its next polls.
-/

namespace SfRs.Node

open SfRs.Lib SfRs.WtTransport

/-- `sf_core::TransportEvent`; an `io::Error` is its text. -/
inductive TransportEvent where
  | newConnection (address : Multiaddr)
  | listenAddr (address : Multiaddr)
  | addrExpired (address : Multiaddr)
  | listenError (error : String)

inductive Event where
  | newConnection
  | newListenAddr (address : Multiaddr)

structure WebTransport where
  pendingEvents : List TransportEvent
  /-- What `poll_next` of the listener returns next; it is pending from then on. -/
  listener : Option (List (Poll (Option TransportEvent)))

namespace WebTransport

def poll (self : WebTransport) : Poll TransportEvent × WebTransport :=
  match self.pendingEvents with
  | event :: pendingEvents => (.ready event, { self with pendingEvents := pendingEvents })
  | [] =>
      match self.listener with
      | some (.ready (some event) :: results) =>
          (.ready event, { self with listener := some results })
      | some (_ :: results) => (.pending, { self with listener := some results })
      | some [] | none => (.pending, self)

/-- The events the transport is still to produce. -/
def events (self : WebTransport) : List TransportEvent :=
  self.pendingEvents ++ (self.listener.getD []).filterMap fun
    | .ready event => event
    | .pending => none

/-- A bound on the polls that find the transport with something left. -/
def size (self : WebTransport) : Nat :=
  self.pendingEvents.length + (self.listener.getD []).length

theorem poll_ready {self self' : WebTransport} {event : TransportEvent}
    (h : self.poll = (.ready event, self')) :
    self.events = event :: self'.events ∧ self.size = self'.size + 1 := by
  obtain ⟨pendingEvents, listener⟩ := self
  unfold poll at h
  split at h
  case h_1 hpending =>
      cases h
      obtain rfl : pendingEvents = _ := hpending
      exact ⟨rfl, by simp only [size, List.length_cons]; omega⟩
  case h_2 hpending =>
      obtain rfl : pendingEvents = [] := hpending
      split at h
      case h_1 results hlistener =>
          cases h
          obtain rfl : listener = _ := hlistener
          exact ⟨by simp [events], by simp [size]⟩
      case h_2 | h_3 | h_4 => cases h

theorem poll_pending {self self' : WebTransport} (h : self.poll = (.pending, self')) :
    self.events = self'.events ∧ self'.size = self.size - 1 := by
  obtain ⟨pendingEvents, listener⟩ := self
  unfold poll at h
  split at h
  case h_1 => cases h
  case h_2 hpending =>
      obtain rfl : pendingEvents = [] := hpending
      split at h
      case h_1 => cases h
      case h_2 result results hnone hlistener =>
          cases h
          obtain rfl : listener = _ := hlistener
          cases result with
          | ready event =>
              cases event with
              | none => exact ⟨by simp [events], by simp [size]⟩
              | some event => exact absurd rfl (hnone event)
          | pending => exact ⟨by simp [events], by simp [size]⟩
      case h_3 hlistener | h_4 hlistener =>
          cases h
          obtain rfl : listener = _ := hlistener
          exact ⟨rfl, rfl⟩

end WebTransport

/-- The `for` loop over the transports, from the one with the index `i`: it stops at the
first that is ready. -/
def pollTransports : Nat → List WebTransport →
    Option (Nat × TransportEvent) × List WebTransport
  | _, [] => (none, [])
  | i, transport :: transports =>
      match transport.poll with
      | (.ready event, transport') => (some (i, event), transport' :: transports)
      | (.pending, transport') =>
          let r := pollTransports (i + 1) transports
          (r.1, transport' :: r.2)

def sizes (transports : List WebTransport) : Nat := (transports.map (·.size)).sum

/-- The number of events that the transports are still to produce. -/
def remaining (transports : List WebTransport) : Nat :=
  (transports.map (·.events.length)).sum

@[simp] theorem sizes_cons (transport : WebTransport) (transports : List WebTransport) :
    sizes (transport :: transports) = transport.size + sizes transports := by
  simp [sizes]

@[simp] theorem remaining_cons (transport : WebTransport) (transports : List WebTransport) :
    remaining (transport :: transports) = transport.events.length + remaining transports := by
  simp [remaining]

/-- The loop ends at a transport that is ready, and goes on behind one that is not. -/
theorem pollTransports_cons {i : Nat} {transport : WebTransport}
    {transports transports' : List WebTransport} {found : Option (Nat × TransportEvent)}
    (h : pollTransports i (transport :: transports) = (found, transports')) :
    (∃ event transport', transport.poll = (.ready event, transport') ∧
        found = some (i, event) ∧ transports' = transport' :: transports) ∨
      ∃ transport' rest, transport.poll = (.pending, transport') ∧
        pollTransports (i + 1) transports = (found, rest) ∧ transports' = transport' :: rest := by
  rw [pollTransports] at h
  split at h
  case h_1 event transport' hpoll =>
      cases h
      exact .inl ⟨event, transport', hpoll, rfl, rfl⟩
  case h_2 transport' hpoll =>
      cases h
      exact .inr ⟨transport', _, hpoll, rfl, rfl⟩

theorem pollTransports_some {i : Nat} {transports transports' : List WebTransport}
    {event : Nat × TransportEvent}
    (h : pollTransports i transports = (some event, transports')) :
    remaining transports = remaining transports' + 1 ∧ sizes transports' < sizes transports := by
  induction transports generalizing i transports' with
  | nil => cases h
  | cons transport transports ih =>
      rcases pollTransports_cons h with
        ⟨e, transport', hpoll, -, rfl⟩ | ⟨transport', rest, hpoll, hrest, rfl⟩
      · obtain ⟨hevents, hsize⟩ := WebTransport.poll_ready hpoll
        simp only [remaining_cons, sizes_cons, hevents, List.length_cons]
        omega
      · obtain ⟨hevents, hsize⟩ := WebTransport.poll_pending hpoll
        obtain ⟨hremaining, hsizes⟩ := ih hrest
        simp only [remaining_cons, sizes_cons, hevents]
        omega

/-- A pass in which no transport is ready uses up one result of each. -/
theorem pollTransports_none {i : Nat} {transports transports' : List WebTransport}
    (h : pollTransports i transports = (none, transports')) :
    remaining transports = remaining transports' ∧
      sizes transports' ≤ sizes transports - 1 := by
  induction transports generalizing i transports' with
  | nil =>
      cases h
      exact ⟨rfl, Nat.zero_le _⟩
  | cons transport transports ih =>
      rcases pollTransports_cons h with
        ⟨e, transport', -, hfound, -⟩ | ⟨transport', rest, hpoll, hrest, rfl⟩
      · cases hfound
      · obtain ⟨hevents, hsize⟩ := WebTransport.poll_pending hpoll
        obtain ⟨hremaining, hsizes⟩ := ih hrest
        simp only [remaining_cons, sizes_cons, hevents]
        omega

/-- `poll_next_event`: what it returns, the events it took from the transports, each with
the index of its transport, and the transports after it. -/
def pollNextEvent (transports : List WebTransport) :
    Poll Event × List (Nat × TransportEvent) × List WebTransport :=
  match _h : pollTransports 0 transports with
  -- `info!` for each kind of event, then `continue 'outer`
  | (some event, transports') =>
      let r := pollNextEvent transports'
      (r.1, event :: r.2.1, r.2.2)
  | (none, transports') => (.pending, [], transports')
termination_by sizes transports
decreasing_by exact (pollTransports_some _h).2

theorem pollNextEvent_some {transports transports' : List WebTransport}
    {event : Nat × TransportEvent} (h : pollTransports 0 transports = (some event, transports')) :
    pollNextEvent transports =
      ((pollNextEvent transports').1, event :: (pollNextEvent transports').2.1,
        (pollNextEvent transports').2.2) := by
  rw [pollNextEvent]
  split
  case h_1 heq => cases h.symm.trans heq; rfl
  case h_2 heq => cases h.symm.trans heq

theorem pollNextEvent_none {transports transports' : List WebTransport}
    (h : pollTransports 0 transports = (none, transports')) :
    pollNextEvent transports = (.pending, [], transports') := by
  rw [pollNextEvent]
  split
  case h_1 heq => cases h.symm.trans heq
  case h_2 heq => cases h.symm.trans heq; rfl

/-- A poll of the node yields nothing, whatever it took. -/
theorem pollNextEvent_spec (transports : List WebTransport) :
    let r := pollNextEvent transports
    r.1 = .pending ∧ remaining transports = r.2.1.length + remaining r.2.2 ∧
      sizes r.2.2 ≤ sizes transports - 1 := by
  induction hn : sizes transports using Nat.strong_induction_on generalizing transports with
  | _ n ih =>
      subst hn
      cases hpoll : pollTransports 0 transports with
      | mk found transports' =>
          cases found with
          | none =>
              obtain ⟨hremaining, hsizes⟩ := pollTransports_none hpoll
              rw [pollNextEvent_none hpoll]
              exact ⟨rfl, by simp [hremaining], hsizes⟩
          | some event =>
              obtain ⟨hremaining, hlt⟩ := pollTransports_some hpoll
              obtain ⟨hpending, hremaining', hsizes⟩ := ih _ hlt transports' rfl
              rw [pollNextEvent_some hpoll]
              refine ⟨hpending, ?_, ?_⟩
              · simp only [List.length_cons]
                omega
              · simp only
                omega

/-! ## The stream of events -/

/-- The items that `n` polls of the stream yield, the events taken from the transports
meanwhile, and the transports after them. -/
def polls : Nat → List WebTransport →
    List Event × List (Nat × TransportEvent) × List WebTransport
  | 0, transports => ([], [], transports)
  | n + 1, transports =>
      let r := pollNextEvent transports
      let rest := polls n r.2.2
      match r.1 with
      | .ready item => (item :: rest.1, r.2.1 ++ rest.2.1, rest.2.2)
      | .pending => (rest.1, r.2.1 ++ rest.2.1, rest.2.2)

/-- The item that a transport event is to be yielded as. -/
def TransportEvent.item : TransportEvent → Option Event
  | .newConnection _ => some .newConnection
  | .listenAddr address => some (.newListenAddr address)
  | .addrExpired _ | .listenError _ => none

/-- The entries of the transport `i`. -/
def ofTransport {α : Type} (i : Nat) (entries : List (Nat × α)) : List α :=
  entries.filterMap fun entry => if entry.1 = i then some entry.2 else none

/-- After any number of polls, the items yielded are an interleaving of the items of each
transport's events, and every event taken was yielded. -/
def Surfaces (transports : List WebTransport) : Prop :=
  ∀ n, let r := polls n transports
    (∃ entries : List (Nat × Event), entries.map Prod.snd = r.1 ∧
      ∀ i, ofTransport i entries = (ofTransport i r.2.1).filterMap TransportEvent.item) ∧
    r.1.length = r.2.1.length

theorem polls_spec (n : Nat) (transports : List WebTransport) :
    let r := polls n transports
    r.1 = [] ∧ remaining transports = r.2.1.length + remaining r.2.2 ∧
      sizes r.2.2 ≤ sizes transports - n := by
  induction n generalizing transports with
  | zero => exact ⟨rfl, by simp [polls], by simp [polls]⟩
  | succ n ih =>
      obtain ⟨hpending, hremaining, hsizes⟩ := pollNextEvent_spec transports
      obtain ⟨hitems, hremaining', hsizes'⟩ := ih (pollNextEvent transports).2.2
      simp only [polls, hpending, List.length_append]
      refine ⟨hitems, ?_, ?_⟩
      · omega
      · omega

theorem remaining_eq_zero_iff {transports : List WebTransport} :
    remaining transports = 0 ↔ ∀ transport ∈ transports, transport.events = [] := by
  simp [remaining, List.sum_eq_zero_iff]

theorem remaining_le_sizes (transports : List WebTransport) :
    remaining transports ≤ sizes transports := by
  refine List.sum_le_sum fun transport _ => ?_
  simp only [WebTransport.events, WebTransport.size, List.length_append]
  exact Nat.add_le_add_left (List.length_filterMap_le _ _) _

theorem not_surfaces_of_remaining {transports : List WebTransport}
    (hremains : 0 < remaining transports) : ¬ Surfaces transports := by
  intro hsurfaces
  -- after so many polls every result has been polled
  obtain ⟨hitems, hremaining, hsizes⟩ := polls_spec (sizes transports) transports
  have hlost := (hsurfaces (sizes transports)).2
  rw [hitems, List.length_nil] at hlost
  have hle := remaining_le_sizes (polls (sizes transports) transports).2.2
  omega

/-- The stream surfaces the events of its transports if and only if no transport ever
produces an event. -/
theorem surfaces_iff (transports : List WebTransport) :
    Surfaces transports ↔ ∀ transport ∈ transports, transport.events = [] := by
  rw [← remaining_eq_zero_iff]
  constructor
  · exact fun hsurfaces => Nat.eq_zero_of_not_pos fun hremains =>
      not_surfaces_of_remaining hremains hsurfaces
  · intro hzero n
    obtain ⟨hitems, hremaining, -⟩ := polls_spec n transports
    have htaken : (polls n transports).2.1 = [] := List.length_eq_zero_iff.mp (by omega)
    simp only [hitems, htaken]
    exact ⟨⟨[], rfl, fun _ => rfl⟩, rfl⟩

/-- A transport that listens on `/ip4/127.0.0.1/udp/4443/quic-v1/webtransport`. -/
theorem not_surfaces_listenAddr :
    ¬ ∀ transports : List WebTransport, Surfaces transports := by
  intro hall
  let address : Multiaddr :=
    [.ip4 ⟨#v[127, 0, 0, 1]⟩, .udp 4443, .quicV1, .webTransport]
  have hsurfaces := hall [⟨[.listenAddr address], some []⟩]
  exact not_surfaces_of_remaining (by simp [remaining, WebTransport.events]) hsurfaces

end SfRs.Node
