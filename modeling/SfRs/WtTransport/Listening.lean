import Mathlib.Algebra.Order.Ring.Nat
import SfRs.Lib.Machine
import SfRs.WtTransport.Listener
/-!
# Announcing listen addresses

`WebTransport::listen_on` queues the announcement of the address, and the listener of a
concrete address is created with the same announcement.  A second call replaces the
listener together with what it still had to announce.
-/

namespace SfRs.WtTransport

open SfRs.Lib
open SfRs.Node (TransportEvent)

/-- What `platform::listen_on` gets from the interface watcher and from the QUIC
endpoint: its server, and the local address of that. -/
structure ListenServices where
  ifWatcher : Except String (List IfResult)
  endpoint : Except String (Option (Except String SocketAddr))

structure Config where
  allowTcpFingerprint : Bool
  fingerprints : List String

/-- The loop of `extract_ip_port`: the last address and the last port win. -/
def findIpPort : List Component → Option IpAddr → Option UInt16 →
    Option IpAddr × Option UInt16
  | [], ip, port => (ip, port)
  | .ip4 ip :: iter, _, port => findIpPort iter (some (.v4 ip)) port
  | .ip6 ip :: iter, _, port => findIpPort iter (some (.v6 ip)) port
  | .udp port :: iter, ip, _ => findIpPort iter ip (some port)
  | .tcp port :: iter, ip, _ => findIpPort iter ip (some port)
  | _ :: iter, ip, port => findIpPort iter ip port

def extractIpPort (addr : Multiaddr) : Except Error (IpAddr × UInt16) :=
  match findIpPort addr none none with
  | (some ip, some port) => .ok (ip, port)
  | _ => .error (.invalidMultiaddr addr)

def isUnspecified : IpAddr → Bool
  | .v4 ip => ip.octets = .replicate 4 0
  | .v6 ip => ip.segments = .replicate 8 0

variable {Session : Type}

/-- `platform::listen_on`.  Without a certificate the web server for the fingerprint
panics. -/
def platformListenOn (config : Config) (services : ListenServices) (addr : Multiaddr) :
    Outcome (Except Error (Listener Session)) :=
  match extractIpPort addr with
  | .error e => .done (.error e)
  | .ok (ip, _) =>
      let watched : Except Error (Option (List IfResult) × Option TransportEvent) :=
        if isUnspecified ip then
          (services.ifWatcher.mapError .io).map fun ifWatcher => (some ifWatcher, none)
        else .ok (none, some (.listenAddr addr))
      match watched, services.endpoint with
      | .error e, _ => .done (.error e)
      | .ok _, .error text => .done (.error (.invalidQuicEndpoint text))
      | .ok _, .ok none => .done (.error .invalidServer)
      | .ok _, .ok (some (.error text)) => .done (.error (.invalidQuicEndpoint text))
      | .ok (ifWatcher, pendingEvent), .ok (some (.ok localAddr)) =>
          if config.allowTcpFingerprint && config.fingerprints.isEmpty then .panicked
          else .done (.ok (.new localAddr addr ifWatcher pendingEvent))

structure WebTransport (Session : Type) where
  pendingEvents : List TransportEvent
  listener : Option (Listener Session)

namespace WebTransport

/-- The calls on a transport and what happens at its endpoint.  A call to `poll` is given
the number of turns that the loop of its listener may take. -/
inductive Label (Session : Type) where
  | listenOn (addr : Multiaddr) (services : ListenServices)
  | poll (fuel : Nat)
  | session (session : Session)
  | shutDown

/-- What the calls return. -/
inductive Ev where
  | listened (addr : Multiaddr)
  | failed (e : Error)
  | panicked
  | polled (result : Poll TransportEvent)

def listenOn (config : Config) (self : WebTransport Session) (addr : Multiaddr)
    (services : ListenServices) : WebTransport Session × Ev :=
  match platformListenOn config services addr with
  | .panicked => (self, .panicked)
  | .done (.error e) => (self, .failed e)
  | .done (.ok listener) =>
      ({ pendingEvents := self.pendingEvents ++ [.listenAddr addr], listener := some listener },
        .listened addr)

def poll (self : WebTransport Session) (fuel : Nat) :
    Option (Poll TransportEvent × WebTransport Session) :=
  match self.pendingEvents, self.listener with
  | event :: pendingEvents, _ => some (.ready event, { self with pendingEvents := pendingEvents })
  | [], none => some (.pending, self)
  | [], some listener =>
      (listener.pollNext fuel).map fun r =>
        match r.1 with
        | .ready (some event) => (.ready event, { self with listener := some r.2 })
        | _ => (.pending, { self with listener := some r.2 })

/-- What the spawned accept loop of the held listener does to its channel. -/
def onAccept (self : WebTransport Session)
    (f : AcceptChannel Session → AcceptChannel Session) : WebTransport Session :=
  { self with listener := self.listener.map fun l => { l with accept := f l.accept } }

def step (config : Config) (self : WebTransport Session) :
    Label Session → Option (WebTransport Session × List Ev)
  | .listenOn addr services =>
      let r := self.listenOn config addr services
      some (r.1, [r.2])
  | .poll fuel => (self.poll fuel).map fun r => (r.2, [.polled r.1])
  | .session session =>
      some (self.onAccept fun c => { c with sessions := c.sessions ++ [session] }, [])
  | .shutDown => some (self.onAccept fun c => { c with closed := true }, [])

end WebTransport

/-- A transport from `WebTransport::new` on. -/
def webTransport (Session : Type) (config : Config) :
    Machine (WebTransport Session) (WebTransport.Label Session) WebTransport.Ev where
  init := ⟨[], none⟩
  step := WebTransport.step config

namespace WebTransport

/-! ## What is announced -/

def listenAddrs (events : List TransportEvent) : List Multiaddr :=
  events.filterMap fun
    | .listenAddr address => some address
    | _ => none

def Ev.event : Ev → Option TransportEvent
  | .polled (.ready event) => some event
  | _ => none

def Ev.listen : Ev → Option Multiaddr
  | .listened addr => some addr
  | _ => none

/-- The addresses of the successful calls to `listen_on`. -/
def listens (tr : List Ev) : List Multiaddr := tr.filterMap Ev.listen

/-- The events that the calls to `poll` returned. -/
def returned (tr : List Ev) : List TransportEvent := tr.filterMap Ev.event

/-- Every call to `listen_on` is announced once. -/
def AnnouncedOnce (tr : List Ev) : Prop :=
  ∀ address, (listenAddrs (returned tr)).count address = (listens tr).count address

/-- An address that was announced and has not expired is that of the held listener. -/
def Live (s : WebTransport Session) (tr : List Ev) : Prop :=
  ∀ address before after, returned tr = before ++ .listenAddr address :: after →
    .addrExpired address ∉ after → ∃ listener, s.listener = some listener ∧
      listener.addr = address

namespace Label

/-- The address that the call listens on, if it succeeds. -/
def listens (config : Config) : Label Session → Option Multiaddr
  | .listenOn addr services =>
      match (platformListenOn config services addr : Outcome (Except Error (Listener Session))) with
      | .done (.ok _) => some addr
      | _ => none
  | _ => none

/-- Listening is only asked for on addresses that are not wildcards. -/
def Concrete : Label Session → Prop
  | .listenOn addr _ => ∀ ip port, extractIpPort addr = .ok (ip, port) → isUnspecified ip = false
  | _ => True

end Label

/-- The announcement that the held listener is still to make. -/
def waiting (s : WebTransport Session) : List TransportEvent :=
  (s.listener.bind Listener.pendingEvent).toList

/-- How often the address is that of the held listener. -/
def held (s : WebTransport Session) (address : Multiaddr) : Nat :=
  (s.listener.map Listener.addr).toList.count address

/-- The held listener accounts for one announcement more than there are calls. -/
structure Announces (s : WebTransport Session) (tr : List Ev) : Prop where
  count : ∀ address, (listens tr).count address + s.held address ≤
    (listenAddrs (returned tr)).count address +
      (listenAddrs s.pendingEvents).count address + (listenAddrs s.waiting).count address
  waiting : ∀ address, (listenAddrs s.waiting).count address ≤ s.held address
  listener : listens tr ≠ [] → s.listener.isSome

end WebTransport

/-! ## The steps -/

/-- A concrete address is announced by its listener. -/
theorem platformListenOn_ok {config : Config} {services : ListenServices} {addr : Multiaddr}
    {listener : Listener Session}
    (hconcrete : ∀ ip port, extractIpPort addr = .ok (ip, port) → isUnspecified ip = false)
    (h : platformListenOn config services addr = .done (.ok listener)) :
    listener.addr = addr ∧ listener.pendingEvent = some (.listenAddr addr) := by
  unfold platformListenOn at h
  split at h
  case h_1 => simp at h
  case h_2 ip port hip =>
      rw [hconcrete ip port hip] at h
      simp only [Bool.false_eq_true, if_false] at h
      split at h
      case h_1 hwatched => cases hwatched
      case h_2 | h_3 | h_4 => simp at h
      case h_5 ifWatcher pendingEvent localAddr hwatched _ =>
          cases hwatched
          split at h
          case isTrue => simp at h
          case isFalse =>
              cases h
              exact ⟨rfl, rfl⟩

namespace Listener

variable {self next : Listener Session}

theorem turn_spec {r : Option (Poll (Option TransportEvent))} (h : self.turn = (r, next)) :
    next.addr = self.addr ∧ next.pendingEvent = none ∧
      ∀ event, self.pendingEvent = some event → r = some (.ready (some event)) := by
  have hframe := pollIfAddr_eq self
  unfold turn at h
  cases hevent : self.pendingEvent with
  | some event =>
      simp only [hevent] at h
      cases h
      exact ⟨rfl, rfl, fun e he => by rw [Option.some.inj he]⟩
  | none =>
      rcases hpoll : self.pollIfAddr with ⟨poll, polled⟩
      simp only [hpoll] at hframe
      have haddr : polled.addr = self.addr := by rw [hframe]
      have hpending : polled.pendingEvent = none := by rw [hframe, hevent]
      simp only [hevent, hpoll] at h
      refine ⟨?_, ?_, fun e he => by simp at he⟩
      all_goals
        cases poll with
        | ready event => cases h; assumption
        | pending =>
            simp only at h
            split at h
            all_goals cases h; assumption

/-- A pending event is what `poll_next` returns. -/
theorem pollNext_spec {fuel : Nat} {r : Poll (Option TransportEvent)}
    (h : self.pollNext fuel = some (r, next)) :
    next.addr = self.addr ∧ next.pendingEvent = none ∧
      ∀ event, self.pendingEvent = some event → r = .ready (some event) := by
  induction fuel generalizing self with
  | zero => cases h
  | succ fuel ih =>
      rw [pollNext] at h
      rcases hturn : self.turn with ⟨returned, polled⟩
      obtain ⟨haddr, hpending, hready⟩ := turn_spec hturn
      rw [hturn] at h
      cases returned with
      | some result =>
          cases h
          exact ⟨haddr, hpending, fun event he => Option.some.inj (hready event he)⟩
      | none =>
          obtain ⟨haddr', hpending', -⟩ := ih h
          refine ⟨haddr'.trans haddr, hpending', fun event he => ?_⟩
          exact absurd (hready event he) (by simp)

end Listener

namespace WebTransport

variable {config : Config} {self self' : WebTransport Session} {tr : List Ev}

theorem returned_concat (tr : List Ev) (ev : Ev) :
    returned (tr ++ [ev]) = returned tr ++ ev.event.toList := by
  cases hev : ev.event <;> simp [returned, hev]

theorem listens_concat (tr : List Ev) (ev : Ev) :
    listens (tr ++ [ev]) = listens tr ++ ev.listen.toList := by
  cases hev : ev.listen <;> simp [listens, hev]

theorem listenAddrs_append (events events' : List TransportEvent) :
    listenAddrs (events ++ events') = listenAddrs events ++ listenAddrs events' :=
  List.filterMap_append

/-- A poll returns the oldest pending event, or what the listener returns. -/
theorem poll_cases {fuel : Nat} {result : Poll TransportEvent}
    (h : self.poll fuel = some (result, self')) :
    (∃ event, result = .ready event ∧ self.pendingEvents = event :: self'.pendingEvents ∧
      self'.listener = self.listener) ∨
    (self.pendingEvents = [] ∧ result = .pending ∧ self.listener = none ∧ self' = self) ∨
    (self.pendingEvents = [] ∧ self'.pendingEvents = [] ∧ ∃ listener next,
      self.listener = some listener ∧ self'.listener = some next ∧ next.addr = listener.addr ∧
        next.pendingEvent = none ∧
        ∀ event, listener.pendingEvent = some event → result = .ready event) := by
  unfold poll at h
  split at h
  case h_1 event pendingEvents hevents =>
      cases h
      exact .inl ⟨event, rfl, hevents, rfl⟩
  case h_2 hevents hlistener =>
      cases h
      exact .inr (.inl ⟨hevents, rfl, hlistener, rfl⟩)
  case h_3 listener hevents hlistener =>
      obtain ⟨⟨r, next⟩, hpoll, heq⟩ := Option.map_eq_some_iff.mp h
      obtain ⟨haddr, hpending, hready⟩ := Listener.pollNext_spec hpoll
      have hself : self'.pendingEvents = [] ∧ self'.listener = some next ∧
          ∀ event, r = .ready (some event) → result = .ready event := by
        split at heq
        case h_1 event hr =>
            cases heq
            simp only at hr
            exact ⟨hevents, rfl, fun e he => by cases hr.symm.trans he; rfl⟩
        case h_2 hr =>
            cases heq
            exact ⟨hevents, rfl, fun e he => absurd he (hr e)⟩
      exact .inr (.inr ⟨hevents, hself.1, listener, next, hlistener, hself.2.1, haddr, hpending,
        fun event he => hself.2.2 event (hready event he)⟩)

/-! ## The invariant -/

variable {s s' : WebTransport Session}

theorem announces_init : Announces (webTransport Session config).init [] where
  count := fun _ => Nat.le_refl _
  waiting := fun _ => Nat.le_refl _
  listener := fun h => absurd rfl h

theorem Announces.listenOn (h : Announces s tr) {addr : Multiaddr} {listener : Listener Session}
    (haddr : listener.addr = addr) (hpending : listener.pendingEvent = some (.listenAddr addr)) :
    Announces ⟨s.pendingEvents ++ [.listenAddr addr], some listener⟩ (tr ++ [.listened addr]) where
  count := by
    intro address
    have hcount := h.count address
    have hwaiting := h.waiting address
    rw [listens_concat, returned_concat]
    simp only [Ev.listen, Ev.event, Option.toList, List.append_nil, List.count_append, held,
      WebTransport.waiting, Option.map_some, Option.bind_some, hpending, haddr, listenAddrs_append]
    have hone : listenAddrs [.listenAddr addr] = [addr] := rfl
    rw [hone]
    omega
  waiting := by
    intro address
    simp [WebTransport.waiting, held, hpending, haddr, listenAddrs]
  listener := fun _ => rfl

theorem Announces.poll (h : Announces s tr) {fuel : Nat} {result : Poll TransportEvent}
    (hpoll : s.poll fuel = some (result, s')) : Announces s' (tr ++ [.polled result]) := by
  have hlistens : listens (tr ++ [.polled result]) = listens tr := by
    rw [listens_concat]
    exact List.append_nil _
  rcases poll_cases hpoll with ⟨event, rfl, hevents, hlistener⟩ | ⟨hevents, rfl, hlistener, rfl⟩ |
    ⟨hevents, hevents', listener, next, hlistener, hlistener', haddr, hpending, hready⟩
  · have hreturned : returned (tr ++ [.polled (.ready event)]) = returned tr ++ [event] :=
      returned_concat tr _
    have hheld : ∀ address, s'.held address = s.held address := by
      intro address
      rw [held, held, hlistener]
    have hwaiting : s'.waiting = s.waiting := by
      rw [WebTransport.waiting, WebTransport.waiting, hlistener]
    constructor
    · intro address
      have hcount := h.count address
      rw [hevents, ← List.singleton_append, listenAddrs_append, List.count_append] at hcount
      rw [hlistens, hreturned, listenAddrs_append, List.count_append, hheld, hwaiting]
      omega
    · intro address
      rw [hheld, hwaiting]
      exact h.waiting address
    · rw [hlistens, hlistener]
      exact h.listener
  · have hreturned : returned (tr ++ [.polled .pending]) = returned tr := by
      rw [returned_concat]
      exact List.append_nil _
    refine ⟨?_, h.waiting, ?_⟩
    · rw [hlistens, hreturned]
      exact h.count
    · rw [hlistens]
      exact h.listener
  · have hheld : ∀ address, s'.held address = s.held address := by
      intro address
      simp only [held, hlistener, hlistener', Option.map_some, haddr]
    have hnone : s'.waiting = [] := by simp [WebTransport.waiting, hlistener', hpending]
    constructor
    · intro address
      have hcount := h.count address
      rw [hlistens, returned_concat, hheld, hevents', hnone, listenAddrs_append,
        List.count_append]
      rw [hevents] at hcount
      cases hevent : listener.pendingEvent with
      | none =>
          have hwaiting : s.waiting = [] := by
            simp [WebTransport.waiting, hlistener, hevent]
          rw [hwaiting] at hcount
          omega
      | some event =>
          have hwaiting : s.waiting = [event] := by
            simp [WebTransport.waiting, hlistener, hevent]
          obtain rfl := hready event hevent
          rw [hwaiting] at hcount
          simp only [Ev.event, Option.toList]
          omega
    · intro address
      rw [hnone]
      exact Nat.zero_le _
    · intro _
      rw [hlistener']
      rfl

theorem Announces.onAccept (h : Announces s tr)
    (f : AcceptChannel Session → AcceptChannel Session) : Announces (s.onAccept f) tr := by
  have hheld : ∀ address, (s.onAccept f).held address = s.held address := by
    intro address
    simp [held, WebTransport.onAccept, Function.comp_def]
  have hwaiting : (s.onAccept f).waiting = s.waiting := by
    simp [WebTransport.waiting, WebTransport.onAccept, Option.bind_map]
  constructor
  · intro address
    rw [hheld, hwaiting]
    exact h.count address
  · intro address
    rw [hheld, hwaiting]
    exact h.waiting address
  · intro hlistens
    simpa [WebTransport.onAccept] using h.listener hlistens

theorem Announces.step (h : Announces s tr) {l : Label Session} (hl : l.Concrete)
    {es : List Ev} (hstep : s.step config l = some (s', es)) : Announces s' (tr ++ es) := by
  cases l with
  | listenOn addr services =>
      obtain ⟨rfl, rfl⟩ : (s.listenOn config addr services).1 = s' ∧
          [(s.listenOn config addr services).2] = es := by
        simpa [WebTransport.step, Prod.ext_iff] using hstep
      unfold WebTransport.listenOn
      split
      case h_3 listener hlisten =>
          obtain ⟨haddr, hpending⟩ := platformListenOn_ok hl hlisten
          exact h.listenOn haddr hpending
      case h_1 | h_2 =>
          constructor
          · rw [listens_concat, returned_concat]
            simpa [Ev.listen, Ev.event] using h.count
          · exact h.waiting
          · rw [listens_concat]
            simpa [Ev.listen] using h.listener
  | poll fuel =>
      obtain ⟨⟨result, polled⟩, hpoll, heq⟩ := Option.map_eq_some_iff.mp hstep
      cases heq
      exact h.poll hpoll
  | session session =>
      cases hstep
      simpa using h.onAccept _
  | shutDown =>
      cases hstep
      simpa using h.onAccept _

/-- The calls that succeed are the calls whose services let them. -/
theorem listens_step {l : Label Session} {es : List Ev}
    (hstep : s.step config l = some (s', es)) : listens es = (l.listens config).toList := by
  cases l with
  | listenOn addr services =>
      obtain ⟨-, rfl⟩ : (s.listenOn config addr services).1 = s' ∧
          [(s.listenOn config addr services).2] = es := by
        simpa [WebTransport.step, Prod.ext_iff] using hstep
      unfold WebTransport.listenOn Label.listens
      dsimp only
      generalize platformListenOn config services addr = outcome
      cases outcome with
      | panicked => rfl
      | done result => cases result <;> rfl
  | poll fuel =>
      obtain ⟨⟨result, polled⟩, -, heq⟩ := Option.map_eq_some_iff.mp hstep
      cases heq
      rfl
  | session session => cases hstep; rfl
  | shutDown => cases hstep; rfl

theorem run_listens {ls : List (Label Session)}
    (hrun : (webTransport Session config).Run ls s tr) :
    listens tr = ls.filterMap (Label.listens config) := by
  induction hrun with
  | nil => rfl
  | @snoc ls s tr l s' es _ hstep ih =>
      have happend : listens (tr ++ es) = listens tr ++ listens es := List.filterMap_append
      rw [happend, ih, listens_step hstep, List.filterMap_append]
      cases hl : l.listens config <;> simp [hl]

theorem run_announces {ls : List (Label Session)}
    (hrun : (webTransport Session config).Run ls s tr) (hls : ∀ l ∈ ls, l.Concrete) :
    Announces s tr := by
  induction hrun with
  | nil => exact announces_init
  | snoc _ hstep ih =>
      exact (ih fun l hl => hls l (List.mem_append_left _ hl)).step
        (hls _ (List.mem_append_right _ List.mem_cons_self)) hstep

/-- A transport that was never told to listen has nothing to announce. -/
theorem run_idle {ls : List (Label Session)} (hrun : (webTransport Session config).Run ls s tr)
    (hls : ∀ l ∈ ls, l.listens config = none) : s = ⟨[], none⟩ ∧ returned tr = [] := by
  induction hrun with
  | nil => exact ⟨rfl, rfl⟩
  | @snoc ls s tr l s' es _ hstep ih =>
      obtain ⟨rfl, hreturned⟩ := ih fun l hl => hls l (List.mem_append_left _ hl)
      have hl : l.listens config = none :=
        hls l (List.mem_append_right _ List.mem_cons_self)
      have happend : returned (tr ++ es) = returned tr ++ returned es := List.filterMap_append
      rw [happend, hreturned, List.nil_append]
      cases l with
      | listenOn addr services =>
          cases hlisten : (platformListenOn config services addr :
              Outcome (Except Error (Listener Session))) with
          | panicked =>
              obtain ⟨rfl, rfl⟩ : (⟨[], none⟩ : WebTransport Session) = s' ∧ [.panicked] = es := by
                simpa [webTransport, WebTransport.step, WebTransport.listenOn, hlisten] using hstep
              exact ⟨rfl, rfl⟩
          | done result =>
              cases result with
              | error e =>
                  obtain ⟨rfl, rfl⟩ : (⟨[], none⟩ : WebTransport Session) = s' ∧
                      [.failed e] = es := by
                    simpa [webTransport, WebTransport.step, WebTransport.listenOn, hlisten]
                      using hstep
                  exact ⟨rfl, rfl⟩
              | ok listener => simp [Label.listens, hlisten] at hl
      | poll fuel =>
          cases hstep
          exact ⟨rfl, rfl⟩
      | session session => cases hstep; exact ⟨rfl, rfl⟩
      | shutDown => cases hstep; exact ⟨rfl, rfl⟩

/-- When a transport has been polled until it is pending, its addresses have been
announced once each exactly if there are none: the last one was announced twice. -/
theorem announcedOnce_iff {ls : List (Label Session)} {fuel : Nat}
    (hrun : (webTransport Session config).Run ls s tr) (hls : ∀ l ∈ ls, l.Concrete)
    (hpoll : (webTransport Session config).step s (.poll fuel) = some (s', [.polled .pending])) :
    AnnouncedOnce (tr ++ [.polled .pending]) ∧ Live s' (tr ++ [.polled .pending]) ↔
      ∀ l ∈ ls, l.listens config = none := by
  have hpolled : s.poll fuel = some (.pending, s') := by
    obtain ⟨⟨result, polled⟩, hpolled, heq⟩ := Option.map_eq_some_iff.mp hpoll
    cases heq
    exact hpolled
  have hreturned : returned (tr ++ [.polled .pending]) = returned tr := by
    rw [returned_concat]
    exact List.append_nil _
  have hlistens : listens (tr ++ [.polled .pending]) = ls.filterMap (Label.listens config) := by
    rw [listens_concat, run_listens hrun]
    exact List.append_nil _
  constructor
  · rintro ⟨honce, -⟩
    have hannounces := (run_announces hrun hls).poll hpolled
    by_contra hsome
    have hne : listens (tr ++ [.polled .pending]) ≠ [] := by
      rw [hlistens, Ne, List.filterMap_eq_nil_iff]
      exact hsome
    obtain ⟨listener, hlistener⟩ := Option.isSome_iff_exists.mp (hannounces.listener hne)
    -- nothing is left to announce, and yet the held listener has one announcement too many
    have hcount := hannounces.count listener.addr
    rw [honce listener.addr] at hcount
    have hheld : s'.held listener.addr = 1 := by simp [held, hlistener]
    have hdone : s'.pendingEvents = [] ∧ s'.waiting = [] := by
      rcases poll_cases hpolled with ⟨event, hresult, -⟩ | ⟨hevents, -, hnone, rfl⟩ |
        ⟨-, hevents, before, next, -, hnext, -, hpending, -⟩
      · exact absurd hresult (by simp)
      · exact ⟨hevents, by simp [WebTransport.waiting, hnone]⟩
      · exact ⟨hevents, by simp [WebTransport.waiting, hnext, hpending]⟩
    rw [hheld, hdone.1, hdone.2] at hcount
    simp [listenAddrs] at hcount
  · intro hnone
    obtain ⟨-, hnothing⟩ := run_idle hrun hnone
    constructor
    · intro address
      rw [hreturned, hnothing, hlistens, List.filterMap_eq_nil_iff.mpr hnone]
      rfl
    · intro address before after heq
      rw [hreturned, hnothing] at heq
      exact absurd heq (by simp)

/-- What a server that can listen on its address provides. -/
def loopback : ListenServices where
  ifWatcher := .error "unused"
  endpoint := .ok (some (.ok ⟨.v4 localhost, 4443⟩))

def loopbackAddr : Multiaddr := [.ip4 localhost, .udp 4443, .quicV1, .webTransport]

/-- One call, and polls until nothing is left, with a session in between. -/
def listenOnce : List (Label Unit) :=
  [.listenOn loopbackAddr loopback, .poll 1, .session (), .poll 1, .poll 1]

def drained : WebTransport Unit where
  pendingEvents := []
  listener := some (.new ⟨.v4 localhost, 4443⟩ loopbackAddr none none)

theorem concrete_listenOnce : ∀ l ∈ listenOnce, l.Concrete := by
  have hconcrete : ∀ ip port, extractIpPort loopbackAddr = .ok (ip, port) →
      isUnspecified ip = false := by
    intro ip port hip
    cases hip
    decide
  simpa [listenOnce, Label.Concrete] using hconcrete

theorem announcedOnce_iff_listenOnce :
    let tr : List Ev := [.listened loopbackAddr, .polled (.ready (.listenAddr loopbackAddr)),
      .polled (.ready (.listenAddr loopbackAddr)), .polled (.ready (.newConnection remoteAddress))]
    ¬ (AnnouncedOnce (tr ++ [.polled .pending]) ∧ Live drained (tr ++ [.polled .pending])) := by
  intro tr h
  have hrun : (webTransport Unit ⟨false, []⟩).Run listenOnce drained tr :=
    Machine.run_of_exec rfl
  have hpoll : (webTransport Unit ⟨false, []⟩).step drained (.poll 1) =
      some (drained, [.polled .pending]) := rfl
  have hnone := (announcedOnce_iff hrun concrete_listenOnce hpoll).mp h _ List.mem_cons_self
  exact absurd hnone (by decide)

/-- One address, which is announced twice. -/
theorem not_announcedOnce_loopback :
    ∃ tr, (webTransport Unit ⟨false, []⟩).Run
        [.listenOn loopbackAddr loopback, .poll 1, .poll 1] drained tr ∧
      (webTransport Unit ⟨false, []⟩).step drained (.poll 1) = some (drained, [.polled .pending]) ∧
      ¬ AnnouncedOnce (tr ++ [.polled .pending]) := by
  refine ⟨_, Machine.run_of_exec rfl, rfl, fun honce => ?_⟩
  exact absurd (honce loopbackAddr) (by decide)

end WebTransport

end SfRs.WtTransport
