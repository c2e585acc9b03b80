import Mathlib.Logic.Function.Basic
import Mathlib.Order.Basic
import SfRs.Lib.Machine
/-!
# Calls on the two ends of a connection

Each end keeps its session behind a lock that is handed on in order.  A future of
`open_stream`, `accept_stream` or `close` asks for the lock when it is first polled and
keeps it until it is done, so `accept_stream` also keeps it while it waits for the other
end to open a stream.
-/

namespace SfRs.WtTransport.Connections

open SfRs.Lib

inductive End where
  | dialer
  | listener
  deriving DecidableEq

def End.other : End → End
  | dialer => listener
  | listener => dialer

inductive Method where
  | openStream
  | acceptStream
  | close
  deriving DecidableEq

/-- A future that was polled, with the number of calls before it. -/
structure Call where
  ticket : Nat
  method : Method
  deriving DecidableEq

/-- A `Connection`, with what its session knows. -/
structure Half where
  /-- The calls that want the lock; the first one has it. -/
  calls : List Call
  next : Nat
  opened : Nat
  /-- How many streams of the other end were accepted. -/
  accepted : Nat
  closed : Bool

inductive Result where
  /-- The `n`-th stream that one of the ends opened. -/
  | stream (opener : End) (n : Nat)
  | failed
  | closed
  deriving DecidableEq

abbrev State := End → Half

inductive Action where
  | call (e : End) (method : Method)
  /-- The holder of the lock is polled and gets what it waits for, or fails. -/
  | resume (e : End) (fails : Bool)
  /-- A future is dropped before it is done, and its place in the queue with it. -/
  | drop (e : End) (ticket : Nat)
  /-- The session sees that the other end closed. -/
  | learn (e : End)
  | lose (e : End)

inductive Event where
  | returned (e : End) (call : Call) (result : Result)

namespace State

def init : State := fun _ => ⟨[], 0, 0, 0, false⟩

/-- How the session answers the holder of the lock.  An open session can always open a
stream. -/
def answer (s : State) (e : End) : Method → Bool → Option Result
  | .openStream, false =>
      if (s e).closed then none else some (.stream e (s e).opened)
  | .acceptStream, false =>
      if (s e).accepted < (s e.other).opened then some (.stream e.other (s e).accepted) else none
  | .close, false => some .closed
  | .openStream, true | .acceptStream, true => if (s e).closed then some .failed else none
  | .close, true => none

end State

/-- The end once the holder of the lock is done. -/
def Half.returned (half : Half) (rest : List Call) : Method → Result → Half
  | .openStream, .stream _ _ => { half with calls := rest, opened := half.opened + 1 }
  | .acceptStream, .stream _ _ => { half with calls := rest, accepted := half.accepted + 1 }
  | .close, _ => { half with calls := rest, closed := true }
  | _, _ => { half with calls := rest }

namespace State

def step (s : State) : Action → Option (State × List Event)
  | .call e method =>
      let half := s e
      some (Function.update s e
        { half with calls := half.calls ++ [⟨half.next, method⟩], next := half.next + 1 }, [])
  | .resume e fails =>
      match (s e).calls with
      | [] => none
      | call :: rest =>
          (s.answer e call.method fails).map fun result =>
            (Function.update s e ((s e).returned rest call.method result),
              [.returned e call result])
  | .drop e ticket =>
      some (Function.update s e
        { s e with calls := (s e).calls.filter fun call => call.ticket ≠ ticket }, [])
  | .learn e =>
      if (s e.other).closed then some (Function.update s e { s e with closed := true }, [])
      else none
  | .lose e => some (Function.update s e { s e with closed := true }, [])

/-- A call of `accept_stream` has the lock of the end, and no stream is on its way. -/
structure Blocked (s : State) (e : End) : Prop where
  isOpen : (s e).closed = false ∧ (s e.other).closed = false
  accepted : (s e).accepted = (s e.other).opened
  holder : ∃ call rest, (s e).calls = call :: rest ∧ call.method = .acceptStream

def Deadlocked (s : State) : Prop := ∀ e, s.Blocked e

end State

/-- The two ends of a connection, whatever is called on them. -/
def connection : Machine State Action Event where
  init := .init
  step := State.step

/-- Every call is left to itself, and the connection is not lost. -/
def Action.Undisturbed : Action → Prop
  | .drop _ _ | .lose _ => False
  | _ => True

/-- Some call can return although nothing comes in from outside. -/
def State.GoesOn (s : State) : Prop :=
  ∃ more s' es, (∀ a ∈ more, a.Undisturbed) ∧ connection.execFrom s more = some (s', es) ∧
    es ≠ []

/-! ## Calls return in order -/

/-- The calls that returned at an end, in order. -/
def ticketsAt (e : End) (tr : List Event) : List Nat :=
  tr.filterMap fun
    | .returned e' call _ => if e' = e then some call.ticket else none

def Half.tickets (half : Half) : List Nat := half.calls.map Call.ticket

/-- The calls that returned and those that wait are in the order of the calls, and no more
streams are accepted than were opened. -/
structure State.Ordered (s : State) (tr : List Event) : Prop where
  sorted : ∀ e, (ticketsAt e tr ++ (s e).tickets).Pairwise (· < ·)
  below : ∀ e, ∀ ticket ∈ ticketsAt e tr ++ (s e).tickets, ticket < (s e).next
  accepted : ∀ e, (s e).accepted ≤ (s e.other).opened

@[simp] theorem End.other_other (e : End) : e.other.other = e := by cases e <;> rfl

theorem End.other_ne (e : End) : e.other ≠ e := by cases e <;> decide

theorem End.eq_or_eq_other (e e' : End) : e' = e ∨ e' = e.other := by
  cases e <;> cases e' <;> decide

theorem ticketsAt_append (e : End) (tr es : List Event) :
    ticketsAt e (tr ++ es) = ticketsAt e tr ++ ticketsAt e es := List.filterMap_append

theorem Half.returned_frame (half : Half) (rest : List Call) (method : Method)
    (result : Result) :
    (half.returned rest method result).calls = rest ∧
      (half.returned rest method result).next = half.next ∧
      half.opened ≤ (half.returned rest method result).opened := by
  cases method <;> cases result <;> exact ⟨rfl, rfl, by simp [returned]⟩

namespace State

variable {s s' : State} {tr es : List Event} {e : End}

theorem ordered_init : init.Ordered [] where
  sorted _ := List.Pairwise.nil
  below _ := by simp [ticketsAt, init, Half.tickets]
  accepted _ := le_rfl

/-- A step at one end, which returns calls or drops them, or adds one after all others. -/
theorem Ordered.update (hordered : s.Ordered tr) {half : Half}
    (hes : ∀ e' ≠ e, ticketsAt e' es = [])
    (hsublist : (ticketsAt e es ++ half.tickets).Sublist
      ((s e).tickets ++ if half.next = (s e).next then [] else [(s e).next]))
    (hnext : half.next = (s e).next ∨ half.next = (s e).next + 1)
    (hopened : (s e).opened ≤ half.opened) (haccepted : half.accepted ≤ (s e.other).opened) :
    State.Ordered (Function.update s e half) (tr ++ es) := by
  have hold : ∀ e' ≠ e, ticketsAt e' (tr ++ es) ++ (Function.update s e half e').tickets =
      ticketsAt e' tr ++ (s e').tickets := by
    intro e' hne
    rw [ticketsAt_append, hes e' hne, List.append_nil, Function.update_of_ne hne]
  have hnew : (ticketsAt e (tr ++ es) ++ half.tickets).Sublist
      ((ticketsAt e tr ++ (s e).tickets) ++
        if half.next = (s e).next then [] else [(s e).next]) := by
    rw [ticketsAt_append, List.append_assoc, List.append_assoc]
    exact (List.Sublist.refl _).append hsublist
  have hbelow := hordered.below e
  refine ⟨fun e' => ?_, fun e' ticket hmem => ?_, fun e' => ?_⟩
  · rcases eq_or_ne e' e with rfl | hne
    · rw [Function.update_self]
      refine List.Pairwise.sublist hnew (List.pairwise_append.mpr ⟨hordered.sorted e', ?_, ?_⟩)
      · split <;> simp
      · intro ticket hticket last hlast
        split at hlast
        · exact absurd hlast List.not_mem_nil
        · rw [List.mem_singleton.mp hlast]
          exact hbelow ticket hticket
    · rw [hold e' hne]
      exact hordered.sorted e'
  · rcases eq_or_ne e' e with rfl | hne
    · rw [Function.update_self] at hmem ⊢
      rcases List.mem_append.mp (hnew.subset hmem) with hticket | hlast
      · have := hbelow ticket hticket
        omega
      · split at hlast
        · exact absurd hlast List.not_mem_nil
        · rw [List.mem_singleton.mp hlast]
          omega
    · rw [hold e' hne] at hmem
      rw [Function.update_of_ne hne]
      exact hordered.below e' ticket hmem
  · rcases e.eq_or_eq_other e' with rfl | rfl
    · rw [Function.update_self, Function.update_of_ne e'.other_ne]
      exact haccepted
    · rw [Function.update_of_ne e.other_ne, End.other_other, Function.update_self]
      have := hordered.accepted e.other
      rw [End.other_other] at this
      exact this.trans hopened

/-- Only a stream that was opened is accepted. -/
theorem accepted_returned {method : Method} {fails : Bool} {result : Result}
    (hanswer : s.answer e method fails = some result)
    (hle : (s e).accepted ≤ (s e.other).opened) (rest : List Call) :
    ((s e).returned rest method result).accepted ≤ (s e.other).opened := by
  cases method with
  | openStream | close => cases result <;> exact hle
  | acceptStream =>
      cases result with
      | failed | closed => exact hle
      | stream opener n =>
          cases fails with
          | false =>
              obtain ⟨hlt, -⟩ := Option.ite_none_right_eq_some.mp hanswer
              exact hlt
          | true => simp [answer] at hanswer

theorem Ordered.step (hordered : s.Ordered tr) {a : Action} (hstep : s.step a = some (s', es)) :
    s'.Ordered (tr ++ es) := by
  cases a with
  | call e method =>
      obtain ⟨rfl, rfl⟩ := Prod.mk.inj (Option.some.inj hstep)
      refine hordered.update (fun _ _ => rfl) ?_ (Or.inr rfl) le_rfl (hordered.accepted e)
      simp [ticketsAt, Half.tickets]
  | resume e fails =>
      simp only [State.step] at hstep
      split at hstep
      case h_1 => exact absurd hstep (Option.some_ne_none _).symm
      case h_2 call rest hcalls =>
          obtain ⟨result, hanswer, heq⟩ := Option.map_eq_some_iff.mp hstep
          obtain ⟨rfl, rfl⟩ := Prod.mk.inj heq
          have hother : ∀ e' ≠ e, ticketsAt e' [.returned e call result] = [] := by
            intro e' hne
            simp [ticketsAt, hne.symm]
          have htickets : (ticketsAt e [.returned e call result] ++ rest.map Call.ticket) =
              (s e).tickets := by
            simp [ticketsAt, Half.tickets, hcalls]
          obtain ⟨hrest, hnext, hopened⟩ := (s e).returned_frame rest call.method result
          refine hordered.update hother ?_ (Or.inl hnext) hopened
            (accepted_returned hanswer (hordered.accepted e) rest)
          rw [Half.tickets, hrest, htickets]
          exact List.sublist_append_left _ _
  | drop e ticket =>
      obtain ⟨rfl, rfl⟩ := Prod.mk.inj (Option.some.inj hstep)
      refine hordered.update (fun _ _ => rfl) ?_ (Or.inl rfl) le_rfl (hordered.accepted e)
      simpa [ticketsAt, Half.tickets] using List.filter_sublist.map _
  | learn e =>
      obtain ⟨-, heq⟩ := Option.ite_none_right_eq_some.mp hstep
      obtain ⟨rfl, rfl⟩ := Prod.mk.inj (Option.some.inj heq)
      refine hordered.update (fun _ _ => rfl) ?_ (Or.inl rfl) le_rfl (hordered.accepted e)
      simp [ticketsAt, Half.tickets]
  | lose e =>
      obtain ⟨rfl, rfl⟩ := Prod.mk.inj (Option.some.inj hstep)
      refine hordered.update (fun _ _ => rfl) ?_ (Or.inl rfl) le_rfl (hordered.accepted e)
      simp [ticketsAt, Half.tickets]

/-! ## Deadlocks -/

/-- Nothing that is done at a blocked end goes on before a call returns at the other. -/
theorem Blocked.step (hblocked : s.Blocked e) {a : Action} (ha : a.Undisturbed)
    (hstep : s.step a = some (s', es)) :
    s'.Blocked e ∧ es = [] ∨ ∃ call result, es = [.returned e.other call result] := by
  obtain ⟨⟨hopen, hother⟩, haccepted, call, rest, hcalls, haccept⟩ := hblocked
  cases a with
  | call e' method =>
      obtain ⟨rfl, rfl⟩ := Prod.mk.inj (Option.some.inj hstep)
      refine Or.inl ⟨?_, rfl⟩
      rcases e.eq_or_eq_other e' with rfl | rfl
      · refine ⟨?_, ?_, call, rest ++ [⟨(s e').next, method⟩], ?_, haccept⟩
        · rw [Function.update_self, Function.update_of_ne e'.other_ne]
          exact ⟨hopen, hother⟩
        · rw [Function.update_self, Function.update_of_ne e'.other_ne]
          exact haccepted
        · rw [Function.update_self, hcalls]
          rfl
      · refine ⟨?_, ?_, call, rest, ?_, haccept⟩
        · rw [Function.update_self, Function.update_of_ne e.other_ne.symm]
          exact ⟨hopen, hother⟩
        · rw [Function.update_self, Function.update_of_ne e.other_ne.symm]
          exact haccepted
        · rw [Function.update_of_ne e.other_ne.symm]
          exact hcalls
  | resume e' fails =>
      rcases e.eq_or_eq_other e' with rfl | rfl
      · simp only [State.step, hcalls, haccept, Option.map_eq_some_iff] at hstep
        obtain ⟨result, hanswer, -⟩ := hstep
        cases fails <;> simp [answer, hopen, haccepted] at hanswer
      · simp only [State.step] at hstep
        split at hstep
        case h_1 => exact absurd hstep (Option.some_ne_none _).symm
        case h_2 call' rest' _ =>
            obtain ⟨result, -, heq⟩ := Option.map_eq_some_iff.mp hstep
            exact Or.inr ⟨call', result, (Prod.mk.inj heq).2.symm⟩
  | learn e' =>
      obtain ⟨hclosed, -⟩ := Option.ite_none_right_eq_some.mp hstep
      rcases e.eq_or_eq_other e' with rfl | rfl
      · rw [hother] at hclosed
        exact absurd hclosed Bool.false_ne_true
      · rw [End.other_other, hopen] at hclosed
        exact absurd hclosed Bool.false_ne_true
  | drop | lose => exact ha.elim

/-- Two calls that wait for each other's end wait as long as they are left to themselves. -/
theorem Deadlocked.step (hdead : s.Deadlocked) {a : Action} (ha : a.Undisturbed)
    (hstep : s.step a = some (s', es)) : s'.Deadlocked ∧ es = [] := by
  have hboth : ∀ e, s'.Blocked e ∧ es = [] := by
    intro e
    rcases (hdead e).step ha hstep with hblocked | ⟨call, result, rfl⟩
    · exact hblocked
    · rcases (hdead e.other).step ha hstep with ⟨-, hnil⟩ | ⟨call', result', heq⟩
      · exact absurd hnil (List.cons_ne_nil _ _)
      · rw [List.cons.injEq, Event.returned.injEq, End.other_other] at heq
        exact absurd heq.1.1 e.other_ne
  exact ⟨fun e => (hboth e).1, (hboth .dialer).2⟩

/-- Where the two ends do not wait for each other, some call can return. -/
theorem goesOn_of_not_deadlocked (hordered : s.Ordered tr) (hdead : ¬ s.Deadlocked) : s.GoesOn := by
  have hcall : ∀ e, (s e).calls = [] → s.GoesOn := by
    intro e hcalls
    obtain ⟨r, hexec, hreturned⟩ : ∃ r, connection.execFrom s
        [.call e .close, .resume e false] = some r ∧ r.2 ≠ [] := by
      simp [Machine.execFrom, connection, State.step, hcalls, answer]
    exact ⟨_, r.1, r.2, by simp [Action.Undisturbed], hexec, hreturned⟩
  have hholder : ∀ e call rest fails, (s e).calls = call :: rest →
      (s.answer e call.method fails).isSome → s.GoesOn := by
    intro e call rest fails hcalls hanswer
    obtain ⟨result, hresult⟩ := Option.isSome_iff_exists.mp hanswer
    obtain ⟨r, hexec, hreturned⟩ : ∃ r, connection.execFrom s [.resume e fails] = some r ∧
        r.2 ≠ [] := by
      simp [Machine.execFrom, connection, State.step, hcalls, hresult]
    exact ⟨_, r.1, r.2, by simp [Action.Undisturbed], hexec, hreturned⟩
  obtain ⟨e, he⟩ := not_forall.mp hdead
  cases hcalls : (s e).calls with
  | nil => exact hcall e hcalls
  | cons call rest =>
      cases hmethod : call.method with
      | close => exact hholder e call rest false hcalls (by simp [hmethod, answer])
      | openStream =>
          exact hholder e call rest (s e).closed hcalls (by
            cases hclosed : (s e).closed <;> simp [hmethod, answer, hclosed])
      | acceptStream =>
          by_cases hclosed : (s e).closed
          · exact hholder e call rest true hcalls (by simp [hmethod, answer, hclosed])
          · rw [Bool.not_eq_true] at hclosed
            by_cases hother : (s e.other).closed
            · -- the end learns that the other one closed
              obtain ⟨r, hexec, hreturned⟩ : ∃ r, connection.execFrom s
                  [.learn e, .resume e true] = some r ∧ r.2 ≠ [] := by
                simp [Machine.execFrom, connection, State.step, hcalls, hmethod, hother, answer]
              exact ⟨_, r.1, r.2, by simp [Action.Undisturbed], hexec, hreturned⟩
            · rw [Bool.not_eq_true] at hother
              have hlt : (s e).accepted < (s e.other).opened := by
                refine lt_of_le_of_ne (hordered.accepted e) fun heq => he ?_
                exact ⟨⟨hclosed, hother⟩, heq, call, rest, hcalls, hmethod⟩
              exact hholder e call rest false hcalls (by simp [hmethod, answer, hlt])

end State

variable {acts : List Action} {s : State} {tr : List Event}

theorem ordered_of_run (hrun : connection.Run acts s tr) : s.Ordered tr :=
  Machine.invariant State.ordered_init (fun _ _ _ _ _ hordered hstep => hordered.step hstep) hrun

section Continued

variable {more : List Action} {s' : State} {es : List Event} {e : End}

theorem deadlocked_of_execFrom (hdead : s.Deadlocked) (hmore : ∀ a ∈ more, a.Undisturbed)
    (hexec : connection.execFrom s more = some (s', es)) : s'.Deadlocked ∧ es = [] := by
  induction more generalizing s es with
  | nil =>
      obtain ⟨rfl, rfl⟩ := Prod.mk.inj (Option.some.inj hexec)
      exact ⟨hdead, rfl⟩
  | cons a more ih =>
      obtain ⟨⟨s₁, es₁⟩, hstep, hrest⟩ := Option.bind_eq_some_iff.mp hexec
      obtain ⟨⟨s₂, es₂⟩, hexec₂, heq⟩ := Option.map_eq_some_iff.mp hrest
      obtain ⟨rfl, rfl⟩ := Prod.mk.inj heq
      obtain ⟨hdead₁, rfl⟩ := hdead.step (hmore a List.mem_cons_self) hstep
      exact ih hdead₁ (fun a ha => hmore a (List.mem_cons_of_mem _ ha)) hexec₂

theorem blocked_of_execFrom (hblocked : s.Blocked e) (hmore : ∀ a ∈ more, a.Undisturbed)
    (hexec : connection.execFrom s more = some (s', es)) (hother : ticketsAt e.other es = []) :
    s'.Blocked e ∧ es = [] := by
  induction more generalizing s es with
  | nil =>
      obtain ⟨rfl, rfl⟩ := Prod.mk.inj (Option.some.inj hexec)
      exact ⟨hblocked, rfl⟩
  | cons a more ih =>
      obtain ⟨⟨s₁, es₁⟩, hstep, hrest⟩ := Option.bind_eq_some_iff.mp hexec
      obtain ⟨⟨s₂, es₂⟩, hexec₂, heq⟩ := Option.map_eq_some_iff.mp hrest
      obtain ⟨rfl, rfl⟩ := Prod.mk.inj heq
      rw [ticketsAt_append] at hother
      obtain ⟨hnone, hlater⟩ := List.append_eq_nil_iff.mp hother
      rcases hblocked.step (hmore a List.mem_cons_self) hstep with
        ⟨hblocked₁, rfl⟩ | ⟨call, result, rfl⟩
      · exact ih hblocked₁ (fun a ha => hmore a (List.mem_cons_of_mem _ ha)) hexec₂ hlater
      · exact absurd hnone (by simp [ticketsAt])

end Continued

/-- The ends open a stream to each other, and then both wait for the next one. -/
def bothAccept : List Action :=
  [.call .dialer .openStream, .resume .dialer false,
    .call .listener .acceptStream, .resume .listener false,
    .call .dialer .acceptStream, .call .listener .acceptStream,
    .call .dialer .openStream, .call .listener .close]

end SfRs.WtTransport.Connections
