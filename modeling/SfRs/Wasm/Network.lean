import SfRs.Wasm.Signaling
/-!
# Clients that negotiate over the server

Any number of clients, with the server delivering the messages from one client to
another in the order they were sent.  For two of them the network carries out the
negotiation of `Negotiation`: a step of either is a move of its side.
-/

set_option linter.unusedSectionVars false

namespace SfRs.Wasm

open SfRs.Lib SfRs.Protocol

/-- The clients, and the messages on their way from one to another, oldest first. -/
structure Network (PeerID : Type) where
  clients : PeerID → Client PeerID
  wires : PeerID → PeerID → List (PeerRequest PeerID)

inductive NetworkAction (PeerID : Type) where
  | client (peerId : PeerID) (action : Action PeerID)
  | deliver (sender recipient : PeerID)

variable {PeerID : Type} [DecidableEq PeerID]

/-- The request an event sends to `peerId`. -/
def Event.requestTo (peerId : PeerID) : Event PeerID → Option (PeerRequest PeerID)
  | .sent (.forward sender (some recipient) data) =>
      if recipient = peerId then some (.forward sender (some recipient) data) else none
  | _ => none

/-- The description a request carries. -/
def description : PeerRequest PeerID → Option SessionDescription
  | .forward _ _ (.webRtcOffer _ d) => some d
  | _ => none

/-- The descriptions among the messages of a wire. -/
def carried (wire : List (PeerRequest PeerID)) : Multiset SessionDescription :=
  (wire.filterMap description : List SessionDescription)

namespace Network

def init : Network PeerID := ⟨fun _ => .new, fun _ _ => []⟩

/-- Client `p` becomes `c`, and its requests are put on the wires. -/
def perform (s : Network PeerID) (p : PeerID) (c : Client PeerID)
    (es : List (Event PeerID)) : Network PeerID where
  clients := Function.update s.clients p c
  wires sender recipient :=
    if sender = p then s.wires sender recipient ++ es.filterMap (Event.requestTo recipient)
    else s.wires sender recipient

def pop (s : Network PeerID) (q p : PeerID) : Network PeerID where
  clients := s.clients
  wires sender recipient :=
    if sender = q ∧ recipient = p then (s.wires sender recipient).tail
    else s.wires sender recipient

def step (s : Network PeerID) :
    NetworkAction PeerID → Option (Network PeerID × List (PeerID × Event PeerID))
  | .client _ (.receive _) => none
  | .client p a =>
      ((s.clients p).step p a).map fun r => (s.perform p r.1 r.2, r.2.map (p, ·))
  | .deliver q p =>
      match s.wires q p with
      | [] => none
      | request :: _ =>
          ((s.clients p).step p (.receive request)).map fun r =>
            ((s.pop q p).perform p r.1 r.2, r.2.map (p, ·))

/-- The descriptions `a` has set that `b` has not dealt with: not yet sent, on the wire,
or not yet applied. -/
def pending (s : Network PeerID) (a b : PeerID) : Multiset SessionDescription :=
  (s.clients a).unsent b + carried (s.wires a b) + (s.clients b).unapplied a

/-- The side of `a` in its negotiation with `b`. -/
def side (s : Network PeerID) (a b : PeerID) : Side :=
  ⟨(s.clients a).conn b, s.pending a b⟩

/-- No message between `a` and `b` is in flight, and neither runs `make_offer` or
`handle_offer` for the other. -/
def Quiet (s : Network PeerID) (a b : PeerID) : Prop :=
  s.wires a b = [] ∧ s.wires b a = [] ∧
    (s.clients a).offers b = [] ∧ (s.clients b).offers a = [] ∧
    ((s.clients a).handling b = none ∨ (s.clients a).handling b = some .addIceCandidate) ∧
    ((s.clients b).handling a = none ∨ (s.clients b).handling a = some .addIceCandidate)

instance (s : Network PeerID) (a b : PeerID) : Decidable (s.Quiet a b) :=
  inferInstanceAs (Decidable (_ ∧ _))

/-- `a` and `b` hold a `Peer` for each other. -/
def Paired (s : Network PeerID) (a b : PeerID) : Prop :=
  (s.clients a).peers b ≠ none ∧ (s.clients b).peers a ≠ none

instance (s : Network PeerID) (a b : PeerID) : Decidable (s.Paired a b) :=
  inferInstanceAs (Decidable (_ ∧ _))

/-- The step is no move of `a` or `b` that spoils their negotiation. -/
def OkStep (a b : PeerID) (s : Network PeerID) : NetworkAction PeerID → Prop
  | .client p action =>
      (p = a → ((s.clients a).move b action).Ok (s.side a b) (s.side b a)) ∧
        (p = b → ((s.clients b).move a action).Ok (s.side b a) (s.side a b))
  | .deliver _ _ => True

end Network

def network (PeerID : Type) [DecidableEq PeerID] :
    Machine (Network PeerID) (NetworkAction PeerID) (PeerID × Event PeerID) :=
  ⟨.init, Network.step⟩

/-- Whenever `a` and `b` hold a `Peer` for each other and nothing is going on between
them, their connections agree. -/
def AgreesWhenQuiet (a b : PeerID) (s : Network PeerID) : Prop :=
  s.Quiet a b → s.Paired a b → Agree ((s.clients a).conn b) ((s.clients b).conn a)

namespace Network

variable {a b p q : PeerID} {s s' s₀ : Network PeerID} {l : NetworkAction PeerID}

/-- Which client acts in a step, and the network it acts in: a delivery first takes the
message off its wire. -/
inductive Acts (s : Network PeerID) :
    NetworkAction PeerID → PeerID → Action PeerID → Network PeerID → Prop
  | client {p act} : (∀ request, act ≠ .receive request) → Acts s (.client p act) p act s
  | deliver {q p request rest} : s.wires q p = request :: rest →
      Acts s (.deliver q p) p (.receive request) (s.pop q p)

theorem acts_of_step {es : List (PeerID × Event PeerID)} (h : s.step l = some (s', es)) :
    ∃ p act s₀ c' es', s.Acts l p act s₀ ∧ (s.clients p).step p act = some (c', es') ∧
      s' = s₀.perform p c' es' := by
  unfold step at h
  split at h
  case h_1 => cases h
  case h_2 p act hact =>
      obtain ⟨⟨c', es'⟩, hstep, hpair⟩ := Option.map_eq_some_iff.mp h
      cases hpair
      exact ⟨p, act, s, c', es', .client hact, hstep, rfl⟩
  case h_3 q p =>
      split at h
      case h_1 => cases h
      case h_2 request rest hwire =>
          obtain ⟨⟨c', es'⟩, hstep, hpair⟩ := Option.map_eq_some_iff.mp h
          cases hpair
          exact ⟨p, .receive request, s.pop q p, c', es', .deliver hwire, hstep, rfl⟩

/-- Every message names the client it comes from. -/
def Addressed (s : Network PeerID) : Prop :=
  ∀ q p request, request ∈ s.wires q p →
    ∃ recipient data, request = .forward q recipient data

theorem Acts.clients {act : Action PeerID} (h : s.Acts l p act s₀) :
    s₀.clients = s.clients := by
  cases h <;> rfl

theorem Acts.wires_of_ne {act : Action PeerID} (h : s.Acts l p act s₀) (sender : PeerID)
    {recipient : PeerID} (hne : recipient ≠ p) :
    s₀.wires sender recipient = s.wires sender recipient := by
  cases h with
  | client => rfl
  | deliver => simp [pop, hne]

theorem Acts.mem_wires {act : Action PeerID} (h : s.Acts l p act s₀)
    {sender recipient : PeerID} {request : PeerRequest PeerID}
    (hmem : request ∈ s₀.wires sender recipient) : request ∈ s.wires sender recipient := by
  cases h with
  | client => exact hmem
  | deliver =>
      simp only [pop] at hmem
      split at hmem
      · exact List.mem_of_mem_tail hmem
      · exact hmem

theorem carried_cons (request : PeerRequest PeerID) (wire : List (PeerRequest PeerID)) :
    Wasm.carried (request :: wire) =
      ((description request).toList : Multiset SessionDescription) + Wasm.carried wire := by
  unfold Wasm.carried
  rw [List.filterMap_cons]
  cases description request <;> simp

/-- The description an action receives has been taken off its sender's wire. -/
theorem Acts.carried {act : Action PeerID} (h : s.Acts l p act s₀) (haddr : s.Addressed)
    (sender : PeerID) :
    Wasm.carried (s.wires sender p) =
      ((act.descriptionFrom sender).toList : Multiset SessionDescription) +
        Wasm.carried (s₀.wires sender p) := by
  cases h with
  | client hact =>
      have hnone : act.descriptionFrom sender = none := by
        cases act with
        | receive request => exact absurd rfl (hact request)
        | connect | connectToPeer | makeOffer | handle | gather => rfl
      simp [hnone]
  | @deliver q p request rest hwire =>
      have hmem : request ∈ s.wires q p := by simp [hwire]
      obtain ⟨recipient, data, rfl⟩ := haddr q p request hmem
      by_cases hq : sender = q
      · subst hq
        have hpop : (s.pop sender p).wires sender p = rest := by simp [pop, hwire]
        have hfrom : (Action.receive (.forward sender recipient data)).descriptionFrom sender =
            description (.forward sender recipient data) := by
          cases data <;> simp [Action.descriptionFrom, description]
        rw [hpop, hwire, hfrom, carried_cons]
      · have hpop : (s.pop q p).wires sender p = s.wires sender p := by simp [pop, hq]
        have hne : q ≠ sender := fun h => hq h.symm
        have hnone : (Action.receive (.forward q recipient data)).descriptionFrom sender =
            none := by
          cases data <;> simp [Action.descriptionFrom, hne]
        simp [hpop, hnone]

theorem filterMap_requestTo (es : List (Event PeerID)) (q : PeerID) :
    (es.filterMap (Event.requestTo q)).filterMap description =
      es.filterMap (Event.descriptionTo q) := by
  rw [List.filterMap_filterMap]
  congr 1
  funext e
  cases e with
  | sent request =>
      rcases request with _ | ⟨sender, _ | recipient, data⟩
      · rfl
      · rfl
      · by_cases hq : recipient = q
        · cases data <;> simp [Event.requestTo, Event.descriptionTo, description, hq]
        · cases data <;> simp [Event.requestTo, Event.descriptionTo, hq]
  | addedIceCandidate | notified | failed => rfl

theorem carried_perform (s : Network PeerID) (p : PeerID) (c : Client PeerID)
    (es : List (Event PeerID)) (q : PeerID) :
    carried ((s.perform p c es).wires p q) =
      carried (s.wires p q) +
        (es.filterMap (Event.descriptionTo q) : Multiset SessionDescription) := by
  simp only [carried, perform, if_true, List.filterMap_append, filterMap_requestTo,
    ← Multiset.coe_add]

theorem wires_perform_of_ne (s : Network PeerID) (c : Client PeerID)
    (es : List (Event PeerID)) {sender : PeerID} (hne : sender ≠ p) (q : PeerID) :
    (s.perform p c es).wires sender q = s.wires sender q := by
  simp [perform, hne]

theorem Addressed.of_acts {act : Action PeerID} {c' : Client PeerID}
    {es : List (Event PeerID)} (haddr : s.Addressed) (hacts : s.Acts l p act s₀)
    (hstep : (s.clients p).step p act = some (c', es)) :
    (s₀.perform p c' es).Addressed := by
  intro sender recipient request hmem
  by_cases hsender : sender = p
  · subst hsender
    simp only [perform, if_true, List.mem_append] at hmem
    rcases hmem with hmem | hmem
    · exact haddr sender recipient request (hacts.mem_wires hmem)
    · obtain ⟨e, he, hrequest⟩ := List.mem_filterMap.mp hmem
      unfold Event.requestTo at hrequest
      split at hrequest
      case h_1 from' to' data =>
          split at hrequest <;> cases hrequest
          cases Client.emits_of_step hstep _ he
          exact ⟨_, _, rfl⟩
      case h_2 => cases hrequest
  · rw [wires_perform_of_ne s₀ c' es hsender] at hmem
    exact haddr sender recipient request (hacts.mem_wires hmem)

/-! ## A step as a move of two sides -/

/-- A step of `a` is its move in the negotiation with `b`. -/
theorem moves_of_acts {act : Action PeerID} {c' : Client PeerID} {es : List (Event PeerID)}
    (hab : a ≠ b) (hsound : (s.clients a).Sound) (haddr : s.Addressed)
    (hacts : s.Acts l a act s₀) (hstep : (s.clients a).step a act = some (c', es)) :
    Moves ((s.clients a).move b act) (s.side a b) (s.side b a)
      ((s₀.perform a c' es).side a b) ((s₀.perform a c' es).side b a) := by
  have hfollows := Client.follows_of_step (q := b) hsound hstep
  have hself : (s₀.perform a c' es).clients a = c' := by simp [perform]
  have hother : (s₀.perform a c' es).clients b = s.clients b := by
    simp [perform, hab.symm, hacts.clients]
  refine ⟨?_, ?_, ?_, ?_⟩
  · simp only [side, hself]
    exact hfollows.performs
  · simp only [side, hother]
  · -- what `a` sets is unsent, or goes to the wire
    have hwire : s₀.wires a b = s.wires a b := hacts.wires_of_ne a hab.symm
    simp only [side, pending, hself, hother, carried_perform, hwire]
    calc c'.unsent b + (carried (s.wires a b) +
            (es.filterMap (Event.descriptionTo b) : Multiset SessionDescription)) +
          (s.clients b).unapplied a
        = ((es.filterMap (Event.descriptionTo b) : Multiset SessionDescription) +
            c'.unsent b) + carried (s.wires a b) + (s.clients b).unapplied a := by
          rw [add_comm (carried _), ← add_assoc, add_comm (c'.unsent b)]
      _ = ((s.clients a).move b act).gives +
            ((s.clients a).unsent b + carried (s.wires a b) +
              (s.clients b).unapplied a) := by
          rw [hfollows.gives, add_assoc, add_assoc, add_assoc]
  · -- what `a` deals with was on the wire, or received before
    have hwire : (s₀.perform a c' es).wires b a = s₀.wires b a :=
      wires_perform_of_ne s₀ c' es hab.symm a
    simp only [side, pending, hself, hother, hwire, hacts.carried haddr b]
    calc (s.clients b).unsent a +
            (((act.descriptionFrom b).toList : Multiset SessionDescription) +
              carried (s₀.wires b a)) + (s.clients a).unapplied b
        = (s.clients b).unsent a + carried (s₀.wires b a) +
            (((act.descriptionFrom b).toList : Multiset SessionDescription) +
              (s.clients a).unapplied b) := by
          rw [add_comm (_ : Multiset SessionDescription) (carried _), ← add_assoc, add_assoc]
      _ = ((s.clients a).move b act).takes +
            ((s.clients b).unsent a + carried (s₀.wires b a) + c'.unapplied b) := by
          rw [hfollows.takes, add_left_comm]

/-- A step of another client leaves the side of `a` as it is. -/
theorem side_of_acts {act : Action PeerID} {c' : Client PeerID} {es : List (Event PeerID)}
    (ha : a ≠ p) (hb : b ≠ p) (hacts : s.Acts l p act s₀) :
    (s₀.perform p c' es).side a b = s.side a b := by
  have hclients : ∀ r, r ≠ p → (s₀.perform p c' es).clients r = s.clients r := by
    intro r hr
    simp [perform, hr, hacts.clients]
  have hwire : (s₀.perform p c' es).wires a b = s.wires a b := by
    rw [wires_perform_of_ne s₀ c' es ha, hacts.wires_of_ne a hb]
  simp only [side, pending, hclients a ha, hclients b hb, hwire]

end Network

end SfRs.Wasm
