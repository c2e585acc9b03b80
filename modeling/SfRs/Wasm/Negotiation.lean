import Mathlib.Data.Multiset.AddSub
import SfRs.Wasm.PeerConnection
/-!
# Offer and answer between two sides

What two clients do to each other's connection, without the tasks and queues that carry
it.  A side has its connection and the descriptions it has set that the other side has
not dealt with yet.

A side that applies the first remote description it gets and nothing later negotiates
once.  From every `Phase` of that negotiation a move that is `Ok` leads to a phase, and
any other move to a `Doomed` pair, which never agrees.
-/

namespace SfRs.Wasm

open SfRs.Protocol

structure Side where
  conn : PeerConnection
  pending : Multiset SessionDescription

/-- What a step of one side does: set an offer, apply or drop a description of the other
side, set an answer, or none of these. -/
inductive Move where
  | quiet
  | offer (d : SessionDescription)
  | apply (d : SessionDescription)
  | drop (d : SessionDescription)
  | answer (a : SessionDescription)

namespace Move

def gives : Move → Multiset SessionDescription
  | .offer d | .answer d => {d}
  | _ => 0

def takes : Move → Multiset SessionDescription
  | .apply d | .drop d => {d}
  | _ => 0

/-- The move on the connection of the side that makes it. -/
def Performs : Move → PeerConnection → PeerConnection → Prop
  | .quiet, pc, pc' => pc' = pc
  | .offer d, pc, pc' => d.sdpType = .offer ∧ pc.signalingState = .stable ∧
      pc' = { pc with signalingState := .haveLocalOffer d }
  | .apply d, pc, pc' => pc.remoteDescription = none ∧
      ∃ rollsBack, pc.setRemoteDescription rollsBack d = .ok pc'
  | .drop d, pc, pc' => pc' = pc ∧
      (pc.remoteDescription ≠ none ∨
        ∃ rollsBack e, pc.setRemoteDescription rollsBack d = .error e)
  | .answer a, pc, pc' => a.sdpType = .answer ∧
      ∃ remote, pc.signalingState = .haveRemoteOffer remote ∧
        pc' = ⟨.stable, some ⟨a, remote⟩⟩

/-- The moves that keep a negotiation going.  An offer opens it, and never replaces what
has been agreed.  Where two offers meet, one side gives way: it applies the offer of
the other while that still stands, and the side that refuses is one whose own offer has
been applied or still can be. -/
def Ok (x y : Side) : Move → Prop
  | .offer _ => x.conn.current = none
  | .apply d => ∀ own, x.conn.signalingState = .haveLocalOffer own → d.sdpType = .offer →
      y.conn.localDescription = some d
  | .drop d => ∀ own, x.conn = ⟨.haveLocalOffer own, none⟩ → d.sdpType = .offer →
      y.conn.remoteDescription = some own ∨ own ∈ x.pending
  | .quiet | .answer _ => True

end Move

/-- `x` makes the move `m`, which takes the pair to `x'` and `y'`. -/
structure Moves (m : Move) (x y x' y' : Side) : Prop where
  performs : m.Performs x.conn x'.conn
  other : y'.conn = y.conn
  gives : x'.pending = m.gives + x.pending
  takes : y.pending = m.takes + y'.pending

/-- The stages of one negotiation, the side whose offer is answered first. -/
inductive Phase : Side → Side → Prop
  | fresh : Phase ⟨.newDefault, 0⟩ ⟨.newDefault, 0⟩
  | offered {d} : d.sdpType = .offer →
      Phase ⟨⟨.haveLocalOffer d, none⟩, {d}⟩ ⟨.newDefault, 0⟩
  | glare {d d' s s'} : d.sdpType = .offer → d'.sdpType = .offer → (s = {d} ∨ s = 0) →
      (s' = {d'} ∨ s' = 0) → (s ≠ 0 ∨ s' ≠ 0) →
      Phase ⟨⟨.haveLocalOffer d, none⟩, s⟩ ⟨⟨.haveLocalOffer d', none⟩, s'⟩
  | answering {d s} : d.sdpType = .offer → (∀ e ∈ s, e.sdpType = .offer) →
      Phase ⟨⟨.haveLocalOffer d, none⟩, 0⟩ ⟨⟨.haveRemoteOffer d, none⟩, s⟩
  | answered {d a s} : d.sdpType = .offer → a.sdpType = .answer →
      (∀ e ∈ s, e.sdpType = .offer) →
      Phase ⟨⟨.haveLocalOffer d, none⟩, 0⟩ ⟨⟨.stable, some ⟨a, d⟩⟩, a ::ₘ s⟩
  | agreed {d a s} : d.sdpType = .offer → a.sdpType = .answer →
      (∀ e ∈ s, e.sdpType = .offer) →
      Phase ⟨⟨.stable, some ⟨d, a⟩⟩, 0⟩ ⟨⟨.stable, some ⟨a, d⟩⟩, s⟩

def Negotiating (x y : Side) : Prop := Phase x y ∨ Phase y x

/-- A new offer stands over an agreed pair of descriptions. -/
def Reoffered (x : Side) : Prop :=
  ∃ d current, x.conn = ⟨.haveLocalOffer d, some current⟩

/-- The side has applied an offer of the other side. -/
def Answerer (x : Side) : Prop :=
  (∃ d, d.sdpType = .offer ∧ x.conn = ⟨.haveRemoteOffer d, none⟩) ∨
    ∃ a d, a.sdpType = .answer ∧ d.sdpType = .offer ∧ x.conn = ⟨.stable, some ⟨a, d⟩⟩

/-- The pairs that never agree: a new offer that will not be applied, two answerers, or
two offers that have both been refused. -/
inductive Doomed : Side → Side → Prop
  | reoffered {x y} : Reoffered x → Doomed x y
  | otherReoffered {x y} : Reoffered y → Doomed x y
  | answerers {x y} : Answerer x → Answerer y → Doomed x y
  | refused {d d'} :
      Doomed ⟨⟨.haveLocalOffer d, none⟩, 0⟩ ⟨⟨.haveLocalOffer d', none⟩, 0⟩

/-- Both connections are stable, and each remote description is the other's local one. -/
def Agree (x y : PeerConnection) : Prop :=
  x.signalingState = .stable ∧ y.signalingState = .stable ∧
    x.remoteDescription = y.localDescription ∧ y.remoteDescription = x.localDescription

instance (x y : PeerConnection) : Decidable (Agree x y) :=
  inferInstanceAs (Decidable (_ ∧ _))

variable {m : Move} {x y x' y' : Side}

theorem Negotiating.symm (h : Negotiating x y) : Negotiating y x := Or.symm h

theorem Doomed.symm (h : Doomed x y) : Doomed y x := by
  cases h with
  | reoffered hx => exact .otherReoffered hx
  | otherReoffered hy => exact .reoffered hy
  | answerers hx hy => exact .answerers hy hx
  | refused => exact .refused

theorem Agree.symm {x y : PeerConnection} (h : Agree x y) : Agree y x :=
  ⟨h.2.1, h.1, h.2.2.2, h.2.2.1⟩

theorem Reoffered.of_performs (hx : Reoffered x) (hmove : m.Performs x.conn x'.conn) :
    Reoffered x' := by
  obtain ⟨d, current, hconn⟩ := hx
  rw [hconn] at hmove
  cases m with
  | quiet => exact ⟨d, current, hmove⟩
  | offer => exact absurd hmove.2.1 (by simp)
  | apply => exact absurd hmove.1 (by simp [PeerConnection.remoteDescription])
  | drop => exact ⟨d, current, hmove.1⟩
  | answer =>
      obtain ⟨-, remote, hstate, -⟩ := hmove
      cases hstate

theorem Answerer.of_performs (hx : Answerer x) (hmove : m.Performs x.conn x'.conn) :
    Answerer x' ∨ Reoffered x' := by
  rcases hx with ⟨d, hd, hconn⟩ | ⟨a, d, ha, hd, hconn⟩
  all_goals rw [hconn] at hmove
  · -- the offer is applied and not yet answered
    cases m with
    | quiet => exact Or.inl (Or.inl ⟨d, hd, hmove⟩)
    | offer => exact absurd hmove.2.1 (by simp)
    | apply => exact absurd hmove.1 (by simp [PeerConnection.remoteDescription])
    | drop => exact Or.inl (Or.inl ⟨d, hd, hmove.1⟩)
    | answer a =>
        obtain ⟨ha, remote, hstate, hconn'⟩ := hmove
        cases hstate
        exact Or.inl (Or.inr ⟨a, d, ha, hd, hconn'⟩)
  · cases m with
    | quiet => exact Or.inl (Or.inr ⟨a, d, ha, hd, hmove⟩)
    | offer d' => exact Or.inr ⟨d', _, hmove.2.2⟩
    | apply => exact absurd hmove.1 (by simp [PeerConnection.remoteDescription])
    | drop => exact Or.inl (Or.inr ⟨a, d, ha, hd, hmove.1⟩)
    | answer =>
        obtain ⟨-, remote, hstate, -⟩ := hmove
        cases hstate

/-! ## The moves one by one -/

theorem Moves.quiet (h : Moves .quiet x y x' y') : x' = x ∧ y' = y := by
  obtain ⟨pc, p⟩ := x'
  obtain ⟨pc', p'⟩ := y'
  obtain ⟨hconn, hother, hgives, htakes⟩ := h
  obtain rfl : pc = x.conn := hconn
  obtain rfl : pc' = y.conn := hother
  obtain rfl : p = x.pending := by simpa [Move.gives] using hgives
  obtain rfl : p' = y.pending := by simpa [Move.takes] using htakes.symm
  exact ⟨rfl, rfl⟩

theorem Moves.offer {d : SessionDescription} (h : Moves (.offer d) x y x' y') :
    d.sdpType = .offer ∧ x.conn.signalingState = .stable ∧
      x' = ⟨⟨.haveLocalOffer d, x.conn.current⟩, d ::ₘ x.pending⟩ ∧ y' = y := by
  obtain ⟨pc, p⟩ := x'
  obtain ⟨pc', p'⟩ := y'
  obtain ⟨⟨hd, hstate, hconn⟩, hother, hgives, htakes⟩ := h
  obtain rfl : pc = _ := hconn
  obtain rfl : pc' = y.conn := hother
  obtain rfl : p = d ::ₘ x.pending := by simpa [Move.gives] using hgives
  obtain rfl : p' = y.pending := by simpa [Move.takes] using htakes.symm
  exact ⟨hd, hstate, rfl, rfl⟩

theorem Moves.answer {a : SessionDescription} (h : Moves (.answer a) x y x' y') :
    a.sdpType = .answer ∧ ∃ remote, x.conn.signalingState = .haveRemoteOffer remote ∧
      x' = ⟨⟨.stable, some ⟨a, remote⟩⟩, a ::ₘ x.pending⟩ ∧ y' = y := by
  obtain ⟨pc, p⟩ := x'
  obtain ⟨pc', p'⟩ := y'
  obtain ⟨⟨ha, remote, hstate, hconn⟩, hother, hgives, htakes⟩ := h
  obtain rfl : pc = _ := hconn
  obtain rfl : pc' = y.conn := hother
  obtain rfl : p = a ::ₘ x.pending := by simpa [Move.gives] using hgives
  obtain rfl : p' = y.pending := by simpa [Move.takes] using htakes.symm
  exact ⟨ha, remote, hstate, rfl, rfl⟩

theorem Moves.apply {d : SessionDescription} (h : Moves (.apply d) x y x' y') :
    ∃ rollsBack pc p, x.conn.setRemoteDescription rollsBack d = .ok pc ∧
      x.conn.remoteDescription = none ∧ y.pending = d ::ₘ p ∧
      x' = ⟨pc, x.pending⟩ ∧ y' = ⟨y.conn, p⟩ := by
  obtain ⟨pc, p⟩ := x'
  obtain ⟨pc', p'⟩ := y'
  obtain ⟨⟨hremote, rollsBack, hset⟩, hother, hgives, htakes⟩ := h
  obtain rfl : pc' = y.conn := hother
  obtain rfl : p = x.pending := by simpa [Move.gives] using hgives
  have hpending : y.pending = d ::ₘ p' := by simpa [Move.takes] using htakes
  exact ⟨rollsBack, pc, p', hset, hremote, hpending, rfl, rfl⟩

theorem Moves.drop {d : SessionDescription} (h : Moves (.drop d) x y x' y') :
    ∃ p, y.pending = d ::ₘ p ∧ x' = x ∧ y' = ⟨y.conn, p⟩ ∧
      (x.conn.remoteDescription ≠ none ∨
        ∃ rollsBack e, x.conn.setRemoteDescription rollsBack d = .error e) := by
  obtain ⟨pc, p⟩ := x'
  obtain ⟨pc', p'⟩ := y'
  obtain ⟨⟨hconn, hwhy⟩, hother, hgives, htakes⟩ := h
  obtain rfl : pc = x.conn := hconn
  obtain rfl : pc' = y.conn := hother
  obtain rfl : p = x.pending := by simpa [Move.gives] using hgives
  have hpending : y.pending = d ::ₘ p' := by simpa [Move.takes] using htakes
  exact ⟨p', hpending, rfl, rfl, hwhy⟩

/-- A side with nothing to deal with makes a quiet move, offers or answers. -/
theorem Moves.of_nothing_pending (h : Moves m x y x' y') (hy : y.pending = 0) :
    y' = y ∧ (m = .quiet ∧ x' = x ∨
      (∃ d, m = .offer d ∧ d.sdpType = .offer ∧ x.conn.signalingState = .stable ∧
        x' = ⟨⟨.haveLocalOffer d, x.conn.current⟩, d ::ₘ x.pending⟩) ∨
      ∃ a remote, m = .answer a ∧ a.sdpType = .answer ∧
        x.conn.signalingState = .haveRemoteOffer remote ∧
        x' = ⟨⟨.stable, some ⟨a, remote⟩⟩, a ::ₘ x.pending⟩) := by
  cases m with
  | quiet => exact ⟨h.quiet.2, Or.inl ⟨rfl, h.quiet.1⟩⟩
  | offer d =>
      obtain ⟨hd, hstate, hx', hy'⟩ := h.offer
      exact ⟨hy', Or.inr (Or.inl ⟨d, rfl, hd, hstate, hx'⟩)⟩
  | answer a =>
      obtain ⟨ha, remote, hstate, hx', hy'⟩ := h.answer
      exact ⟨hy', Or.inr (Or.inr ⟨a, remote, rfl, ha, hstate, hx'⟩)⟩
  | apply =>
      obtain ⟨-, -, p, -, -, hpending, -⟩ := h.apply
      rw [hy] at hpending
      exact absurd hpending Multiset.zero_ne_cons
  | drop =>
      obtain ⟨p, hpending, -⟩ := h.drop
      rw [hy] at hpending
      exact absurd hpending Multiset.zero_ne_cons

/-- What a side does while its first offer stands: an offer of the other side rolls its
own back or is dropped, an answer is applied. -/
theorem Moves.of_haveLocalOffer {own : SessionDescription} {s : Multiset SessionDescription}
    (h : Moves m ⟨⟨.haveLocalOffer own, none⟩, s⟩ y x' y')
    (hy : ∀ d ∈ y.pending, d.sdpType = .offer ∨ d.sdpType = .answer) :
    (m = .quiet ∧ x' = ⟨⟨.haveLocalOffer own, none⟩, s⟩ ∧ y' = y) ∨
    ∃ d p, y.pending = d ::ₘ p ∧ y' = ⟨y.conn, p⟩ ∧
      (m = .apply d ∧ d.sdpType = .offer ∧ x' = ⟨⟨.haveRemoteOffer d, none⟩, s⟩ ∨
        m = .apply d ∧ d.sdpType = .answer ∧ x' = ⟨⟨.stable, some ⟨own, d⟩⟩, s⟩ ∨
        m = .drop d ∧ d.sdpType = .offer ∧ x' = ⟨⟨.haveLocalOffer own, none⟩, s⟩) := by
  cases m with
  | quiet => exact Or.inl ⟨rfl, h.quiet⟩
  | offer => exact absurd h.offer.2.1 (by simp)
  | answer =>
      obtain ⟨-, remote, hstate, -⟩ := h.answer
      cases hstate
  | apply d =>
      obtain ⟨rollsBack, pc, p, hset, -, hpending, rfl, rfl⟩ := h.apply
      have hd := hy d (by rw [hpending]; exact Multiset.mem_cons_self d p)
      refine Or.inr ⟨d, p, hpending, rfl, ?_⟩
      rcases hd with hd | hd
      · refine Or.inl ⟨rfl, hd, ?_⟩
        simp only [PeerConnection.setRemoteDescription, hd] at hset
        split at hset <;> cases hset
        rfl
      · refine Or.inr (Or.inl ⟨rfl, hd, ?_⟩)
        rw [PeerConnection.setRemoteDescription_answer rfl hd] at hset
        cases hset
        rfl
  | drop d =>
      obtain ⟨p, hpending, rfl, rfl, hwhy⟩ := h.drop
      have hd := hy d (by rw [hpending]; exact Multiset.mem_cons_self d p)
      refine Or.inr ⟨d, p, hpending, rfl, Or.inr (Or.inr ⟨rfl, ?_, rfl⟩)⟩
      rcases hd with hd | hd
      · exact hd
      · rcases hwhy with hremote | ⟨rollsBack, e, hset⟩
        · exact absurd rfl hremote
        · rw [PeerConnection.setRemoteDescription_answer rfl hd] at hset
          cases hset

/-! ## Pairs that never agree -/

theorem Doomed.of_moves (hdoomed : Doomed x y) (hmoves : Moves m x y x' y') :
    Doomed x' y' := by
  have hother : ∀ {z : Side}, z.conn = y.conn → (Reoffered y → Reoffered z) ∧
      (Answerer y → Answerer z) := by
    intro z hz
    unfold Reoffered Answerer
    rw [hz]
    exact ⟨id, id⟩
  cases hdoomed with
  | reoffered hx => exact .reoffered (hx.of_performs hmoves.performs)
  | otherReoffered hy => exact .otherReoffered ((hother hmoves.other).1 hy)
  | answerers hx hy =>
      rcases hx.of_performs hmoves.performs with hx' | hx'
      · exact .answerers hx' ((hother hmoves.other).2 hy)
      · exact .reoffered hx'
  | refused =>
      rcases hmoves.of_haveLocalOffer (by simp) with ⟨-, rfl, rfl⟩ | ⟨d, p, hpending, -⟩
      · exact .refused
      · exact absurd hpending Multiset.zero_ne_cons

theorem Doomed.not_agree (hdoomed : Doomed x y) : ¬ Agree x.conn y.conn := by
  rintro ⟨hx, hy, hremote, -⟩
  cases hdoomed with
  | reoffered hre =>
      obtain ⟨d, current, hconn⟩ := hre
      simp [hconn] at hx
  | otherReoffered hre =>
      obtain ⟨d, current, hconn⟩ := hre
      simp [hconn] at hy
  | refused => cases hx
  | answerers hax hay =>
      rcases hax with ⟨d, -, hconn⟩ | ⟨a, d, ha, hd, hconn⟩
      · simp [hconn] at hx
      rcases hay with ⟨d', -, hconn'⟩ | ⟨a', d', ha', hd', hconn'⟩
      · simp [hconn'] at hy
      -- an applied offer is not the answer the other side has set
      have heq : d = a' := by
        simpa [hconn, hconn', PeerConnection.remoteDescription,
          PeerConnection.localDescription] using hremote
      rw [heq, ha'] at hd
      cases hd

/-! ## The stages of a negotiation -/

/-- How a move decides the negotiation: it goes on, or can no longer agree. -/
def Decided (m : Move) (x y x' y' : Side) : Prop :=
  (m.Ok x y → Negotiating x' y') ∧ (¬ m.Ok x y → Doomed x' y')

theorem decided_of_ok (hok : m.Ok x y) (h : Negotiating x' y') : Decided m x y x' y' :=
  ⟨fun _ => h, fun hnot => absurd hok hnot⟩

theorem decided_of_not_ok (hnot : ¬ m.Ok x y) (h : Doomed x' y') : Decided m x y x' y' :=
  ⟨fun hok => absurd hok hnot, fun _ => h⟩

theorem decided_fresh (hmoves : Moves m ⟨.newDefault, 0⟩ ⟨.newDefault, 0⟩ x' y') :
    Decided m ⟨.newDefault, 0⟩ ⟨.newDefault, 0⟩ x' y' := by
  obtain ⟨rfl, ⟨rfl, rfl⟩ | ⟨d, rfl, hd, -, rfl⟩ | ⟨a, remote, -, -, hstate, -⟩⟩ :=
    hmoves.of_nothing_pending rfl
  · exact decided_of_ok trivial (Or.inl .fresh)
  · exact decided_of_ok rfl (Or.inl (.offered hd))
  · cases hstate

section

variable {d d' a : SessionDescription} {s s' : Multiset SessionDescription}

/-- The offerer waits. -/
theorem decided_offered (hd : d.sdpType = .offer)
    (hmoves : Moves m ⟨⟨.haveLocalOffer d, none⟩, {d}⟩ ⟨.newDefault, 0⟩ x' y') :
    Decided m ⟨⟨.haveLocalOffer d, none⟩, {d}⟩ ⟨.newDefault, 0⟩ x' y' := by
  rcases hmoves.of_haveLocalOffer (by simp) with ⟨rfl, rfl, rfl⟩ | ⟨e, p, hpending, -⟩
  · exact decided_of_ok trivial (Or.inl (.offered hd))
  · exact absurd hpending Multiset.zero_ne_cons

/-- The other side applies the offer, or makes one of its own. -/
theorem decided_offered_other (hd : d.sdpType = .offer)
    (hmoves : Moves m ⟨.newDefault, 0⟩ ⟨⟨.haveLocalOffer d, none⟩, {d}⟩ x' y') :
    Decided m ⟨.newDefault, 0⟩ ⟨⟨.haveLocalOffer d, none⟩, {d}⟩ x' y' := by
  cases m with
  | quiet =>
      obtain ⟨rfl, rfl⟩ := hmoves.quiet
      exact decided_of_ok trivial (Or.inr (.offered hd))
  | offer d' =>
      obtain ⟨hd', -, rfl, rfl⟩ := hmoves.offer
      have hne : ({d} : Multiset SessionDescription) ≠ 0 := Multiset.singleton_ne_zero d
      exact decided_of_ok rfl
        (Or.inr (.glare hd hd' (Or.inl rfl) (Or.inl rfl) (Or.inl hne)))
  | apply e =>
      obtain ⟨rollsBack, pc, p, hset, -, hpending, rfl, rfl⟩ := hmoves.apply
      obtain ⟨rfl, rfl⟩ := (Multiset.singleton_eq_cons_iff p).mp hpending
      simp only [PeerConnection.setRemoteDescription, PeerConnection.newDefault, hd] at hset
      cases hset
      exact decided_of_ok (by simp [Move.Ok, PeerConnection.newDefault])
        (Or.inr (.answering hd (by simp)))
  | drop e =>
      obtain ⟨p, hpending, rfl, rfl, hwhy⟩ := hmoves.drop
      obtain ⟨rfl, rfl⟩ := (Multiset.singleton_eq_cons_iff p).mp hpending
      simp [PeerConnection.setRemoteDescription, PeerConnection.newDefault,
        PeerConnection.remoteDescription, hd] at hwhy
  | answer a =>
      obtain ⟨-, remote, hstate, -⟩ := hmoves.answer
      cases hstate

theorem eq_of_mem_pending {e : SessionDescription} {p : Multiset SessionDescription}
    (hs : s = {d} ∨ s = 0) (hpending : s = e ::ₘ p) : e = d ∧ p = 0 := by
  rcases hs with rfl | rfl
  · obtain ⟨rfl, rfl⟩ := (Multiset.singleton_eq_cons_iff p).mp hpending
    exact ⟨rfl, rfl⟩
  · exact absurd hpending Multiset.zero_ne_cons

theorem offers_of_pending (hd : d.sdpType = .offer) (hs : s = {d} ∨ s = 0) :
    ∀ e ∈ s, e.sdpType = .offer := by
  rcases hs with rfl | rfl
  · simpa using hd
  · simp

/-- Where two offers meet, the side that deals with the other's offer gives way, or
refuses it while its own is still pending. -/
theorem decided_glare (hd : d.sdpType = .offer) (hd' : d'.sdpType = .offer)
    (hs : s = {d} ∨ s = 0) (hs' : s' = {d'} ∨ s' = 0) (hne : s ≠ 0 ∨ s' ≠ 0)
    (hmoves : Moves m ⟨⟨.haveLocalOffer d, none⟩, s⟩ ⟨⟨.haveLocalOffer d', none⟩, s'⟩ x' y') :
    Decided m ⟨⟨.haveLocalOffer d, none⟩, s⟩ ⟨⟨.haveLocalOffer d', none⟩, s'⟩ x' y' := by
  have hoffers := offers_of_pending hd' hs'
  rcases hmoves.of_haveLocalOffer (fun e he => Or.inl (hoffers e he)) with
    ⟨rfl, rfl, rfl⟩ | ⟨e, p, hpending, rfl, hcases⟩
  · exact decided_of_ok trivial (Or.inl (.glare hd hd' hs hs' hne))
  obtain ⟨rfl, rfl⟩ := eq_of_mem_pending hs' hpending
  rcases hcases with ⟨rfl, -, rfl⟩ | ⟨-, htype, -⟩ | ⟨rfl, -, rfl⟩
  · have hok : (Move.apply e).Ok ⟨⟨.haveLocalOffer d, none⟩, s⟩
        ⟨⟨.haveLocalOffer e, none⟩, s'⟩ := fun _ _ _ => rfl
    exact decided_of_ok hok (Or.inr (.answering hd' (offers_of_pending hd hs)))
  · rw [hd'] at htype
    cases htype
  · rcases hs with rfl | rfl
    · have hok : (Move.drop e).Ok ⟨⟨.haveLocalOffer d, none⟩, {d}⟩
          ⟨⟨.haveLocalOffer e, none⟩, s'⟩ := by
        intro own hown _
        cases hown
        exact Or.inr (Multiset.mem_singleton_self d)
      exact decided_of_ok hok (Or.inl (.glare hd hd' (Or.inl rfl) (Or.inr rfl)
        (Or.inl (Multiset.singleton_ne_zero d))))
    · refine decided_of_not_ok (fun hok => ?_) .refused
      rcases hok d rfl hd' with hremote | hmem
      · cases hremote
      · exact absurd hmem (Multiset.notMem_zero d)

/-- While its offer is being answered, a side must refuse other offers. -/
theorem decided_answering (hd : d.sdpType = .offer) (hs : ∀ e ∈ s, e.sdpType = .offer)
    (hmoves : Moves m ⟨⟨.haveLocalOffer d, none⟩, 0⟩ ⟨⟨.haveRemoteOffer d, none⟩, s⟩ x' y') :
    Decided m ⟨⟨.haveLocalOffer d, none⟩, 0⟩ ⟨⟨.haveRemoteOffer d, none⟩, s⟩ x' y' := by
  rcases hmoves.of_haveLocalOffer (fun e he => Or.inl (hs e he)) with
    ⟨rfl, rfl, rfl⟩ | ⟨e, p, hpending, rfl, hcases⟩
  · exact decided_of_ok trivial (Or.inl (.answering hd hs))
  obtain rfl : s = e ::ₘ p := hpending
  have he : e.sdpType = .offer := hs e (Multiset.mem_cons_self e p)
  rcases hcases with ⟨rfl, -, rfl⟩ | ⟨-, htype, -⟩ | ⟨rfl, -, rfl⟩
  · refine decided_of_not_ok (fun hok => ?_)
      (.answerers (Or.inl ⟨e, he, rfl⟩) (Or.inl ⟨d, hd, rfl⟩))
    exact absurd (hok d rfl he) (by simp [PeerConnection.localDescription])
  · rw [he] at htype
    cases htype
  · have hok : (Move.drop e).Ok ⟨⟨.haveLocalOffer d, none⟩, 0⟩
        ⟨⟨.haveRemoteOffer d, none⟩, e ::ₘ p⟩ := by
      intro own hown _
      cases hown
      exact Or.inl rfl
    exact decided_of_ok hok
      (Or.inl (.answering hd fun e' he' => hs e' (Multiset.mem_cons_of_mem he')))

theorem decided_answering_other (hd : d.sdpType = .offer)
    (hs : ∀ e ∈ s, e.sdpType = .offer)
    (hmoves : Moves m ⟨⟨.haveRemoteOffer d, none⟩, s⟩ ⟨⟨.haveLocalOffer d, none⟩, 0⟩ x' y') :
    Decided m ⟨⟨.haveRemoteOffer d, none⟩, s⟩ ⟨⟨.haveLocalOffer d, none⟩, 0⟩ x' y' := by
  obtain ⟨rfl, ⟨rfl, rfl⟩ | ⟨e, -, -, hstate, -⟩ | ⟨a, remote, rfl, ha, hstate, rfl⟩⟩ :=
    hmoves.of_nothing_pending rfl
  · exact decided_of_ok trivial (Or.inr (.answering hd hs))
  · cases hstate
  · cases hstate
    exact decided_of_ok trivial (Or.inr (.answered hd ha hs))

theorem decided_answered (hd : d.sdpType = .offer) (ha : a.sdpType = .answer)
    (hs : ∀ e ∈ s, e.sdpType = .offer)
    (hmoves : Moves m ⟨⟨.haveLocalOffer d, none⟩, 0⟩ ⟨⟨.stable, some ⟨a, d⟩⟩, a ::ₘ s⟩ x' y') :
    Decided m ⟨⟨.haveLocalOffer d, none⟩, 0⟩ ⟨⟨.stable, some ⟨a, d⟩⟩, a ::ₘ s⟩ x' y' := by
  have htypes : ∀ e ∈ a ::ₘ s, e.sdpType = .offer ∨ e.sdpType = .answer := by
    intro e he
    rcases Multiset.mem_cons.mp he with rfl | he
    · exact Or.inr ha
    · exact Or.inl (hs e he)
  rcases hmoves.of_haveLocalOffer htypes with ⟨rfl, rfl, rfl⟩ | ⟨e, p, hpending, rfl, hcases⟩
  · exact decided_of_ok trivial (Or.inl (.answered hd ha hs))
  rcases Multiset.cons_eq_cons.mp hpending with ⟨rfl, rfl⟩ | ⟨-, t, rfl, rfl⟩
  · -- the answer itself
    rcases hcases with ⟨-, htype, -⟩ | ⟨rfl, -, rfl⟩ | ⟨-, htype, -⟩
    · rw [ha] at htype
      cases htype
    · have hok : (Move.apply a).Ok ⟨⟨.haveLocalOffer d, none⟩, 0⟩
          ⟨⟨.stable, some ⟨a, d⟩⟩, a ::ₘ s⟩ := by
        intro _ _ htype
        rw [ha] at htype
        cases htype
      exact decided_of_ok hok (Or.inl (.agreed hd ha hs))
    · rw [ha] at htype
      cases htype
  · -- an offer that the other side has rolled back
    have he : e.sdpType = .offer := hs e (Multiset.mem_cons_self e t)
    rcases hcases with ⟨rfl, -, rfl⟩ | ⟨-, htype, -⟩ | ⟨rfl, -, rfl⟩
    · refine decided_of_not_ok (fun hok => ?_)
        (.answerers (Or.inl ⟨e, he, rfl⟩) (Or.inr ⟨a, d, ha, hd, rfl⟩))
      have hlocal : some a = some e := hok d rfl he
      rw [Option.some.injEq] at hlocal
      rw [hlocal, he] at ha
      cases ha
    · rw [he] at htype
      cases htype
    · have hok : (Move.drop e).Ok ⟨⟨.haveLocalOffer d, none⟩, 0⟩
          ⟨⟨.stable, some ⟨a, d⟩⟩, a ::ₘ e ::ₘ t⟩ := by
        intro own hown _
        cases hown
        exact Or.inl rfl
      exact decided_of_ok hok
        (Or.inl (.answered hd ha fun e' he' => hs e' (Multiset.mem_cons_of_mem he')))

/-- A side that has a pair of descriptions drops what comes and must not offer again. -/
theorem decided_stable {pc : PeerConnection} {current : CurrentDescriptions}
    (hmoves : Moves m ⟨⟨.stable, some current⟩, s⟩ ⟨pc, s'⟩ x' y')
    (hkeep : ∀ p, p ≤ s' → Negotiating ⟨⟨.stable, some current⟩, s⟩ ⟨pc, p⟩) :
    Decided m ⟨⟨.stable, some current⟩, s⟩ ⟨pc, s'⟩ x' y' := by
  cases m with
  | quiet =>
      obtain ⟨rfl, rfl⟩ := hmoves.quiet
      exact decided_of_ok trivial (hkeep s' le_rfl)
  | offer e =>
      obtain ⟨-, -, rfl, rfl⟩ := hmoves.offer
      exact decided_of_not_ok (fun hok => by cases hok) (.reoffered ⟨e, current, rfl⟩)
  | apply e =>
      obtain ⟨-, -, -, -, hremote, -⟩ := hmoves.apply
      cases hremote
  | drop e =>
      obtain ⟨p, hpending, rfl, rfl, -⟩ := hmoves.drop
      obtain rfl : s' = e ::ₘ p := hpending
      have hok : (Move.drop e).Ok ⟨⟨.stable, some current⟩, s⟩ ⟨pc, e ::ₘ p⟩ := by
        intro own hown
        cases hown
      exact decided_of_ok hok (hkeep p (Multiset.le_cons_self p e))
  | answer =>
      obtain ⟨-, remote, hstate, -⟩ := hmoves.answer
      cases hstate

end

/-- A move of the side named first decides the negotiation. -/
theorem decided_of_moves (hneg : Negotiating x y) (hmoves : Moves m x y x' y') :
    Decided m x y x' y' := by
  rcases hneg with hphase | hphase
  · cases hphase with
    | fresh => exact decided_fresh hmoves
    | offered hd => exact decided_offered hd hmoves
    | glare hd hd' hs hs' hne => exact decided_glare hd hd' hs hs' hne hmoves
    | answering hd hs => exact decided_answering hd hs hmoves
    | answered hd ha hs => exact decided_answered hd ha hs hmoves
    | agreed hd ha hs =>
        exact decided_stable hmoves fun p hp =>
          Or.inl (.agreed hd ha fun e he => hs e (Multiset.mem_of_le hp he))
  · cases hphase with
    | fresh => exact decided_fresh hmoves
    | offered hd => exact decided_offered_other hd hmoves
    | glare hd hd' hs hs' hne => exact decided_glare hd' hd hs' hs hne.symm hmoves
    | answering hd hs => exact decided_answering_other hd hs hmoves
    | answered hd ha hs =>
        refine decided_stable hmoves fun p hp => ?_
        obtain rfl : p = 0 := Multiset.le_zero.mp hp
        exact Or.inr (.answered hd ha hs)
    | agreed hd ha hs =>
        refine decided_stable hmoves fun p hp => ?_
        obtain rfl : p = 0 := Multiset.le_zero.mp hp
        exact Or.inr (.agreed hd ha hs)

/-- With nothing pending and no offer waiting for its answer, a negotiation has not begun
or is complete. -/
theorem Negotiating.agree (hneg : Negotiating x y) (hx : x.pending = 0) (hy : y.pending = 0)
    (hx' : ∀ d, x.conn.signalingState ≠ .haveRemoteOffer d)
    (hy' : ∀ d, y.conn.signalingState ≠ .haveRemoteOffer d) : Agree x.conn y.conn := by
  have hphase : ∀ {x y : Side}, Phase x y → x.pending = 0 → y.pending = 0 →
      (∀ d, y.conn.signalingState ≠ .haveRemoteOffer d) → Agree x.conn y.conn := by
    intro x y hphase hx hy hy'
    cases hphase with
    | fresh => exact ⟨rfl, rfl, rfl, rfl⟩
    | offered => exact absurd hx (Multiset.singleton_ne_zero _)
    | glare _ _ _ _ hne =>
        rcases hne with hne | hne
        · exact absurd hx hne
        · exact absurd hy hne
    | @answering d => exact absurd rfl (hy' d)
    | answered => exact absurd hy (Multiset.cons_ne_zero)
    | agreed => exact ⟨rfl, rfl, rfl, rfl⟩
  rcases hneg with h | h
  · exact hphase h hx hy hy'
  · exact (hphase h hy hx hx').symm

end SfRs.Wasm
