import SfRs.Wasm.Network
/-!
# When two clients agree

`handle_offer` sets a remote description only on a connection that has none, and
answers an offer whether or not it has set it.  So a pair of clients negotiates once: a
second offer on an agreed connection is never applied, and where two offers meet it is
left to the browsers whether exactly one gives way.

Two clients agree whenever nothing is going on between them, as long as their steps are
`OkStep`; after the first that is not, they never agree again.
-/

set_option linter.unusedSectionVars false

namespace SfRs.Wasm

open SfRs.Lib SfRs.Protocol

variable {PeerID : Type} [DecidableEq PeerID]

namespace Network

variable {a b p : PeerID} {s s' s₀ : Network PeerID} {l : NetworkAction PeerID}
  {es : List (PeerID × Event PeerID)}

/-- The clients are sound, and every message names its sender. -/
structure Sane (s : Network PeerID) : Prop where
  sound : ∀ p, (s.clients p).Sound
  addressed : s.Addressed

theorem sane_init : (init : Network PeerID).Sane :=
  ⟨fun _ => Client.sound_new, fun _ _ _ hmem => absurd hmem List.not_mem_nil⟩

theorem Sane.of_acts {act : Action PeerID} {c' : Client PeerID} {es : List (Event PeerID)}
    (hsane : s.Sane) (hacts : s.Acts l p act s₀)
    (hstep : (s.clients p).step p act = some (c', es)) : (s₀.perform p c' es).Sane := by
  refine ⟨fun r => ?_, hsane.addressed.of_acts hacts hstep⟩
  by_cases hr : r = p
  · subst hr
    have hself : (s₀.perform r c' es).clients r = c' := by simp [perform]
    rw [hself]
    exact (hsane.sound r).of_step hstep
  · have hother : (s₀.perform p c' es).clients r = s.clients r := by
      simp [perform, hr, hacts.clients]
    rw [hother]
    exact hsane.sound r

/-! ## Which steps are `Ok` -/

theorem okStep_iff {act : Action PeerID} (hab : a ≠ b) (hacts : s.Acts l a act s₀) :
    OkStep a b s l ↔ ((s.clients a).move b act).Ok (s.side a b) (s.side b a) := by
  cases hacts with
  | client => simp [OkStep, hab]
  | deliver => exact ⟨fun _ => (s.clients a).ok_receive b _ _ rfl, fun _ => trivial⟩

theorem okStep_comm : OkStep a b s l ↔ OkStep b a s l := by
  cases l with
  | client => exact and_comm
  | deliver => exact Iff.rfl

theorem okStep_of_ne {act : Action PeerID} (ha : a ≠ p) (hb : b ≠ p)
    (hacts : s.Acts l p act s₀) : OkStep a b s l := by
  cases hacts with
  | client => exact ⟨fun h => absurd h.symm ha, fun h => absurd h.symm hb⟩
  | deliver => trivial

/-! ## Steps and runs -/

/-- A step decides the negotiation of any two clients. -/
theorem decided_of_step (hab : a ≠ b) (hsane : s.Sane)
    (hneg : Negotiating (s.side a b) (s.side b a)) (h : s.step l = some (s', es)) :
    (OkStep a b s l → Negotiating (s'.side a b) (s'.side b a)) ∧
      (¬ OkStep a b s l → Doomed (s'.side a b) (s'.side b a)) := by
  obtain ⟨p, act, s₀, c', es', hacts, hstep, rfl⟩ := acts_of_step h
  by_cases ha : a = p
  · subst ha
    rw [okStep_iff hab hacts]
    exact decided_of_moves hneg
      (moves_of_acts hab (hsane.sound a) hsane.addressed hacts hstep)
  by_cases hb : b = p
  · subst hb
    rw [okStep_comm, okStep_iff (Ne.symm hab) hacts]
    obtain ⟨hkeep, hbreak⟩ := decided_of_moves hneg.symm
      (moves_of_acts (Ne.symm hab) (hsane.sound b) hsane.addressed hacts hstep)
    exact ⟨fun hok => (hkeep hok).symm, fun hnot => (hbreak hnot).symm⟩
  · rw [side_of_acts ha hb hacts, side_of_acts hb ha hacts]
    exact ⟨fun _ => hneg, fun hnot => absurd (okStep_of_ne ha hb hacts) hnot⟩

theorem doomed_of_step (hab : a ≠ b) (hsane : s.Sane)
    (hdoomed : Doomed (s.side a b) (s.side b a)) (h : s.step l = some (s', es)) :
    Doomed (s'.side a b) (s'.side b a) := by
  obtain ⟨p, act, s₀, c', es', hacts, hstep, rfl⟩ := acts_of_step h
  by_cases ha : a = p
  · subst ha
    exact hdoomed.of_moves
      (moves_of_acts hab (hsane.sound a) hsane.addressed hacts hstep)
  by_cases hb : b = p
  · subst hb
    have hmoves := moves_of_acts (Ne.symm hab) (hsane.sound b) hsane.addressed hacts hstep
    exact (hdoomed.symm.of_moves hmoves).symm
  · rwa [side_of_acts ha hb hacts, side_of_acts hb ha hacts]

theorem sane_of_step (hsane : s.Sane) (h : s.step l = some (s', es)) : s'.Sane := by
  obtain ⟨p, act, s₀, c', es', hacts, hstep, rfl⟩ := acts_of_step h
  exact hsane.of_acts hacts hstep

/-- The end of a run tells whether all its steps were `Ok`. -/
theorem run_decides {ls : List (NetworkAction PeerID)} {tr : List (PeerID × Event PeerID)}
    (hab : a ≠ b) (h : (network PeerID).Run ls s tr) :
    (network PeerID).StepsMeet (OkStep a b) ls ∧
        (s.Sane ∧ Negotiating (s.side a b) (s.side b a)) ∨
      ¬ (network PeerID).StepsMeet (OkStep a b) ls ∧
        (s.Sane ∧ Doomed (s.side a b) (s.side b a)) := by
  refine @Machine.Run.decides _ _ _ (network PeerID) (OkStep a b)
    (fun s _ => s.Sane ∧ Negotiating (s.side a b) (s.side b a))
    (fun s _ => s.Sane ∧ Doomed (s.side a b) (s.side b a)) ?_ ?_ ?_ ls s tr h
  · exact ⟨sane_init, Or.inl .fresh⟩
  · intro s tr l s' es hinv hl
    have hsane := sane_of_step hinv.1 hl
    obtain ⟨hkeep, hbreak⟩ := decided_of_step hab hinv.1 hinv.2 hl
    exact ⟨fun hok => ⟨hsane, hkeep hok⟩, fun hnot => ⟨hsane, hbreak hnot⟩⟩
  · intro s tr l s' es hdoom hl
    exact ⟨sane_of_step hdoom.1 hl, doomed_of_step hab hdoom.1 hdoom.2 hl⟩

theorem Quiet.symm (h : s.Quiet a b) : s.Quiet b a :=
  ⟨h.2.1, h.1, h.2.2.2.1, h.2.2.1, h.2.2.2.2.2, h.2.2.2.2.1⟩

theorem Quiet.pending (h : s.Quiet a b) : s.pending a b = 0 := by
  obtain ⟨hwire, -, hoffers, -, ha, hb⟩ := h
  have hunsent : ((s.clients a).handling b).bind Handling.unsent = none := by
    rcases ha with ha | ha <;> rw [ha] <;> rfl
  have hunapplied : ((s.clients b).handling a).bind Handling.unapplied = none := by
    rcases hb with hb | hb <;> rw [hb] <;> rfl
  simp [Network.pending, Client.unsent, Client.unapplied, carried, hwire, hoffers, hunsent,
    hunapplied]

/-- A client that handles no offer of `b` has no connection waiting to answer it. -/
theorem Quiet.not_haveRemoteOffer (h : s.Quiet a b) (hsane : s.Sane)
    (d : SessionDescription) : ((s.clients a).conn b).signalingState ≠ .haveRemoteOffer d := by
  obtain ⟨-, -, -, -, ha, -⟩ := h
  refine (hsane.sound a).not_haveRemoteOffer (fun hreader => ?_) (fun e hreader => ?_) d
  all_goals
    have hhandling := Client.handling_of_reader (q := b) hreader
    rw [if_pos rfl] at hhandling
    rcases ha with ha | ha <;> rw [ha] at hhandling <;> cases hhandling

theorem agree_of_negotiating (hquiet : s.Quiet a b) (hsane : s.Sane)
    (hneg : Negotiating (s.side a b) (s.side b a)) :
    Agree ((s.clients a).conn b) ((s.clients b).conn a) :=
  hneg.agree hquiet.pending hquiet.symm.pending (hquiet.not_haveRemoteOffer hsane)
    (hquiet.symm.not_haveRemoteOffer hsane)

end Network

open Network

/-- Along a run whose steps are all `Ok` for `a` and `b` they agree whenever they are
quiet; and where any run leaves them quiet, they agree exactly if all its steps were. -/
theorem agrees_iff_okSteps {a b : PeerID} (hab : a ≠ b) (ls : List (NetworkAction PeerID)) :
    ((network PeerID).StepsMeet (OkStep a b) ls →
      (network PeerID).Always (fun s _ => AgreesWhenQuiet a b s) ls) ∧
    ∀ s tr, (network PeerID).Run ls s tr → s.Quiet a b → s.Paired a b →
      (Agree ((s.clients a).conn b) ((s.clients b).conn a) ↔
        (network PeerID).StepsMeet (OkStep a b) ls) := by
  constructor
  · intro hmeets pre hpre s tr hrun hquiet _
    rcases run_decides hab hrun with ⟨-, hsane, hneg⟩ | ⟨hmisses, -⟩
    · exact agree_of_negotiating hquiet hsane hneg
    · exact absurd (hmeets.of_prefix hpre) hmisses
  · intro s tr hrun hquiet _
    rcases run_decides hab hrun with ⟨hmeets, hsane, hneg⟩ | ⟨hmisses, -, hdoomed⟩
    · exact ⟨fun _ => hmeets, fun _ => agree_of_negotiating hquiet hsane hneg⟩
    · exact ⟨fun hagree => absurd hagree hdoomed.not_agree, fun h => absurd h hmisses⟩

/-! ## Two clients -/

/-- `p` connects to `q`: it creates, sets and sends an offer. -/
def offering (p q : Bool) (sdp : String) : List (NetworkAction Bool) :=
  [.client p (.connectToPeer q), .client p (.makeOffer q 0 ⟨sdp, false, true⟩),
    .client p (.makeOffer q 0 ⟨sdp, false, true⟩), .client p (.makeOffer q 0 ⟨sdp, false, true⟩)]

/-- `p` applies the next description of `q`, and answers it. -/
def answeringTo (p q rollsBack : Bool) (sdp : String) : List (NetworkAction Bool) :=
  .deliver q p :: List.replicate 4 (.client p (.handle ⟨sdp, rollsBack, true⟩))

/-- Both clients offer; one rolls its offer back, the other refuses. -/
def glareRun : List (NetworkAction Bool) :=
  [.client false .connect, .client true .connect] ++
    offering false true "offer 0" ++ offering true false "offer 1" ++
    answeringTo true false true "answer" ++
    [.deliver true false, .client false (.handle ⟨"", false, true⟩),
      .deliver true false, .client false (.handle ⟨"", false, true⟩)]

theorem agrees_iff_okSteps_glareRun :
    ∃ s tr, (network Bool).Run glareRun s tr ∧
      Agree ((s.clients false).conn true) ((s.clients true).conn false) ∧
      (network Bool).StepsMeet (OkStep false true) glareRun := by
  have hexec : ((network Bool).exec glareRun).any (fun r => decide
      (r.1.Quiet false true ∧ r.1.Paired false true ∧
        Agree ((r.1.clients false).conn true) ((r.1.clients true).conn false))) = true := by
    decide
  obtain ⟨⟨s, tr⟩, hrun, hend⟩ := (Option.any_eq_true _ _).mp hexec
  have hrun := Machine.run_of_exec hrun
  obtain ⟨hquiet, hpaired, hagree⟩ := of_decide_eq_true hend
  have hiff := (agrees_iff_okSteps Bool.false_ne_true glareRun).2 s tr hrun hquiet hpaired
  exact ⟨s, tr, hrun, hagree, hiff.mp hagree⟩

/-- A client connects again to a peer it has agreed with: the other side answers an offer
it has not applied, and fails. -/
def reofferRun : List (NetworkAction Bool) :=
  [.client false .connect, .client true .connect] ++
    offering false true "offer 0" ++ answeringTo true false true "answer" ++
    [.deliver true false, .client false (.handle ⟨"", false, true⟩)] ++
    offering false true "offer 1" ++
    [.deliver false true, .client true (.handle ⟨"answer 1", false, true⟩)]

theorem not_always_agreesWhenQuiet_reoffer :
    ¬ ∀ ls, (network Bool).Always (fun s _ => AgreesWhenQuiet false true s) ls := by
  intro halways
  have hexec : ((network Bool).exec reofferRun).any (fun r => decide
      (r.1.Quiet false true ∧ r.1.Paired false true ∧
        ¬ Agree ((r.1.clients false).conn true) ((r.1.clients true).conn false))) = true := by
    decide
  obtain ⟨⟨s, tr⟩, hrun, hend⟩ := (Option.any_eq_true _ _).mp hexec
  obtain ⟨hquiet, hpaired, hdisagree⟩ := of_decide_eq_true hend
  exact hdisagree (halways reofferRun reofferRun List.prefix_rfl s tr
    (Machine.run_of_exec hrun) hquiet hpaired)

end SfRs.Wasm
