import Mathlib.Algebra.Order.Group.Multiset
import SfRs.Lib.Ledger
import SfRs.Wasm.Client
import SfRs.Wasm.Negotiation
/-!
# A client's steps as moves of a negotiation

Seen from one peer, a step of the client is one `Move`: it sets an offer or an answer,
applies or drops a received description, or leaves the negotiation alone.  Descriptions
are counted from the step that sets them: in the `make_offer` or the handler that has yet
to send them, and in the handler that has yet to apply them.
-/

set_option linter.unusedSectionVars false

namespace SfRs.Wasm

open SfRs.Lib SfRs.Protocol

variable {PeerID : Type} [DecidableEq PeerID]

namespace Client

/-- What the reader loop is handling for a peer. -/
def handling (c : Client PeerID) (peerId : PeerID) : Option Handling :=
  match c.reader with
  | some (q, handling) => if q = peerId then some handling else none
  | none => none

/-- The descriptions set for a peer and not yet sent to it. -/
def unsent (c : Client PeerID) (peerId : PeerID) : Multiset SessionDescription :=
  ((c.offers peerId).filterMap MakeOffer.unsent : Multiset SessionDescription) +
    (((c.handling peerId).bind Handling.unsent).toList : Multiset SessionDescription)

/-- The descriptions received from a peer and not yet applied. -/
def unapplied (c : Client PeerID) (peerId : PeerID) : Multiset SessionDescription :=
  (((c.handling peerId).bind Handling.unapplied).toList : Multiset SessionDescription)

/-- The move an action makes in the negotiation with `peerId`. -/
def move (c : Client PeerID) (peerId : PeerID) : Action PeerID → Move
  | .makeOffer q task _ =>
      if q = peerId then
        match (c.offers q)[task]? with
        | some (.setLocalDescription d) =>
            if (c.conn q).signalingState = .stable then .offer d else .quiet
        | _ => .quiet
      else .quiet
  | .receive (.forward q _ (.webRtcOffer _ d)) =>
      if q = peerId ∧ (c.conn q).remoteDescription ≠ none then .drop d else .quiet
  | .handle settled =>
      match c.handling peerId with
      | some (.setRemoteDescription d) =>
          match (c.conn peerId).setRemoteDescription settled.rollsBack d with
          | .ok _ => .apply d
          | .error _ => .drop d
      | some (.setLocalDescription a) =>
          match (c.conn peerId).setLocalDescription a with
          | .ok _ => .answer a
          | .error _ => .quiet
      | _ => .quiet
  | _ => .quiet

/-- What the tasks of a client hold at any time. -/
structure Sound (c : Client PeerID) : Prop where
  offer : ∀ q d, .setLocalDescription d ∈ c.offers q → d.sdpType = .offer
  answer : ∀ q a, c.reader = some (q, .setLocalDescription a) → a.sdpType = .answer
  unset : ∀ q d, c.reader = some (q, .setRemoteDescription d) →
    (c.conn q).remoteDescription = none
  answering : ∀ q d, (c.conn q).signalingState = .haveRemoteOffer d →
    c.reader = some (q, .createAnswer) ∨ ∃ a, c.reader = some (q, .setLocalDescription a)

variable {host q : PeerID} {c c' : Client PeerID} {es : List (Event PeerID)}

theorem sound_new : (Client.new : Client PeerID).Sound := by
  refine ⟨fun q d hmem => absurd hmem List.not_mem_nil, fun q a h => ?_, fun q d h => ?_,
    fun q d h => ?_⟩
  all_goals cases h

/-! ## What the tasks hold -/

theorem Sound.not_haveRemoteOffer (hsound : c.Sound) (hanswer : c.reader ≠ some (q, .createAnswer))
    (hset : ∀ a, c.reader ≠ some (q, .setLocalDescription a)) (d : SessionDescription) :
    (c.conn q).signalingState ≠ .haveRemoteOffer d := by
  intro hstate
  rcases hsound.answering q d hstate with hreader | ⟨a, hreader⟩
  · exact hanswer hreader
  · exact hset a hreader

theorem Sound.of_same (hsound : c.Sound) (hsame : c.Same c') : c'.Sound := by
  refine ⟨?_, ?_, ?_, ?_⟩
  · rw [hsame.offers]
    exact hsound.offer
  · rw [hsame.reader]
    exact hsound.answer
  · rw [hsame.reader, hsame.conn]
    exact hsound.unset
  · rw [hsame.reader, hsame.conn]
    exact hsound.answering

/-- The offers of a peer may change as long as they stay offers. -/
theorem Sound.setOffers (hsound : c.Sound) {tasks : List MakeOffer}
    (htasks : ∀ d, .setLocalDescription d ∈ tasks → d.sdpType = .offer) :
    (c.setOffers q tasks).Sound := by
  refine ⟨fun r d hmem => ?_, hsound.answer, hsound.unset, hsound.answering⟩
  rw [offers_setOffers] at hmem
  by_cases hr : r = q
  · subst hr
    rw [Function.update_self] at hmem
    exact htasks d hmem
  · rw [Function.update_of_ne hr] at hmem
    exact hsound.offer r d hmem

theorem Sound.eraseOffer (hsound : c.Sound) (i : Nat) :
    (c.setOffers q ((c.offers q).eraseIdx i)).Sound :=
  hsound.setOffers fun d hmem => hsound.offer q d (List.mem_of_mem_eraseIdx hmem)

theorem Sound.replaceOffer (hsound : c.Sound) (i : Nat) {task : MakeOffer}
    (htask : ∀ d, task = .setLocalDescription d → d.sdpType = .offer) :
    (c.setOffers q ((c.offers q).set i task)).Sound := by
  refine hsound.setOffers fun d hmem => ?_
  rcases List.mem_or_eq_of_mem_set hmem with hmem | heq
  · exact hsound.offer q d hmem
  · exact htask d heq.symm

/-- A handler that no connection waits for may end, or start on another. -/
theorem Sound.setReader (hsound : c.Sound) {handling : Option (PeerID × Handling)}
    (hidle : ∀ r d, (c.conn r).signalingState ≠ .haveRemoteOffer d)
    (hanswer : ∀ r a, handling ≠ some (r, .setLocalDescription a))
    (hunset : ∀ r d, handling = some (r, .setRemoteDescription d) →
      (c.conn r).remoteDescription = none) : (c.setReader handling).Sound :=
  ⟨hsound.offer, fun r a h => absurd h (hanswer r a), hunset,
    fun r d h => absurd h (hidle r d)⟩

theorem Sound.setReader_none (hsound : c.Sound)
    (hidle : ∀ r d, (c.conn r).signalingState ≠ .haveRemoteOffer d) :
    (c.setReader none).Sound :=
  hsound.setReader hidle (by simp) (by simp)

/-- An offer is set on a connection that is stable, and leaves its remote description. -/
theorem setLocalDescription_offer {pc pc' : PeerConnection} {d : SessionDescription}
    (hd : d.sdpType = .offer) (h : pc.setLocalDescription d = .ok pc') :
    pc.signalingState = .stable ∧ pc' = { pc with signalingState := .haveLocalOffer d } := by
  rcases PeerConnection.setLocalDescription_ok h with ⟨hstate, -, hpc⟩ | ⟨remote, -, htype, -⟩
  · exact ⟨hstate, hpc⟩
  · rw [hd] at htype
    cases htype

theorem setLocalDescription_answer {pc pc' : PeerConnection} {a : SessionDescription}
    (ha : a.sdpType = .answer) (h : pc.setLocalDescription a = .ok pc') :
    ∃ remote, pc.signalingState = .haveRemoteOffer remote ∧
      pc' = ⟨.stable, some ⟨a, remote⟩⟩ := by
  rcases PeerConnection.setLocalDescription_ok h with ⟨-, htype, -⟩ | ⟨remote, hstate, -, hpc⟩
  · rw [ha] at htype
    cases htype
  · exact ⟨remote, hstate, hpc⟩

theorem Sound.offerSet (hsound : c.Sound) {i : Nat} {d : SessionDescription} {peer : Peer}
    {pc : PeerConnection} (hpeer : c.peers q = some peer)
    (htask : (c.offers q)[i]? = some (.setLocalDescription d))
    (hpc : peer.pc.setLocalDescription d = .ok pc) :
    ((c.setPeer q { peer with pc := pc }).setOffers q
      ((c.offers q).set i (.sendPeerRequest d))).Sound := by
  have hd := hsound.offer q d (List.mem_of_getElem? htask)
  obtain ⟨hstate, rfl⟩ := setLocalDescription_offer hd hpc
  have hset : (c.setPeer q { peer with
      pc := { peer.pc with signalingState := .haveLocalOffer d } }).Sound := by
    refine ⟨hsound.offer, hsound.answer, fun r e hreader => ?_, fun r e hr => ?_⟩
    · have hunset := hsound.unset r e hreader
      rw [conn_setPeer]
      by_cases hrq : r = q
      · subst hrq
        rw [conn_of_peers hpeer] at hunset
        rw [Function.update_self]
        simpa [PeerConnection.remoteDescription, hstate] using hunset
      · rwa [Function.update_of_ne hrq]
    · rw [conn_setPeer] at hr
      by_cases hrq : r = q
      · subst hrq
        rw [Function.update_self] at hr
        cases hr
      · rw [Function.update_of_ne hrq] at hr
        exact hsound.answering r e hr
  exact hset.replaceOffer i (by simp)

theorem Sound.remoteSet (hsound : c.Sound) {d : SessionDescription} {peer : Peer}
    {pc : PeerConnection} {rollsBack : Bool}
    (hreader : c.reader = some (q, .setRemoteDescription d))
    (hpc : peer.pc.setRemoteDescription rollsBack d = .ok pc) :
    ((c.setPeer q { peer with pc := pc }).answerOffer q d).Sound := by
  have hidle : ∀ r e, (c.conn r).signalingState ≠ .haveRemoteOffer e := fun r =>
    hsound.not_haveRemoteOffer (by simp [hreader]) (by simp [hreader])
  refine ⟨hsound.offer, fun r a hr => ?_, fun r e hr => ?_, fun r e hr => ?_⟩
  · rw [reader_answerOffer] at hr
    split at hr <;> cases hr
  · rw [reader_answerOffer] at hr
    split at hr <;> cases hr
  · rw [conn_answerOffer, conn_setPeer] at hr
    by_cases hrq : r = q
    · subst hrq
      rw [Function.update_self] at hr
      rw [reader_answerOffer, if_pos (PeerConnection.sdpType_of_haveRemoteOffer hpc hr)]
      exact Or.inl rfl
    · rw [Function.update_of_ne hrq] at hr
      exact absurd hr (hidle r e)

theorem Sound.answerSet (hsound : c.Sound) {a : SessionDescription} {peer : Peer}
    {pc : PeerConnection} (hreader : c.reader = some (q, .setLocalDescription a))
    (hpc : peer.pc.setLocalDescription a = .ok pc) :
    ((c.setPeer q { peer with pc := pc }).setReader (some (q, .sendPeerRequest a))).Sound := by
  obtain ⟨remote, -, rfl⟩ := setLocalDescription_answer (hsound.answer q a hreader) hpc
  refine ⟨hsound.offer, by simp, by simp, fun r e hr => ?_⟩
  rw [conn_setReader, conn_setPeer] at hr
  by_cases hrq : r = q
  · subst hrq
    rw [Function.update_self] at hr
    cases hr
  · rw [Function.update_of_ne hrq] at hr
    have hne : q ≠ r := fun h => hrq h.symm
    exact absurd hr (hsound.not_haveRemoteOffer (by simp [hreader]) (by simp [hreader, hne]) e)

theorem Sound.answerCreated (hsound : c.Sound) {a : SessionDescription} {sdp : String}
    (hreader : c.reader = some (q, .createAnswer))
    (ha : (c.conn q).createAnswer sdp = .ok a) :
    (c.setReader (some (q, .setLocalDescription a))).Sound := by
  refine ⟨hsound.offer, fun r b hr => ?_, by simp, fun r e hr => ?_⟩
  · rw [reader_setReader] at hr
    cases hr
    exact (PeerConnection.createAnswer_ok ha).1
  · rcases hsound.answering r e hr with hr' | ⟨b, hr'⟩
    · rw [hreader] at hr'
      cases hr'
      exact Or.inr ⟨a, rfl⟩
    · rw [hreader] at hr'
      cases hr'

/-- A handler that fails to answer is not one that a connection waits for. -/
theorem Sound.handled (hsound : c.Sound) {handling : Handling} {settled : Settled}
    (hreader : c.reader = some (q, handling))
    (hcreate : handling = .createAnswer →
      ∃ e, (c.conn q).createAnswer settled.sdp = .error e)
    (hset : ∀ a, handling = .setLocalDescription a →
      ∃ e, (c.conn q).setLocalDescription a = .error e) : (c.setReader none).Sound := by
  refine hsound.setReader_none fun r d hstate => ?_
  rcases hsound.answering r d hstate with hr | ⟨a, hr⟩
  all_goals
    have hr' := hr
    rw [hreader] at hr'
    cases hr'
  · obtain ⟨e, he⟩ := hcreate rfl
    simp [PeerConnection.createAnswer, hstate] at he
  · obtain ⟨e, he⟩ := hset a rfl
    simp [PeerConnection.setLocalDescription, hstate, hsound.answer q a hr] at he

theorem Sound.of_step {a : Action PeerID} (hsound : c.Sound)
    (h : c.step host a = some (c', es)) : c'.Sound := by
  cases steps_of_step h with
  | same hsame => exact hsound.of_same hsame
  | connectToPeer hsame =>
      refine (hsound.of_same hsame).setOffers fun d hmem => ?_
      rcases List.mem_append.mp hmem with hmem | hmem
      · exact hsound.offer _ d hmem
      · simp at hmem
  | offerCreated _ hd =>
      refine hsound.replaceOffer _ fun d' heq => ?_
      cases heq
      exact hd
  | offerSet hpeer htask hpc => exact hsound.offerSet hpeer htask hpc
  | offerFailed => exact hsound.eraseOffer _
  | offerSent => exact hsound.eraseOffer _
  | offerReceived hreader hsame _ hremote =>
      refine (hsound.of_same hsame).setReader (fun r => ?_) (by simp) fun r d heq => ?_
      · rw [hsame.conn]
        exact hsound.not_haveRemoteOffer (by simp [hreader]) (by simp [hreader])
      · cases heq
        rw [hsame.conn, hremote]
  | @offerSkipped q _ _ d _ _ hreader hsame =>
      refine (hsound.of_same hsame).setReader (fun r => ?_) (fun r a => ?_) fun r e => ?_
      · rw [hsame.conn]
        exact hsound.not_haveRemoteOffer (by simp [hreader]) (by simp [hreader])
      · split <;> simp
      · split <;> simp
  | candidateReceived hreader =>
      exact hsound.setReader
        (fun r => hsound.not_haveRemoteOffer (by simp [hreader]) (by simp [hreader]))
        (by simp) (by simp)
  | remoteSet _ hreader hpc => exact hsound.remoteSet hreader hpc
  | remoteRejected hreader | answerSent hreader =>
      exact hsound.setReader_none fun r =>
        hsound.not_haveRemoteOffer (by simp [hreader]) (by simp [hreader])
  | answerCreated hreader ha => exact hsound.answerCreated hreader ha
  | answerSet _ hreader hpc => exact hsound.answerSet hreader hpc
  | handled hreader _ _ hcreate hset => exact hsound.handled hreader hcreate hset

/-! ## The move of a step -/

/-- The client makes the move `m` in the negotiation with `q`. -/
structure Follows (q : PeerID) (m : Move) (c c' : Client PeerID) (es : List (Event PeerID))
    (received : Option SessionDescription) : Prop where
  performs : m.Performs (c.conn q) (c'.conn q)
  gives : (es.filterMap (Event.descriptionTo q) : Multiset SessionDescription) + c'.unsent q =
    m.gives + c.unsent q
  takes : (received.toList : Multiset SessionDescription) + c.unapplied q =
    m.takes + c'.unapplied q

theorem handling_of_reader {p : PeerID} {handling : Handling}
    (h : c.reader = some (p, handling)) :
    c.handling q = if p = q then some handling else none := by
  simp [Client.handling, h]

theorem handling_of_idle (h : c.reader = none) : c.handling q = none := by
  simp [Client.handling, h]

theorem handling_congr (h : c'.reader = c.reader) : c'.handling q = c.handling q := by
  simp [Client.handling, h]

/-- A handler that goes on to answer has nothing to apply and nothing to send yet. -/
theorem handling_answerOffer (p : PeerID) (d : SessionDescription) :
    ((c.answerOffer p d).handling q).bind Handling.unsent = none ∧
      ((c.answerOffer p d).handling q).bind Handling.unapplied = none := by
  by_cases hd : d.sdpType = .offer
  · by_cases hp : p = q
    · simp [handling, reader_answerOffer, hd, hp, Handling.unsent, Handling.unapplied]
    · simp [handling, reader_answerOffer, hd, hp]
  · simp [handling, reader_answerOffer, hd]

theorem filterMap_of_silent (h : Silent es) : es.filterMap (Event.descriptionTo q) = [] :=
  List.filterMap_eq_nil_iff.mpr fun e he => h e he q

/-- A step that does not concern `q`. -/
theorem Follows.untouched (hconn : c'.conn q = c.conn q) (hoffers : c'.offers q = c.offers q)
    (hhandling : c'.handling q = c.handling q)
    (hes : es.filterMap (Event.descriptionTo q) = []) : Follows q .quiet c c' es none := by
  refine ⟨hconn, ?_, ?_⟩
  · simp [hes, unsent, hoffers, hhandling, Move.gives]
  · simp [unapplied, hhandling, Move.takes]

/-- A step of a `make_offer`: the task `old` becomes `new`, or ends. -/
theorem Follows.task {i : Nat} {old new : MakeOffer} {m : Move}
    (hold : (c.offers q)[i]? = some old) (hoffers : c'.offers q = (c.offers q).set i new)
    (hreader : c'.reader = c.reader) (hperforms : m.Performs (c.conn q) (c'.conn q))
    (hunsent : old.unsent = none) (hgives : m.gives = (new.unsent.toList : Multiset _))
    (htakes : m.takes = 0) : Follows q m c c' [] none := by
  have hhandling := handling_congr (q := q) hreader
  refine ⟨hperforms, ?_, ?_⟩
  · have hperm := filterMap_perm_set (f := MakeOffer.unsent) hold new
    rw [hunsent, Option.toList_none, List.nil_append] at hperm
    have heq := Multiset.coe_eq_coe.mpr hperm
    simp only [unsent, hoffers, hhandling, hgives, List.filterMap_nil, Multiset.coe_nil,
      zero_add, heq, ← Multiset.coe_add, add_assoc]
  · simp [unapplied, hhandling, htakes]

theorem Follows.task_end {i : Nat} {old : MakeOffer} {es : List (Event PeerID)}
    (hold : (c.offers q)[i]? = some old) (hoffers : c'.offers q = (c.offers q).eraseIdx i)
    (hreader : c'.reader = c.reader) (hconn : c'.conn q = c.conn q)
    (hes : es.filterMap (Event.descriptionTo q) = old.unsent.toList) :
    Follows q .quiet c c' es none := by
  have hhandling := handling_congr (q := q) hreader
  refine ⟨hconn, ?_, ?_⟩
  · have hperm := filterMap_perm_eraseIdx (f := MakeOffer.unsent) hold
    have heq := Multiset.coe_eq_coe.mpr hperm
    simp only [unsent, hoffers, hhandling, hes, heq, Move.gives, zero_add,
      ← Multiset.coe_add, add_assoc]
  · simp [unapplied, hhandling, Move.takes]

/-- A step of the handler: from `old` to `new`. -/
theorem Follows.handler {old new : Option Handling} {m : Move}
    {received : Option SessionDescription} (hold : c.handling q = old)
    (hnew : c'.handling q = new) (hoffers : c'.offers q = c.offers q)
    (hperforms : m.Performs (c.conn q) (c'.conn q))
    (hgives : (es.filterMap (Event.descriptionTo q) : Multiset SessionDescription) +
      ((new.bind Handling.unsent).toList : Multiset SessionDescription) =
        m.gives + ((old.bind Handling.unsent).toList : Multiset SessionDescription))
    (htakes : (received.toList : Multiset SessionDescription) +
      ((old.bind Handling.unapplied).toList : Multiset SessionDescription) =
        m.takes + ((new.bind Handling.unapplied).toList : Multiset SessionDescription)) :
    Follows q m c c' es received := by
  refine ⟨hperforms, ?_, ?_⟩
  · simp only [unsent, hoffers, hold, hnew]
    rw [add_left_comm, hgives, add_left_comm]
  · simpa only [unapplied, hold, hnew] using htakes

theorem move_of_passive {a : Action PeerID} (h : a.Passive) :
    c.move q a = .quiet ∧ a.descriptionFrom q = none := by
  unfold Action.Passive at h
  split at h
  case h_4 hmake hhandle hoffer =>
      unfold move Action.descriptionFrom
      refine ⟨?_, ?_⟩
      · split
        case h_1 => exact absurd rfl (hmake _ _ _)
        case h_2 => exact absurd rfl (hoffer _ _ _ _)
        case h_3 => exact absurd rfl (hhandle _)
        case h_4 => rfl
      · split
        case h_1 => exact absurd rfl (hoffer _ _ _ _)
        case h_2 => rfl
  all_goals exact absurd h id

theorem move_makeOffer_of_ne {p : PeerID} {i : Nat} {settled : Settled} (hp : p ≠ q) :
    c.move q (.makeOffer p i settled) = .quiet := by
  simp [move, hp]

theorem move_handle_of_ne {p : PeerID} {handling : Handling} {settled : Settled}
    (hreader : c.reader = some (p, handling)) (hp : p ≠ q) :
    c.move q (.handle settled) = .quiet := by
  simp [move, handling_of_reader hreader, hp]

/-- A step of a `make_offer` for another peer. -/
theorem follows_makeOffer_of_ne {p : PeerID} {i : Nat} {settled : Settled} (hp : p ≠ q)
    (hconn : c'.conn q = c.conn q) (hoffers : c'.offers q = c.offers q)
    (hreader : c'.reader = c.reader) (hes : es.filterMap (Event.descriptionTo q) = []) :
    Follows q (c.move q (.makeOffer p i settled)) c c' es none := by
  rw [move_makeOffer_of_ne hp]
  exact .untouched hconn hoffers (handling_congr hreader) hes

/-- A step of the handler for another peer. -/
theorem follows_handle_of_ne {p : PeerID} {handling : Handling} {settled : Settled}
    (hp : p ≠ q) (hreader : c.reader = some (p, handling))
    (hreader' : ∀ r h, c'.reader = some (r, h) → r = p)
    (hconn : c'.conn q = c.conn q) (hoffers : c'.offers q = c.offers q)
    (hes : es.filterMap (Event.descriptionTo q) = []) :
    Follows q (c.move q (.handle settled)) c c' es none := by
  rw [move_handle_of_ne hreader hp]
  refine .untouched hconn hoffers ?_ hes
  rw [handling_of_reader hreader, if_neg hp]
  cases hc' : c'.reader with
  | none => exact handling_of_idle hc'
  | some r =>
      obtain rfl : r.1 = p := hreader' r.1 r.2 hc'
      rw [handling_of_reader hc', if_neg hp]

theorem follows_offerSet (hsound : c.Sound) {p : PeerID} {i : Nat} {settled : Settled}
    {d : SessionDescription} {peer : Peer} {pc : PeerConnection}
    (hpeer : c.peers p = some peer)
    (htask : (c.offers p)[i]? = some (.setLocalDescription d))
    (hpc : peer.pc.setLocalDescription d = .ok pc) :
    Follows q (c.move q (.makeOffer p i settled)) c
      ((c.setPeer p { peer with pc := pc }).setOffers p
        ((c.offers p).set i (.sendPeerRequest d))) [] none := by
  by_cases hp : p = q
  · subst hp
    have hd := hsound.offer p d (List.mem_of_getElem? htask)
    obtain ⟨hstate, rfl⟩ := setLocalDescription_offer hd hpc
    have hconn := conn_of_peers hpeer
    have hmove : c.move p (.makeOffer p i settled) = .offer d := by
      simp [move, htask, hconn, hstate]
    rw [hmove]
    have hoffers : ((c.setPeer p { peer with
        pc := { peer.pc with signalingState := .haveLocalOffer d } }).setOffers p
          ((c.offers p).set i (.sendPeerRequest d))).offers p =
        (c.offers p).set i (.sendPeerRequest d) := by simp
    refine .task htask hoffers rfl ⟨hd, by rwa [hconn], ?_⟩ rfl rfl rfl
    rw [conn_setOffers, conn_setPeer, Function.update_self, hconn]
  · have hq : q ≠ p := fun h => hp h.symm
    exact follows_makeOffer_of_ne hp (by simp [hq]) (by simp [hq]) rfl rfl

theorem follows_offerFailed (hsound : c.Sound) {p : PeerID} {i : Nat} {settled : Settled}
    {task : MakeOffer} {e : JsError PeerID} (htask : (c.offers p)[i]? = some task)
    (hunsent : task.unsent = none)
    (hset : ∀ d, task = .setLocalDescription d →
      ∃ e, (c.conn p).setLocalDescription d = .error e) :
    Follows q (c.move q (.makeOffer p i settled)) c
      (c.setOffers p ((c.offers p).eraseIdx i)) [.failed e] none := by
  by_cases hp : p = q
  · subst hp
    have hmove : c.move p (.makeOffer p i settled) = .quiet := by
      cases task with
      | setLocalDescription d =>
          have hd := hsound.offer p d (List.mem_of_getElem? htask)
          obtain ⟨e, he⟩ := hset d rfl
          have hstate : (c.conn p).signalingState ≠ .stable := by
            intro hstate
            simp [PeerConnection.setLocalDescription, hstate, hd] at he
          simp [move, htask, hstate]
      | createOffer | sendPeerRequest => simp [move, htask]
    rw [hmove]
    refine .task_end htask (by simp) rfl rfl ?_
    rw [hunsent]
    rfl
  · have hq : q ≠ p := fun h => hp h.symm
    exact follows_makeOffer_of_ne hp rfl (by simp [hq]) rfl rfl

theorem follows_remoteSet (hsound : c.Sound) {p : PeerID} {settled : Settled}
    {d : SessionDescription} {peer : Peer} {pc : PeerConnection}
    (hpeer : c.peers p = some peer) (hreader : c.reader = some (p, .setRemoteDescription d))
    (hpc : peer.pc.setRemoteDescription settled.rollsBack d = .ok pc) :
    Follows q (c.move q (.handle settled)) c
      ((c.setPeer p { peer with pc := pc }).answerOffer p d) [] none := by
  by_cases hp : p = q
  · subst hp
    have hconn := conn_of_peers hpeer
    have hhandling : c.handling p = some (.setRemoteDescription d) := by
      rw [handling_of_reader hreader, if_pos rfl]
    have hmove : c.move p (.handle settled) = .apply d := by
      simp [move, hhandling, hconn, hpc]
    rw [hmove]
    refine .handler hhandling rfl rfl ⟨hsound.unset p d hreader, settled.rollsBack, ?_⟩ ?_ ?_
    · rw [conn_answerOffer, conn_setPeer, Function.update_self, hconn, hpc]
    · rw [(handling_answerOffer p d).1]
      rfl
    · rw [(handling_answerOffer p d).2]
      rfl
  · have hq : q ≠ p := fun h => hp h.symm
    refine follows_handle_of_ne hp hreader (fun r h hr => ?_) (by simp [hq]) rfl rfl
    rw [reader_answerOffer] at hr
    split at hr <;> cases hr
    rfl

theorem follows_remoteRejected {p : PeerID} {settled : Settled} {d : SessionDescription}
    {e : WebRTCError} (hreader : c.reader = some (p, .setRemoteDescription d))
    (he : (c.conn p).setRemoteDescription settled.rollsBack d = .error e) :
    Follows q (c.move q (.handle settled)) c (c.setReader none) [.failed (.webRtc e)] none := by
  by_cases hp : p = q
  · subst hp
    have hhandling : c.handling p = some (.setRemoteDescription d) := by
      rw [handling_of_reader hreader, if_pos rfl]
    have hmove : c.move p (.handle settled) = .drop d := by simp [move, hhandling, he]
    rw [hmove]
    exact .handler hhandling rfl rfl ⟨rfl, Or.inr ⟨settled.rollsBack, e, he⟩⟩ rfl rfl
  · exact follows_handle_of_ne hp hreader (fun r h hr => by cases hr) rfl rfl rfl

theorem follows_answerCreated {p : PeerID} {settled : Settled} {d : SessionDescription}
    (hreader : c.reader = some (p, .createAnswer)) :
    Follows q (c.move q (.handle settled)) c
      (c.setReader (some (p, .setLocalDescription d))) [] none := by
  by_cases hp : p = q
  · subst hp
    have hhandling : c.handling p = some .createAnswer := by
      rw [handling_of_reader hreader, if_pos rfl]
    have hmove : c.move p (.handle settled) = .quiet := by simp [move, hhandling]
    have hnew : (c.setReader (some (p, .setLocalDescription d))).handling p =
        some (.setLocalDescription d) := by simp [handling]
    rw [hmove]
    exact .handler hhandling hnew rfl rfl rfl rfl
  · refine follows_handle_of_ne hp hreader (fun r h hr => ?_) rfl rfl rfl
    cases hr
    rfl

theorem follows_answerSet (hsound : c.Sound) {p : PeerID} {settled : Settled}
    {a : SessionDescription} {peer : Peer} {pc : PeerConnection}
    (hpeer : c.peers p = some peer) (hreader : c.reader = some (p, .setLocalDescription a))
    (hpc : peer.pc.setLocalDescription a = .ok pc) :
    Follows q (c.move q (.handle settled)) c
      ((c.setPeer p { peer with pc := pc }).setReader (some (p, .sendPeerRequest a))) []
      none := by
  by_cases hp : p = q
  · subst hp
    have hconn := conn_of_peers hpeer
    have ha := hsound.answer p a hreader
    obtain ⟨remote, hstate, hpc'⟩ := setLocalDescription_answer ha hpc
    have hhandling : c.handling p = some (.setLocalDescription a) := by
      rw [handling_of_reader hreader, if_pos rfl]
    have hmove : c.move p (.handle settled) = .answer a := by
      simp [move, hhandling, hconn, hpc]
    have hnew : ((c.setPeer p { peer with pc := pc }).setReader
        (some (p, .sendPeerRequest a))).handling p = some (.sendPeerRequest a) := by
      simp [handling]
    rw [hmove]
    refine .handler hhandling hnew rfl ⟨ha, remote, by rw [hconn, hstate], ?_⟩ rfl rfl
    rw [conn_setReader, conn_setPeer, Function.update_self, hpc']
  · have hq : q ≠ p := fun h => hp h.symm
    refine follows_handle_of_ne hp hreader (fun r h hr => ?_) (by simp [hq]) rfl rfl
    cases hr
    rfl

theorem follows_answerSent {p : PeerID} {settled : Settled} {a : SessionDescription}
    (hreader : c.reader = some (p, .sendPeerRequest a)) :
    Follows q (c.move q (.handle settled)) c (c.setReader none)
      [.sent (.forward host (some p) (.webRtcOffer p a))] none := by
  by_cases hp : p = q
  · subst hp
    have hhandling : c.handling p = some (.sendPeerRequest a) := by
      rw [handling_of_reader hreader, if_pos rfl]
    have hmove : c.move p (.handle settled) = .quiet := by simp [move, hhandling]
    rw [hmove]
    refine .handler hhandling rfl rfl rfl ?_ rfl
    simp [Event.descriptionTo, Handling.unsent, Move.gives, handling]
  · exact follows_handle_of_ne hp hreader (fun r h hr => by cases hr) rfl rfl
      (by simp [Event.descriptionTo, hp])

theorem follows_handled {p : PeerID} {handling : Handling} {settled : Settled}
    (hreader : c.reader = some (p, handling)) (hunsent : handling.unsent = none)
    (hunapplied : handling.unapplied = none)
    (hset : ∀ d, handling = .setLocalDescription d →
      ∃ e, (c.conn p).setLocalDescription d = .error e) (hes : Silent es) :
    Follows q (c.move q (.handle settled)) c (c.setReader none) es none := by
  by_cases hp : p = q
  · subst hp
    have hhandling : c.handling p = some handling := by
      rw [handling_of_reader hreader, if_pos rfl]
    have hmove : c.move p (.handle settled) = .quiet := by
      cases handling with
      | setRemoteDescription d => cases hunapplied
      | setLocalDescription d =>
          obtain ⟨e, he⟩ := hset d rfl
          simp [move, hhandling, he]
      | createAnswer | sendPeerRequest | addIceCandidate => simp [move, hhandling]
    rw [hmove]
    refine .handler hhandling rfl rfl rfl ?_ ?_
    · rw [filterMap_of_silent hes, Option.bind_some, hunsent]
      rfl
    · rw [Option.bind_some, hunapplied]
      rfl
  · exact follows_handle_of_ne hp hreader (fun r h hr => by cases hr) rfl rfl
      (filterMap_of_silent hes)

theorem follows_connectToPeer {p : PeerID} {c₁ : Client PeerID} (hsame : c.Same c₁)
    (hes : Silent es) :
    Follows q .quiet c (c₁.setOffers p (c.offers p ++ [.createOffer])) es none := by
  have hoffers : ((c₁.setOffers p (c.offers p ++ [.createOffer])).offers q).filterMap
      MakeOffer.unsent = (c.offers q).filterMap MakeOffer.unsent := by
    have hnew : [MakeOffer.createOffer].filterMap MakeOffer.unsent = [] := rfl
    by_cases hp : q = p
    · subst hp
      rw [offers_setOffers, Function.update_self, List.filterMap_append, hnew, List.append_nil]
    · rw [offers_setOffers, Function.update_of_ne hp, hsame.offers]
  have hhandling : (c₁.setOffers p (c.offers p ++ [.createOffer])).handling q =
      c.handling q := handling_congr hsame.reader
  refine ⟨by rw [conn_setOffers, hsame.conn]; rfl, ?_, ?_⟩
  · rw [unsent, hoffers, hhandling, filterMap_of_silent hes]
    rfl
  · rw [unapplied, unapplied, hhandling]
    rfl

theorem follows_offerReceived {p id : PeerID} {recipient : Option PeerID}
    {d : SessionDescription} {c₁ : Client PeerID} (hreader : c.reader = none)
    (hsame : c.Same c₁) (hes : Silent es) (hremote : (c.conn p).remoteDescription = none) :
    Follows q (c.move q (.receive (.forward p recipient (.webRtcOffer id d)))) c
      (c₁.setReader (some (p, .setRemoteDescription d))) es
      ((Action.receive (.forward p recipient (.webRtcOffer id d))).descriptionFrom q) := by
  have hmove : c.move q (.receive (.forward p recipient (.webRtcOffer id d))) = .quiet := by
    simp [move, hremote]
  have hconn : (c₁.setReader (some (p, .setRemoteDescription d))).conn q = c.conn q := by
    rw [conn_setReader, hsame.conn]
  have hoffers : (c₁.setReader (some (p, .setRemoteDescription d))).offers q =
      c.offers q := by rw [offers_setReader, hsame.offers]
  have hnew : (c₁.setReader (some (p, .setRemoteDescription d))).handling q =
      if p = q then some (.setRemoteDescription d) else none := rfl
  rw [hmove]
  by_cases hp : p = q
  · rw [if_pos hp] at hnew
    refine .handler (handling_of_idle hreader) hnew hoffers hconn ?_ ?_
    · rw [filterMap_of_silent hes]
      rfl
    · rw [Action.descriptionFrom, if_pos hp]
      rfl
  · rw [if_neg hp] at hnew
    rw [Action.descriptionFrom, if_neg hp]
    exact .untouched hconn hoffers (hnew.trans (handling_of_idle hreader).symm)
      (filterMap_of_silent hes)

theorem follows_offerSkipped {p id : PeerID} {recipient : Option PeerID}
    {d : SessionDescription} {c₁ : Client PeerID} (hreader : c.reader = none)
    (hsame : c.Same c₁) (hes : Silent es) (hremote : (c.conn p).remoteDescription ≠ none) :
    Follows q (c.move q (.receive (.forward p recipient (.webRtcOffer id d)))) c
      (c₁.answerOffer p d) es
      ((Action.receive (.forward p recipient (.webRtcOffer id d))).descriptionFrom q) := by
  have hconn : (c₁.answerOffer p d).conn q = c.conn q := by rw [conn_answerOffer, hsame.conn]
  have hoffers : (c₁.answerOffer p d).offers q = c.offers q := by
    rw [offers_answerOffer, hsame.offers]
  obtain ⟨hunsent, hunapplied⟩ := handling_answerOffer (c := c₁) (q := q) p d
  by_cases hp : p = q
  · subst hp
    have hmove : c.move p (.receive (.forward p recipient (.webRtcOffer id d))) = .drop d := by
      simp [move, hremote]
    rw [hmove, Action.descriptionFrom, if_pos rfl]
    refine .handler (handling_of_idle hreader) rfl hoffers ⟨hconn, Or.inl hremote⟩ ?_ ?_
    · rw [filterMap_of_silent hes, hunsent]
      rfl
    · rw [hunapplied]
      rfl
  · have hmove : c.move q (.receive (.forward p recipient (.webRtcOffer id d))) = .quiet := by
      simp [move, hp]
    rw [hmove, Action.descriptionFrom, if_neg hp]
    refine .handler (handling_of_idle hreader) rfl hoffers hconn ?_ ?_
    · rw [filterMap_of_silent hes, hunsent]
      rfl
    · rw [hunapplied]
      rfl

theorem follows_candidateReceived {p : PeerID} (hreader : c.reader = none) (hes : Silent es) :
    Follows q .quiet c (c.setReader (some (p, .addIceCandidate))) es none := by
  have hnew : (c.setReader (some (p, .addIceCandidate))).handling q =
      if p = q then some .addIceCandidate else none := rfl
  have hquiet : ((c.setReader (some (p, .addIceCandidate))).handling q).bind Handling.unsent =
      none ∧ ((c.setReader (some (p, .addIceCandidate))).handling q).bind
        Handling.unapplied = none := by
    rw [hnew]
    split <;> exact ⟨rfl, rfl⟩
  refine .handler (handling_of_idle hreader) rfl rfl rfl ?_ ?_
  · rw [filterMap_of_silent hes, hquiet.1]
    rfl
  · rw [hquiet.2]
    rfl

/-- A step of the client is, for each peer, the move of its action. -/
theorem follows_of_step {a : Action PeerID} (hsound : c.Sound)
    (h : c.step host a = some (c', es)) :
    Follows q (c.move q a) c c' es (a.descriptionFrom q) := by
  cases steps_of_step h with
  | same hsame hpassive hes =>
      obtain ⟨hmove, hfrom⟩ := move_of_passive (c := c) (q := q) hpassive
      rw [hmove, hfrom]
      exact .untouched (by rw [hsame.conn]) (by rw [hsame.offers])
        (handling_congr hsame.reader) (filterMap_of_silent hes)
  | connectToPeer hsame hes => exact follows_connectToPeer hsame hes
  | @offerCreated p i settled d htask _ =>
      by_cases hp : p = q
      · subst hp
        have hmove : c.move p (.makeOffer p i settled) = .quiet := by simp [move, htask]
        have hoffers : (c.setOffers p ((c.offers p).set i (.setLocalDescription d))).offers p =
            (c.offers p).set i (.setLocalDescription d) := by simp
        rw [hmove]
        exact .task htask hoffers rfl rfl rfl rfl rfl
      · have hq : q ≠ p := fun h => hp h.symm
        exact follows_makeOffer_of_ne hp rfl (by simp [hq]) rfl rfl
  | offerSet hpeer htask hpc => exact follows_offerSet hsound hpeer htask hpc
  | offerFailed htask hunsent hset => exact follows_offerFailed hsound htask hunsent hset
  | @offerSent p i settled d htask =>
      by_cases hp : p = q
      · subst hp
        have hmove : c.move p (.makeOffer p i settled) = .quiet := by simp [move, htask]
        rw [hmove]
        exact .task_end htask (by simp) rfl rfl
          (by simp [Event.descriptionTo, MakeOffer.unsent])
      · have hq : q ≠ p := fun h => hp h.symm
        exact follows_makeOffer_of_ne hp rfl (by simp [hq]) rfl
          (by simp [Event.descriptionTo, hp])
  | offerReceived hreader hsame hes hremote =>
      exact follows_offerReceived hreader hsame hes hremote
  | offerSkipped hreader hsame hes hremote =>
      exact follows_offerSkipped hreader hsame hes hremote
  | candidateReceived hreader hes => exact follows_candidateReceived hreader hes
  | remoteSet hpeer hreader hpc => exact follows_remoteSet hsound hpeer hreader hpc
  | remoteRejected hreader he => exact follows_remoteRejected hreader he
  | answerCreated hreader _ => exact follows_answerCreated hreader
  | answerSet hpeer hreader hpc => exact follows_answerSet hsound hpeer hreader hpc
  | answerSent hreader => exact follows_answerSent hreader
  | handled hreader hunsent hunapplied _ hset hes =>
      exact follows_handled hreader hunsent hunapplied hset hes

/-- To receive a request is always `Ok`: it drops an offer only where there is a remote
description. -/
theorem ok_receive (c : Client PeerID) (q : PeerID) (request : PeerRequest PeerID) {x : Side}
    (y : Side) (hx : x.conn = c.conn q) : (c.move q (.receive request)).Ok x y := by
  unfold move
  split
  case h_2 p recipient id d heq =>
      split
      case isTrue hdrop =>
          obtain ⟨rfl, hremote⟩ := hdrop
          intro own hown _
          rw [← hx, hown] at hremote
          exact absurd rfl hremote
      case isFalse => trivial
  case h_1 heq => cases heq
  case h_3 heq => cases heq
  case h_4 => trivial

end Client

end SfRs.Wasm
