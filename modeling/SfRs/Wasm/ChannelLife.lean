import Mathlib.Data.List.Nodup
import SfRs.Wasm.Channels
/-!
# The life of a channel

Seen from one channel, a run of the page is a `Life`: the channel appears, its tasks start
at most once, and between that the browser, the tasks and the calls act on it.  What holds
of a channel over a run is proved by induction on its life.
-/

set_option linter.unusedSectionVars false

namespace SfRs.Wasm.Channels

open SfRs.Lib SfRs.WebRtc

variable {PeerID : Type} [DecidableEq PeerID]

/-- The events about a channel. -/
def eventsOf (i : Nat) (tr : List (Event PeerID)) : List (Event PeerID) :=
  tr.filter fun e => e.channel? = some i

/-- What can have happened to channel `i`, and whether its tasks have started. -/
inductive Life (i : Nat) : Option (Channel PeerID) → Bool → List (Event PeerID) → Prop
  | absent : Life i none false []
  | offered (p : PeerID) :
      Life i (some (Channel.install ⟨p, .create defaultChannelName, none, none⟩)) true
        [.created i p, .installed i .connecting]
  | announced (p : PeerID) (label : String) (isOpen : Bool) :
      Life i (some ⟨p, ⟨label, if isOpen then .open else .connecting, false⟩, none, none⟩) false
        [.created i p]
  | installed {ch tr} (hlife : Life i (some ch) false tr) :
      Life i (some ch.install) true (tr ++ [.installed i ch.inner.readyState])
  | sent {ch started tr} (hlife : Life i (some ch) started tr)
      (hopen : ch.inner.readyState = .open) (message : String) :
      Life i (some ch) started (tr ++ [.sent i message])
  | acts {ch ch' m m' started tr es} (hlife : Life i (some ch) started tr)
      (hacts : ch.Acts i m ch' m' es) : Life i (some ch') started (tr ++ es)

section Life

variable {i j : Nat} {ch? : Option (Channel PeerID)} {ch ch' : Channel PeerID} {m m' : Counters}
  {started : Bool} {tr es : List (Event PeerID)}

@[simp] theorem eventsOf_append : eventsOf i (tr ++ es) = eventsOf i tr ++ eventsOf i es :=
  List.filter_append _ _

theorem eventsOf_eq_self (hes : ∀ e ∈ es, e.channel? = some i) : eventsOf i es = es :=
  List.filter_eq_self.mpr fun e he => decide_eq_true (hes e he)

theorem eventsOf_eq_nil (hes : ∀ e ∈ es, e.channel? = some i) (hne : j ≠ i) :
    eventsOf j es = [] := by
  refine List.filter_eq_nil_iff.mpr fun e he => ?_
  rw [hes e he]
  simpa using Ne.symm hne

theorem Channel.Acts.channel? (hacts : ch.Acts i m ch' m' es) : ∀ e ∈ es, e.channel? = some i := by
  cases hacts with
  | stateTaken | messageTaken =>
      intro e he
      obtain ⟨event, -, rfl⟩ := List.mem_map.mp he
      rfl
  | opened | closing | closed | heard | missed | statesEnded | messagesFailed | messagesEnded =>
      simp [Event.channel?]

theorem Channel.Acts.peerId (hacts : ch.Acts i m ch' m' es) : ch'.peerId = ch.peerId := by
  cases hacts <;> rfl

theorem Channel.Acts.not_installed (hacts : ch.Acts i m ch' m' es) (state : RtcDataChannelState) :
    .installed i state ∉ es := by
  cases hacts with
  | stateTaken | messageTaken =>
      intro hmem
      obtain ⟨event, -, heq⟩ := List.mem_map.mp hmem
      cases heq
  | opened | closing | closed | heard | missed | statesEnded | messagesFailed | messagesEnded =>
      simp

theorem Life.started_iff (hlife : Life i ch? started tr) :
    started = true ↔ ∃ state, .installed i state ∈ tr := by
  induction hlife with
  | absent => simp
  | offered => simp
  | announced => simp
  | installed => simp
  | sent _ _ _ ih => simpa using ih
  | acts _ hacts ih =>
      simp only [List.mem_append, hacts.not_installed, or_false]
      exact ih

theorem Life.started_eq {started' : Bool} {ch?' : Option (Channel PeerID)}
    (hlife : Life i ch? started tr) (hlife' : Life i ch?' started' tr) : started = started' :=
  Bool.eq_iff_iff.mpr (hlife.started_iff.trans hlife'.started_iff.symm)

theorem Life.of_none (hlife : Life i (none : Option (Channel PeerID)) started tr) :
    started = false ∧ tr = [] := by
  cases hlife
  exact ⟨rfl, rfl⟩

end Life

/-! ## Every run -/

/-- The channels of a page, and those that wait for `data_channel_stream`. -/
structure Lives (w : Page PeerID) (tr : List (Event PeerID)) : Prop where
  life : ∀ i, ∃ started, Life i (w.channels i) started (eventsOf i tr)
  fresh : ∀ i, w.fresh ≤ i → w.channels i = none
  waiting : ∀ p peer, w.peers p = some peer →
    peer.dcStream.closed = false ∧ peer.dcStream.queue.Nodup ∧
      ∀ i ∈ peer.dcStream.queue, ∃ ch, w.channels i = some ch ∧ ch.peerId = p ∧
        Life i (some ch) false (eventsOf i tr)

section Lives

variable {i : Nat} {w w' : Page PeerID} {a : Action PeerID} {ch ch' : Channel PeerID}
  {started : Bool} {tr es : List (Event PeerID)}

theorem lives_init : Lives (Page.init : Page PeerID) [] :=
  ⟨fun _ => ⟨false, .absent⟩, fun _ _ => rfl, fun _ _ hpeer => by cases hpeer⟩

/-- A step that leaves the channels alone. -/
theorem Lives.keep (hlives : Lives w tr) (hchannels : w'.channels = w.channels)
    (hfresh : w'.fresh = w.fresh) (hes : ∀ i, eventsOf i es = [])
    (hwaiting : ∀ p peer', w'.peers p = some peer' → peer'.dcStream = .new ∨
      ∃ peer, w.peers p = some peer ∧ peer'.dcStream.closed = peer.dcStream.closed ∧
        peer'.dcStream.queue <:+ peer.dcStream.queue) : Lives w' (tr ++ es) := by
  constructor
  · intro i
    rw [hchannels, eventsOf_append, hes, List.append_nil]
    exact hlives.life i
  · rw [hfresh, hchannels]
    exact hlives.fresh
  · intro p peer' hpeer'
    rcases hwaiting p peer' hpeer' with hnew | ⟨peer, hpeer, hclosed, hqueue⟩
    · rw [hnew]
      exact ⟨rfl, List.nodup_nil, fun i hi => absurd hi List.not_mem_nil⟩
    · obtain ⟨hopen, hnodup, hlife⟩ := hlives.waiting p peer hpeer
      refine ⟨hclosed.trans hopen, hnodup.sublist hqueue.sublist, fun i hi => ?_⟩
      rw [hchannels, eventsOf_append, hes, List.append_nil]
      exact hlife i (hqueue.subset hi)

/-- A step of one channel. -/
theorem Lives.change (hlives : Lives w tr) (started : Bool)
    (hchannels : w'.channels = Function.update w.channels i (some ch'))
    (hfresh : w.fresh ≤ w'.fresh) (hi : i < w'.fresh)
    (hes : ∀ j, j ≠ i → eventsOf j es = [])
    (hlife : Life i (some ch') started (eventsOf i tr ++ eventsOf i es))
    (hwaiting : ∀ p peer', w'.peers p = some peer' →
      peer'.dcStream.closed = false ∧ peer'.dcStream.queue.Nodup ∧
        ∀ j ∈ peer'.dcStream.queue, (j = i ∧ ch'.peerId = p ∧ started = false) ∨
          (j ≠ i ∧ ∃ peer, w.peers p = some peer ∧ j ∈ peer.dcStream.queue)) :
    Lives w' (tr ++ es) := by
  have hother : ∀ j, j ≠ i → w'.channels j = w.channels j := by
    intro j hj
    rw [hchannels, Function.update_of_ne hj]
  have hself : w'.channels i = some ch' := by rw [hchannels, Function.update_self]
  have hevents : ∀ j, j ≠ i → eventsOf j (tr ++ es) = eventsOf j tr := by
    intro j hj
    rw [eventsOf_append, hes j hj, List.append_nil]
  constructor
  · intro j
    by_cases hj : j = i
    · subst hj
      rw [hself, eventsOf_append]
      exact ⟨started, hlife⟩
    · rw [hother j hj, hevents j hj]
      exact hlives.life j
  · intro j hle
    have hj : j ≠ i := by omega
    rw [hother j hj]
    exact hlives.fresh j (hfresh.trans hle)
  · intro p peer' hpeer'
    obtain ⟨hopen, hnodup, hqueue⟩ := hwaiting p peer' hpeer'
    refine ⟨hopen, hnodup, fun j hj => ?_⟩
    rcases hqueue j hj with ⟨rfl, hp, hstarted⟩ | ⟨hne, peer, hpeer, hmem⟩
    · refine ⟨ch', hself, hp, ?_⟩
      rw [eventsOf_append]
      rwa [hstarted] at hlife
    · rw [hother j hne, hevents j hne]
      exact (hlives.waiting p peer hpeer).2.2 j hmem

theorem peers_setPeer {w : Page PeerID} {p q : PeerID} {peer peer' : Peer}
    (h : (w.setPeer p peer).peers q = some peer') :
    (q = p ∧ peer' = peer) ∨ (q ≠ p ∧ w.peers q = some peer') := by
  by_cases hq : q = p
  · subst hq
    exact Or.inl ⟨rfl, by simpa [Page.setPeer, eq_comm] using h⟩
  · exact Or.inr ⟨hq, by simpa [Page.setPeer, hq] using h⟩

/-- A channel whose tasks have started does not wait. -/
theorem Lives.not_waiting (hlives : Lives w tr) {p : PeerID} {peer : Peer}
    (hpeer : w.peers p = some peer) (hi : w.channels i = none) : i ∉ peer.dcStream.queue := by
  intro hmem
  obtain ⟨ch, hch, -⟩ := (hlives.waiting p peer hpeer).2.2 i hmem
  rw [hi] at hch
  cases hch

theorem Lives.offered (hlives : Lives w tr) {p : PeerID} {peer : Peer}
    (hpeer : w.peers p = some peer) :
    Lives ((w.addChannel (Channel.install ⟨p, .create defaultChannelName, none, none⟩)).setPeer p
      { peer with dc := some w.fresh })
      (tr ++ [.created w.fresh p, .installed w.fresh .connecting]) := by
  have hnone := hlives.fresh w.fresh le_rfl
  obtain ⟨started, hlife⟩ := hlives.life w.fresh
  rw [hnone] at hlife
  have hes : ∀ e ∈ [Event.created w.fresh p, .installed w.fresh .connecting],
      e.channel? = some w.fresh := by simp [Event.channel?]
  refine hlives.change (i := w.fresh) true rfl (Nat.le_succ _) (Nat.lt_succ_self _)
    (fun j hj => eventsOf_eq_nil hes hj) ?_ ?_
  · rw [hlife.of_none.2, eventsOf_eq_self hes]
    exact .offered p
  · intro q peer' hpeer'
    have hold : ∃ peer₀, w.peers q = some peer₀ ∧ peer'.dcStream = peer₀.dcStream := by
      rcases peers_setPeer hpeer' with ⟨rfl, rfl⟩ | ⟨-, hq⟩
      · exact ⟨peer, hpeer, rfl⟩
      · exact ⟨peer', hq, rfl⟩
    obtain ⟨peer₀, hpeer₀, heq⟩ := hold
    obtain ⟨hopen, hnodup, -⟩ := hlives.waiting q peer₀ hpeer₀
    rw [heq]
    refine ⟨hopen, hnodup, fun j hj => Or.inr ⟨fun hji => ?_, peer₀, hpeer₀, hj⟩⟩
    exact hlives.not_waiting hpeer₀ hnone (hji ▸ hj)

theorem Lives.announced (hlives : Lives w tr) {p : PeerID} {peer : Peer}
    (hpeer : w.peers p = some peer) (label : String) (isOpen : Bool) :
    Lives ((w.addChannel ⟨p, ⟨label, if isOpen then .open else .connecting, false⟩, none, none⟩)
      |>.setPeer p { peer with dcStream := peer.dcStream.send w.fresh })
      (tr ++ [.created w.fresh p]) := by
  have hnone := hlives.fresh w.fresh le_rfl
  obtain ⟨started, hlife⟩ := hlives.life w.fresh
  rw [hnone] at hlife
  have hes : ∀ e ∈ [Event.created w.fresh p], e.channel? = some w.fresh := by
    simp [Event.channel?]
  refine hlives.change (i := w.fresh) false rfl (Nat.le_succ _) (Nat.lt_succ_self _)
    (fun j hj => eventsOf_eq_nil hes hj) ?_ ?_
  · rw [hlife.of_none.2, eventsOf_eq_self hes]
    exact .announced p label isOpen
  · intro q peer' hpeer'
    rcases peers_setPeer hpeer' with ⟨rfl, rfl⟩ | ⟨-, hq⟩
    · obtain ⟨hopen, hnodup, -⟩ := hlives.waiting q peer hpeer
      have hqueue : (peer.dcStream.send w.fresh).queue = peer.dcStream.queue ++ [w.fresh] := by
        simp [Unbounded.send, hopen]
      have hnot := hlives.not_waiting hpeer hnone
      refine ⟨(Unbounded.closed_send _ _).trans hopen, ?_, fun j hj => ?_⟩
      · rw [hqueue]
        exact hnodup.append (List.nodup_singleton _) (by simpa using hnot)
      · rw [hqueue] at hj
        rcases List.mem_append.mp hj with hold | hnew
        · exact Or.inr ⟨fun hji => hnot (hji ▸ hold), peer, hpeer, hold⟩
        · exact Or.inl ⟨List.mem_singleton.mp hnew, rfl, rfl⟩
    · obtain ⟨hopen, hnodup, -⟩ := hlives.waiting q peer' hq
      refine ⟨hopen, hnodup, fun j hj => Or.inr ⟨fun hji => ?_, peer', hq, hj⟩⟩
      exact hlives.not_waiting hq hnone (hji ▸ hj)

theorem Lives.taken (hlives : Lives w tr) {p : PeerID} {peer : Peer} {dcStream : Unbounded Nat}
    (hpeer : w.peers p = some peer)
    (hpoll : peer.dcStream.pollNext = .ready (some i, dcStream)) (hch : w.channels i = some ch) :
    Lives (((w.setPeer p { peer with dcStream := dcStream }).setChannel i ch.install).setPeer p
      ⟨some i, dcStream⟩) (tr ++ [.installed i ch.inner.readyState]) := by
  obtain ⟨hqueue, hclosed⟩ := Unbounded.pollNext_some hpoll
  obtain ⟨hopen, hnodup, hwaits⟩ := hlives.waiting p peer hpeer
  have hmem : i ∈ peer.dcStream.queue := by rw [hqueue]; exact List.mem_cons_self
  obtain ⟨ch', hch', hp, hlife⟩ := hwaits i hmem
  obtain rfl : ch = ch' := Option.some.inj (hch.symm.trans hch')
  have hi : i < w.fresh := by
    by_contra hge
    rw [hlives.fresh i (Nat.not_lt.mp hge)] at hch
    cases hch
  have hes : ∀ e ∈ [(Event.installed i ch.inner.readyState : Event PeerID)],
      e.channel? = some i := by simp [Event.channel?]
  refine hlives.change (i := i) true rfl le_rfl hi (fun j hj => eventsOf_eq_nil hes hj)
    ?_ ?_
  · rw [eventsOf_eq_self hes]
    exact .installed hlife
  · intro q peer' hpeer'
    rcases peers_setPeer hpeer' with ⟨rfl, rfl⟩ | ⟨hqp, hq⟩
    · rw [hqueue, List.nodup_cons] at hnodup
      refine ⟨hclosed.trans hopen, hnodup.2, fun j hj => Or.inr ⟨fun hji => ?_, peer, hpeer, ?_⟩⟩
      · exact hnodup.1 (hji ▸ hj)
      · rw [hqueue]
        exact List.mem_cons_of_mem i hj
    · have hq : w.peers q = some peer' := by
        rcases peers_setPeer hq with ⟨heq, -⟩ | ⟨-, hq⟩
        · exact absurd heq hqp
        · exact hq
      obtain ⟨hopen', hnodup', hwaits'⟩ := hlives.waiting q peer' hq
      refine ⟨hopen', hnodup', fun j hj => Or.inr ⟨fun hji => ?_, peer', hq, hj⟩⟩
      -- a channel waits for the peer that it belongs to
      subst hji
      obtain ⟨ch', hch', hq', -⟩ := hwaits' j hj
      obtain rfl : ch = ch' := Option.some.inj (hch.symm.trans hch')
      exact hqp (hq'.symm.trans hp)

/-- A step that one channel has a part in, and that installs nothing. -/
theorem Lives.goesOn (hlives : Lives w tr) (hch : w.channels i = some ch)
    (hchannels : w'.channels = Function.update w.channels i (some ch'))
    (hpeers : w'.peers = w.peers) (hfresh : w'.fresh = w.fresh) (hpeerId : ch'.peerId = ch.peerId)
    (hes : ∀ j, j ≠ i → eventsOf j es = [])
    (hlife : ∀ {started}, Life i (some ch) started (eventsOf i tr) →
      Life i (some ch') started (eventsOf i tr ++ eventsOf i es)) : Lives w' (tr ++ es) := by
  obtain ⟨started, hlived⟩ := hlives.life i
  rw [hch] at hlived
  have hi : i < w.fresh := by
    by_contra hge
    rw [hlives.fresh i (Nat.not_lt.mp hge)] at hch
    cases hch
  refine hlives.change _ hchannels hfresh.ge (hfresh ▸ hi) hes (hlife hlived) ?_
  intro q peer hpeer
  rw [hpeers] at hpeer
  obtain ⟨hopen, hnodup, hwaits⟩ := hlives.waiting q peer hpeer
  refine ⟨hopen, hnodup, fun j hj => ?_⟩
  by_cases hji : j = i
  · subst hji
    obtain ⟨ch₀, hch₀, hp, hlife₀⟩ := hwaits j hj
    obtain rfl : ch = ch₀ := Option.some.inj (hch.symm.trans hch₀)
    exact Or.inl ⟨rfl, hpeerId.trans hp, hlived.started_eq hlife₀⟩
  · exact Or.inr ⟨hji, peer, hpeer, hj⟩

theorem Lives.acts (hlives : Lives w tr) {m : Counters} (hch : w.channels i = some ch)
    (hacts : ch.Acts i w.counters ch' m es) :
    Lives { w.setChannel i ch' with counters := m } (tr ++ es) := by
  refine hlives.goesOn hch rfl rfl rfl hacts.peerId
    (fun j hj => eventsOf_eq_nil hacts.channel? hj) fun hlife => ?_
  rw [eventsOf_eq_self hacts.channel?]
  exact .acts hlife hacts

theorem Lives.sent (hlives : Lives w tr) {m : Counters} (hch : w.channels i = some ch)
    (hopen : ch.inner.readyState = .open) (message : String) :
    Lives { w with counters := m } (tr ++ [.sent i message, .returned (.ok ())]) := by
  refine hlives.goesOn hch ?_ rfl rfl (Eq.refl ch.peerId) (fun j hj => ?_) fun hlife => ?_
  · exact (Function.update_eq_self_iff.mpr hch.symm).symm
  · simp [eventsOf, Event.channel?, Ne.symm hj]
  · have hself : eventsOf i [Event.sent i message, (.returned (.ok ()) : Event PeerID)] =
        [.sent i message] := by simp [eventsOf, Event.channel?]
    rw [hself]
    exact .sent hlife hopen message

theorem readyState_of_sendStr {inner : RtcDataChannel} {m m' : Counters} {message : String}
    {thrown : Option String} (h : inner.sendStr m message thrown = .ok m') :
    inner.readyState = .open ∧ m' = m.countMessage.countBytes message.utf8ByteSize := by
  unfold RtcDataChannel.sendStr RtcDataChannel.sendWith at h
  split at h
  case isTrue => cases h
  case isFalse hopen =>
      split at h
      case h_1 => cases h
      case h_2 =>
          cases h
          exact ⟨not_not.mp hopen, rfl⟩

theorem Lives.step (hlives : Lives w tr) (hstep : w.step a = some (w', es)) :
    Lives w' (tr ++ es) := by
  cases Page.steps_of_step hstep with
  | @newPeer p hnone =>
      refine hlives.keep rfl rfl (fun _ => rfl) fun q peer' hpeer' => ?_
      rcases peers_setPeer hpeer' with ⟨-, rfl⟩ | ⟨-, hq⟩
      · exact Or.inl rfl
      · exact Or.inr ⟨peer', hq, rfl, List.suffix_rfl⟩
  | offered hpeer => exact hlives.offered hpeer
  | announced hpeer => exact hlives.announced hpeer _ _
  | taken hpeer hpoll hch => exact hlives.taken hpeer hpoll hch
  | @ignored p peer i dcStream hpeer hpoll =>
      obtain ⟨hqueue, hclosed⟩ := Unbounded.pollNext_some hpoll
      refine hlives.keep rfl rfl (fun _ => rfl) fun q peer' hpeer' => Or.inr ?_
      rcases peers_setPeer hpeer' with ⟨rfl, rfl⟩ | ⟨-, hq⟩
      · refine ⟨peer, hpeer, hclosed, ?_⟩
        rw [hqueue]
        exact List.suffix_cons i _
      · exact ⟨peer', hq, rfl, List.suffix_rfl⟩
  | unsent =>
      exact hlives.keep rfl rfl (fun _ => rfl) fun q peer hpeer =>
        Or.inr ⟨peer, hpeer, rfl, List.suffix_rfl⟩
  | sent hch hsent => exact hlives.sent hch (readyState_of_sendStr hsent).1 _
  | acts hch hacts => exact hlives.acts hch hacts

theorem lives_of_run {ls : List (Action PeerID)} (hrun : page.Run ls w tr) : Lives w tr := by
  induction hrun with
  | nil => exact lives_init
  | snoc _ hstep ih => exact ih.step hstep

/-- A channel stays on the page, and leads to the same peer. -/
theorem Lives.channel_of_step (hlives : Lives w tr) (hstep : w.step a = some (w', es))
    (hch : w.channels i = some ch) : ∃ ch', w'.channels i = some ch' ∧ ch'.peerId = ch.peerId := by
  have hfresh : i ≠ w.fresh := by
    rintro rfl
    rw [hlives.fresh w.fresh le_rfl] at hch
    cases hch
  have hset : ∀ {j : Nat} {ch' : Channel PeerID}, (j = i → ch'.peerId = ch.peerId) →
      ∃ ch'', Function.update w.channels j (some ch') i = some ch'' ∧ ch''.peerId = ch.peerId := by
    intro j ch' hpeerId
    by_cases hj : j = i
    · subst hj
      exact ⟨ch', Function.update_self .., hpeerId rfl⟩
    · exact ⟨ch, by rw [Function.update_of_ne (Ne.symm hj), hch], rfl⟩
  cases Page.steps_of_step hstep with
  | newPeer | ignored | unsent | sent => exact ⟨ch, hch, rfl⟩
  | offered | announced => exact hset fun hj => absurd hj.symm hfresh
  | @taken p peer j dcStream ch₀ hpeer hpoll hch₀ =>
      refine hset fun hj => ?_
      subst hj
      obtain rfl : ch₀ = ch := Option.some.inj (hch₀.symm.trans hch)
      rfl
  | @acts _ j ch₀ ch' m _ hch₀ hacts =>
      refine hset fun hj => ?_
      subst hj
      obtain rfl : ch₀ = ch := Option.some.inj (hch₀.symm.trans hch)
      exact hacts.peerId

end Lives

end SfRs.Wasm.Channels
