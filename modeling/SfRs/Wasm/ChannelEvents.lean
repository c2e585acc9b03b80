import Mathlib.Algebra.Order.Ring.Nat
import SfRs.Wasm.ChannelLife
/-!
# What the client is told of a channel

Of each channel the client is told the texts that its listener heard, in order and up to
the first item that is no message; and that it opened and then that it closed.  A channel
that is open before its tasks start may be told open a second time, when the browser fires
the event for it.
-/

set_option linter.unusedSectionVars false

namespace SfRs.Wasm.Channels

open SfRs.Lib SfRs.WebRtc

variable {PeerID : Type} [DecidableEq PeerID]

/-- The item that the listener sends for the data. -/
def item : MessageData → Except WebRtc.WebRTCError Message
  | .string s => .ok (.text s)
  | .arrayBuffer bytes => .ok (.binary bytes)
  | .blob | .unknown => .error .dataChannelInvalidDataType

def text? : Message → Option String
  | .text s => some s
  | .binary _ => none

/-- The texts among the items before the first error. -/
def textsOf : List (Except WebRtc.WebRTCError Message) → List String
  | .ok message :: items => (text? message).toList ++ textsOf items
  | .error _ :: _ => []
  | [] => []

/-- The data of the `message` events that the listener heard. -/
def heard (tr : List (Event PeerID)) : List MessageData :=
  tr.filterMap fun
    | .dispatched _ data true => some data
    | _ => none

/-- The data of all `message` events. -/
def dispatched (tr : List (Event PeerID)) : List MessageData :=
  tr.filterMap fun
    | .dispatched _ data _ => some data
    | _ => none

/-- The texts that the client is told. -/
def toldTexts (tr : List (Event PeerID)) : List String :=
  tr.filterMap fun
    | .notified _ (.dataChannelMessage _ message) => some message
    | _ => none

/-- The states that the client is told. -/
def toldStates (tr : List (Event PeerID)) : List (ClientEvent PeerID) :=
  tr.filterMap fun
    | .notified _ (.dataChannelMessage _ _) => none
    | .notified _ event => some event
    | _ => none

section Projections

variable (tr es : List (Event PeerID))

@[simp] theorem heard_append : heard (tr ++ es) = heard tr ++ heard es :=
  List.filterMap_append

@[simp] theorem dispatched_append : dispatched (tr ++ es) = dispatched tr ++ dispatched es :=
  List.filterMap_append

@[simp] theorem toldTexts_append : toldTexts (tr ++ es) = toldTexts tr ++ toldTexts es :=
  List.filterMap_append

@[simp] theorem toldStates_append : toldStates (tr ++ es) = toldStates tr ++ toldStates es :=
  List.filterMap_append

end Projections

section Tasks

variable (i : Nat) (p : PeerID) (state : RtcDataChannelState) (message : Message)

/-- The tasks hear nothing. -/
theorem heard_notified (events : List (ClientEvent PeerID)) :
    heard (events.map (.notified i)) = [] := by
  simp [heard, List.filterMap_map]

theorem toldTexts_messageEvent :
    toldTexts ((messageEvent p message).toList.map (.notified i)) = (text? message).toList := by
  cases message <;> rfl

theorem toldTexts_stateEvent :
    toldTexts ((stateEvent p state).toList.map (.notified i)) = [] := by
  cases state <;> rfl

theorem toldStates_messageEvent :
    toldStates ((messageEvent p message).toList.map (.notified i)) = [] := by
  cases message <;> rfl

theorem toldStates_stateEvent :
    toldStates ((stateEvent p state).toList.map (.notified i)) = (stateEvent p state).toList := by
  cases state <;> rfl

end Tasks

theorem receive_item (m : Counters) (data : MessageData) : (receive m data).2 = item data := by
  cases data <;> rfl

theorem textsOf_ok_append (taken : List Message)
    (items : List (Except WebRtc.WebRTCError Message)) :
    textsOf (taken.map .ok ++ items) = taken.filterMap text? ++ textsOf items := by
  induction taken with
  | nil => rfl
  | cons message taken ih =>
      have hhead : (message :: taken).filterMap text? =
          (text? message).toList ++ taken.filterMap text? := by
        cases message <;> rfl
      rw [hhead, List.append_assoc, ← ih]
      rfl

/-! ## Whom the client is told of -/

def ClientEvent.peerId : ClientEvent PeerID → PeerID
  | .dataChannelOpen p | .dataChannelClose p | .dataChannelMessage p _ => p

theorem Channel.Acts.peerId_notified {i : Nat} {ch ch' : Channel PeerID} {m m' : Counters}
    {es : List (Event PeerID)} (hacts : ch.Acts i m ch' m' es) (event : ClientEvent PeerID)
    (hmem : .notified i event ∈ es) : event.peerId = ch.peerId := by
  cases hacts with
  | @stateTaken _ _ state =>
      obtain ⟨e, he, heq⟩ := List.mem_map.mp hmem
      cases heq
      cases state <;> simp [stateEvent] at he <;> exact he ▸ rfl
  | @messageTaken _ _ message =>
      obtain ⟨e, he, heq⟩ := List.mem_map.mp hmem
      cases heq
      cases message <;> simp [messageEvent] at he
      exact he ▸ rfl
  | opened | closing | closed | heard | missed | statesEnded | messagesFailed | messagesEnded =>
      simp at hmem

theorem peerId_of_notified {i : Nat} {ch? : Option (Channel PeerID)} {started : Bool}
    {tr : List (Event PeerID)} (hlife : Life i ch? started tr) :
    ∀ ch, ch? = some ch → ∀ event, .notified i event ∈ tr → event.peerId = ch.peerId := by
  induction hlife with
  | absent => exact fun ch hch => by cases hch
  | offered | announced => exact fun ch _ event hmem => by simp at hmem
  | installed _ ih =>
      intro ch hch event hmem
      cases hch
      exact ih _ rfl event (by simpa using hmem)
  | sent _ _ _ ih => exact fun ch hch event hmem => ih ch hch event (by simpa using hmem)
  | acts _ hacts ih =>
      intro ch hch event hmem
      cases hch
      rcases List.mem_append.mp hmem with hold | hnew
      · exact (ih _ rfl event hold).trans hacts.peerId.symm
      · exact (hacts.peerId_notified event hnew).trans hacts.peerId.symm

/-! ## Messages -/

/-- What the task of `message_stream` has done.  The stream is never closed, so the task
ends at an error only. -/
structure Messages (ch : Channel PeerID) (started : Bool) (tr : List (Event PeerID)) : Prop where
  waiting : started = false → ch.messages = none ∧ heard tr = [] ∧ toldTexts tr = []
  reading : ∀ c, ch.messages = some c → c.closed = false ∧ ∃ taken : List Message,
    c.Follows ((heard tr).map item) (taken.map .ok) ∧ toldTexts tr = taken.filterMap text?
  ended : started = true → ch.messages = none → toldTexts tr = textsOf ((heard tr).map item) ∧
    ∃ data ∈ heard tr, ∃ e, item data = .error e

section Messages

variable {i : Nat} {ch ch' : Channel PeerID} {m m' : Counters} {started : Bool}
  {tr es : List (Event PeerID)}

/-- A step that neither hears nor tells. -/
theorem Messages.keep (hmessages : Messages ch started tr) (hch : ch'.messages = ch.messages)
    (hheard : heard es = []) (htold : toldTexts es = []) : Messages ch' started (tr ++ es) := by
  constructor
  · rw [hch, heard_append, toldTexts_append, hheard, htold, List.append_nil, List.append_nil]
    exact hmessages.waiting
  · rw [hch, heard_append, toldTexts_append, hheard, htold, List.append_nil, List.append_nil]
    exact hmessages.reading
  · rw [hch, heard_append, toldTexts_append, hheard, htold, List.append_nil, List.append_nil]
    exact hmessages.ended

theorem Messages.started_of_some (hmessages : Messages ch started tr)
    {c : Unbounded (Except WebRtc.WebRTCError Message)} (hc : ch.messages = some c) :
    started = true := by
  by_contra hnot
  rw [(hmessages.waiting (Bool.eq_false_of_not_eq_true hnot)).1] at hc
  cases hc

theorem Messages.acts (hmessages : Messages ch started tr) (hacts : ch.Acts i m ch' m' es) :
    Messages ch' started (tr ++ es) := by
  cases hacts with
  | opened | closing | closed | missed | statesEnded => exact hmessages.keep rfl rfl rfl
  | stateTaken =>
      exact hmessages.keep rfl (heard_notified _ _) (toldTexts_stateEvent _ _ _)
  | @heard c hc data =>
      obtain ⟨hopen, taken, hfollows, htold⟩ := hmessages.reading c hc
      have hstarted := hmessages.started_of_some hc
      constructor
      · exact fun hnot => absurd hstarted (by rw [hnot]; simp)
      · rintro c' hc'
        cases hc'
        refine ⟨(Unbounded.closed_send _ _).trans hopen, taken, ?_, ?_⟩
        · rw [heard_append, List.map_append, receive_item]
          exact hfollows.send hopen (item data)
        · rw [toldTexts_append, htold]
          exact List.append_nil _
      · intro _ hnone
        cases hnone
  | @messageTaken c c' message hc hpoll =>
      obtain ⟨hopen, taken, hfollows, htold⟩ := hmessages.reading c hc
      have hstarted := hmessages.started_of_some hc
      constructor
      · exact fun hnot => absurd hstarted (by rw [hnot]; simp)
      · rintro c₁ hc₁
        cases hc₁
        refine ⟨(Unbounded.pollNext_some hpoll).2.trans hopen, taken ++ [message], ?_, ?_⟩
        · rw [heard_append, heard_notified, List.append_nil, List.map_append]
          exact hfollows.poll hpoll
        · rw [toldTexts_append, toldTexts_messageEvent, htold, List.filterMap_append]
          cases message <;> rfl
      · intro _ hnone
        cases hnone
  | @messagesFailed c c' e hc hpoll =>
      obtain ⟨-, taken, hfollows, htold⟩ := hmessages.reading c hc
      have hstarted := hmessages.started_of_some hc
      have hqueue := (Unbounded.pollNext_some hpoll).1
      have hitems : (heard tr).map item = taken.map .ok ++ .error e :: c'.queue := by
        rw [← hqueue]
        exact hfollows
      rw [List.append_nil]
      constructor
      · exact fun hnot => absurd hstarted (by rw [hnot]; simp)
      · rintro c₁ hc₁
        cases hc₁
      · intro _ _
        refine ⟨?_, ?_⟩
        · rw [hitems, textsOf_ok_append, htold]
          exact (List.append_nil _).symm
        · have hmem : Except.error e ∈ (heard tr).map item := by rw [hitems]; simp
          obtain ⟨data, hdata, he⟩ := List.mem_map.mp hmem
          exact ⟨data, hdata, e, he⟩
  | @messagesEnded c c' hc hpoll =>
      have hopen := (hmessages.reading c hc).1
      rw [(Unbounded.pollNext_none hpoll).2] at hopen
      cases hopen

theorem messages_install (ch : Channel PeerID) (hheard : heard tr = [])
    (htold : toldTexts tr = []) : Messages ch.install true tr := by
  constructor
  · intro hnot
    cases hnot
  · rintro c hc
    cases hc
    exact ⟨rfl, [], by rw [hheard]; rfl, by rw [htold]; rfl⟩
  · intro _ hnone
    cases hnone

theorem messages_of_life {ch? : Option (Channel PeerID)} (hlife : Life i ch? started tr) :
    ∀ ch, ch? = some ch → Messages ch started tr := by
  induction hlife with
  | absent => exact fun ch hch => by cases hch
  | offered p =>
      intro ch hch
      cases hch
      exact messages_install _ rfl rfl
  | announced =>
      intro ch hch
      cases hch
      constructor
      · exact fun _ => ⟨rfl, rfl, rfl⟩
      · exact fun c hc => by cases hc
      · exact fun hstarted => by cases hstarted
  | installed _ ih =>
      intro ch hch
      cases hch
      obtain ⟨-, hheard, htold⟩ := (ih _ rfl).waiting rfl
      refine messages_install _ ?_ ?_
      · rw [heard_append, hheard]
        rfl
      · rw [toldTexts_append, htold]
        rfl
  | sent _ _ _ ih =>
      intro ch hch
      cases hch
      exact (ih _ rfl).keep rfl rfl rfl
  | acts _ hacts ih =>
      intro ch hch
      cases hch
      exact (ih _ rfl).acts hacts

/-- The listener hears one stretch of what is dispatched: it misses what comes before the
tasks start, and what comes after their end. -/
structure Hears (i : Nat) (ch : Channel PeerID) (started : Bool) (tr : List (Event PeerID))
    (before after : List MessageData) : Prop where
  total : dispatched tr = before ++ heard tr ++ after
  waiting : started = false → heard tr = [] ∧ after = []
  reading : ∀ c, ch.messages = some c → after = []
  missed : before ≠ [] → ∃ data, .dispatched i data false ∈ tr

theorem Hears.keep {before after : List MessageData} (hhears : Hears i ch started tr before after)
    (hch : ∀ c, ch'.messages = some c → ∃ c, ch.messages = some c)
    (hdispatched : dispatched es = []) (hheard : heard es = []) :
    Hears i ch' started (tr ++ es) before after := by
  constructor
  · rw [dispatched_append, heard_append, hdispatched, hheard, List.append_nil, List.append_nil]
    exact hhears.total
  · rw [heard_append, hheard, List.append_nil]
    exact hhears.waiting
  · intro c hc
    obtain ⟨c', hc'⟩ := hch c hc
    exact hhears.reading c' hc'
  · intro hne
    obtain ⟨data, hmem⟩ := hhears.missed hne
    exact ⟨data, List.mem_append_left _ hmem⟩

theorem dispatched_notified (events : List (ClientEvent PeerID)) :
    dispatched (events.map (.notified i)) = [] := by
  simp [dispatched, List.filterMap_map]

theorem Hears.acts {before after : List MessageData} (hhears : Hears i ch started tr before after)
    (hacts : ch.Acts i m ch' m' es) (hmessages : Messages ch started tr) :
    ∃ before' after', Hears i ch' started (tr ++ es) before' after' := by
  cases hacts with
  | opened | closing | closed | statesEnded =>
      exact ⟨_, _, hhears.keep (fun c hc => ⟨c, hc⟩) rfl rfl⟩
  | stateTaken =>
      exact ⟨_, _, hhears.keep (fun c hc => ⟨c, hc⟩) (dispatched_notified _) (heard_notified _ _)⟩
  | messageTaken hc =>
      exact ⟨_, _, hhears.keep (fun _ _ => ⟨_, hc⟩) (dispatched_notified _) (heard_notified _ _)⟩
  | messagesFailed | messagesEnded =>
      exact ⟨_, _, hhears.keep (fun c hc => by cases hc) rfl rfl⟩
  | @heard c hc data =>
      have hafter := hhears.reading c hc
      subst hafter
      refine ⟨before, [], ?_, ?_, fun _ _ => rfl, ?_⟩
      · rw [dispatched_append, heard_append, hhears.total, List.append_nil, List.append_nil,
          List.append_assoc]
        rfl
      · intro hwaiting
        rw [(hmessages.waiting hwaiting).1] at hc
        cases hc
      · intro hne
        obtain ⟨d, hmem⟩ := hhears.missed hne
        exact ⟨d, List.mem_append_left _ hmem⟩
  | missed hnone data =>
      cases started with
      | false =>
          obtain ⟨hheard, rfl⟩ := hhears.waiting rfl
          have hdispatched := hhears.total
          rw [hheard, List.append_nil, List.append_nil] at hdispatched
          refine ⟨before ++ [data], [], ?_, ?_, fun _ _ => rfl, fun _ => ⟨data, by simp⟩⟩
          · rw [dispatched_append, heard_append, hdispatched, hheard]
            simp [dispatched, heard]
          · intro _
            rw [heard_append, hheard]
            exact ⟨rfl, rfl⟩
      | true =>
          refine ⟨before, after ++ [data], ?_, (fun hwaiting => by cases hwaiting), ?_, ?_⟩
          · rw [dispatched_append, heard_append, hhears.total, List.append_assoc]
            simp [dispatched, heard]
          · intro c hc
            rw [hnone] at hc
            cases hc
          · intro hne
            obtain ⟨d, hmem⟩ := hhears.missed hne
            exact ⟨d, List.mem_append_left _ hmem⟩

theorem hears_of_life {ch? : Option (Channel PeerID)} (hlife : Life i ch? started tr) :
    ∀ ch, ch? = some ch → ∃ before after, Hears i ch started tr before after := by
  induction hlife with
  | absent => exact fun ch hch => by cases hch
  | offered p =>
      intro ch hch
      cases hch
      exact ⟨[], [], rfl, fun _ => ⟨rfl, rfl⟩, fun _ _ => rfl, fun h => absurd rfl h⟩
  | announced =>
      intro ch hch
      cases hch
      exact ⟨[], [], rfl, fun _ => ⟨rfl, rfl⟩, fun _ _ => rfl, fun h => absurd rfl h⟩
  | installed hlife ih =>
      intro ch hch
      cases hch
      obtain ⟨before, after, hhears⟩ := ih _ rfl
      obtain ⟨-, hafter⟩ := hhears.waiting rfl
      subst hafter
      refine ⟨before, [], ?_, (fun hwaiting => by cases hwaiting), fun _ _ => rfl, fun hne => ?_⟩
      · rw [dispatched_append, heard_append, hhears.total]
        simp [dispatched, heard]
      · obtain ⟨d, hmem⟩ := hhears.missed hne
        exact ⟨d, List.mem_append_left _ hmem⟩
  | sent _ _ _ ih =>
      intro ch hch
      cases hch
      obtain ⟨before, after, hhears⟩ := ih _ rfl
      exact ⟨before, after, hhears.keep (fun c hc => ⟨c, hc⟩) rfl rfl⟩
  | acts hlife hacts ih =>
      intro ch hch
      cases hch
      obtain ⟨before, after, hhears⟩ := ih _ rfl
      exact hhears.acts hacts (messages_of_life hlife _ rfl)

theorem Messages.told_le_heard (hmessages : Messages ch started tr) :
    toldTexts tr <+: textsOf ((heard tr).map item) := by
  cases hc : ch.messages with
  | none =>
      cases started with
      | false =>
          rw [(hmessages.waiting rfl).2.2]
          exact List.nil_prefix
      | true => rw [(hmessages.ended rfl hc).1]
  | some c =>
      obtain ⟨-, taken, hfollows, htold⟩ := hmessages.reading c hc
      rw [htold, hfollows, textsOf_ok_append]
      exact List.prefix_append _ _

/-- A task that has caught up has told all. -/
theorem Messages.eq_of_caughtUp (hmessages : Messages ch started tr)
    (hqueue : ∀ c, ch.messages = some c → c.queue = []) :
    toldTexts tr = textsOf ((heard tr).map item) := by
  cases hc : ch.messages with
  | none =>
      cases started with
      | false =>
          obtain ⟨-, hheard, htold⟩ := hmessages.waiting rfl
          rw [hheard, htold]
          rfl
      | true => exact (hmessages.ended rfl hc).1
  | some c =>
      obtain ⟨-, taken, hfollows, htold⟩ := hmessages.reading c hc
      rw [htold, hfollows, hqueue c hc, textsOf_ok_append]
      exact (List.append_nil _).symm

theorem textsOf_strings (texts : List String) :
    textsOf ((texts.map MessageData.string).map item) = texts := by
  induction texts with
  | nil => rfl
  | cons text texts ih => exact congrArg (text :: ·) ih

/-- Where only texts arrive, the listener hears all that come once its tasks have started. -/
theorem Hears.strings {before after : List MessageData} {texts : List String}
    (hhears : Hears i ch started tr before after) (hmessages : Messages ch started tr)
    (htexts : dispatched tr = texts.map .string) :
    ∃ lost told, texts = lost ++ told ∧ before = lost.map .string ∧
      heard tr = told.map .string := by
  have htotal := htexts.symm.trans hhears.total
  obtain ⟨arrived, late, rfl, harrived, hlate⟩ := List.map_eq_append_iff.mp htotal
  obtain ⟨lost, told, rfl, hlost, htold⟩ := List.map_eq_append_iff.mp harrived
  have hafter : after = [] := by
    cases hc : ch.messages with
    | some c => exact hhears.reading c hc
    | none =>
        cases started with
        | false => exact (hhears.waiting rfl).2
        | true =>
            obtain ⟨-, data, hdata, error, herror⟩ := hmessages.ended rfl hc
            rw [← htold] at hdata
            obtain ⟨text, -, rfl⟩ := List.mem_map.mp hdata
            cases herror
  rw [hafter, List.map_eq_nil_iff] at hlate
  exact ⟨lost, told, by rw [hlate, List.append_nil], hlost.symm, htold.symm⟩

end Messages

/-! ## States -/

/-- The states that the stream of a channel accepted, when its tasks started in `state`:
`opened` tells whether it was announced open since, and `ended` whether it was closed. -/
def acceptedStates (state : RtcDataChannelState) (opened ended : Bool) :
    List RtcDataChannelState :=
  state :: (if opened then [.open] else []) ++ (if ended then [.closed] else [])

/-- What the task of `state_stream` has done. -/
structure States (ch : Channel PeerID) (tr : List (Event PeerID)) (state : RtcDataChannelState)
    (opened ended : Bool) (taken : List RtcDataChannelState) : Prop where
  told : toldStates tr = taken.filterMap (stateEvent ch.peerId)
  reading : ∀ c, ch.states = some c →
    c.Follows (acceptedStates state opened ended) taken ∧ c.closed = ended
  finished : ch.states = none → taken = acceptedStates state opened ended ∧ ended = true
  announced : opened = true → ch.inner.announced = true ∧ (state = .connecting ∨ state = .open)
  closed_iff : ch.inner.readyState = .closed ↔ (ended = true ∨ state = .closed)
  once : ended = true → state ≠ .closed
  late : state = .closing → ch.inner.readyState = .closing ∨ ch.inner.readyState = .closed

section States

variable {i : Nat} {ch ch' : Channel PeerID} {m m' : Counters} {started opened ended : Bool}
  {tr es : List (Event PeerID)} {state : RtcDataChannelState} {taken : List RtcDataChannelState}

theorem announceOpen_ok {inner inner' : RtcDataChannel} (h : inner.announceOpen = some inner') :
    (inner.readyState = .connecting ∨ inner.readyState = .open) ∧ inner.announced = false ∧
      inner'.readyState = .open ∧ inner'.announced = true := by
  unfold RtcDataChannel.announceOpen at h
  split at h
  case h_1 hstate hannounced =>
      cases h
      exact ⟨Or.inl hstate, hannounced, rfl, rfl⟩
  case h_2 hstate hannounced =>
      cases h
      exact ⟨Or.inr hstate, hannounced, rfl, rfl⟩
  case h_3 => cases h

theorem announceClosed_ok {inner inner' : RtcDataChannel}
    (h : inner.announceClosed = some inner') :
    inner.readyState ≠ .closed ∧ inner'.readyState = .closed ∧
      inner'.announced = inner.announced := by
  unfold RtcDataChannel.announceClosed at h
  split at h
  case isTrue => cases h
  case isFalse hne =>
      cases h
      exact ⟨hne, rfl, rfl⟩

theorem close_spec (inner : RtcDataChannel) :
    (inner.close.readyState = .closed ↔ inner.readyState = .closed) ∧
      inner.close.announced = inner.announced ∧
      (inner.readyState = .closing → inner.close.readyState = .closing) := by
  unfold RtcDataChannel.close
  split
  all_goals simp_all

/-- The stream of a channel that is not closed is still read. -/
theorem States.reading_of_not_closed (hstates : States ch tr state opened ended taken)
    (hopen : ch.inner.readyState ≠ .closed) :
    ended = false ∧ state ≠ .closed ∧ ∃ c, ch.states = some c := by
  have hended : ended = false := by
    by_contra hnot
    exact hopen (hstates.closed_iff.mpr (Or.inl (Bool.eq_true_of_not_eq_false hnot)))
  refine ⟨hended, fun hstate => hopen (hstates.closed_iff.mpr (Or.inr hstate)), ?_⟩
  cases hc : ch.states with
  | some c => exact ⟨c, rfl⟩
  | none =>
      rw [(hstates.finished hc).2] at hended
      cases hended

/-- A step that leaves the channel and its stream of states alone. -/
theorem States.keep (hstates : States ch tr state opened ended taken)
    (hpeerId : ch'.peerId = ch.peerId) (hinner : ch'.inner = ch.inner)
    (hch : ch'.states = ch.states) (htold : toldStates es = []) :
    States ch' (tr ++ es) state opened ended taken := by
  constructor
  · rw [toldStates_append, htold, List.append_nil, hpeerId]
    exact hstates.told
  · rw [hch]
    exact hstates.reading
  · rw [hch]
    exact hstates.finished
  · rw [hinner]
    exact hstates.announced
  · rw [hinner]
    exact hstates.closed_iff
  · exact hstates.once
  · rw [hinner]
    exact hstates.late

theorem States.announceOpen (hstates : States ch tr state opened ended taken)
    {inner : RtcDataChannel}
    (hopen : ch.inner.announceOpen = some inner) :
    States { ch with inner := inner, states := ch.states.map onOpen } (tr ++ [.opened i]) state
      true ended taken := by
  obtain ⟨hbefore, hannounced, hafter, hannounced'⟩ := announceOpen_ok hopen
  have hnot : ch.inner.readyState ≠ .closed := by
    rcases hbefore with h | h <;> rw [h] <;> simp
  obtain ⟨rfl, hstate, c, hc⟩ := hstates.reading_of_not_closed hnot
  obtain ⟨hfollows, hclosed⟩ := hstates.reading c hc
  have hfirst : opened = false := by
    by_contra htwice
    rw [(hstates.announced (Bool.eq_true_of_not_eq_false htwice)).1] at hannounced
    cases hannounced
  subst hfirst
  constructor
  · rw [toldStates_append]
    exact (List.append_nil _).trans hstates.told
  · intro c' hc'
    rw [hc] at hc'
    cases hc'
    exact ⟨hfollows.send hclosed .open, (Unbounded.closed_send _ _).trans hclosed⟩
  · intro hnone
    rw [hc] at hnone
    cases hnone
  · intro _
    refine ⟨hannounced', ?_⟩
    cases state with
    | connecting => exact Or.inl rfl
    | «open» => exact Or.inr rfl
    | closing =>
        rcases hstates.late rfl with h | h <;> rw [h] at hbefore <;> simp at hbefore
    | closed => exact absurd rfl hstate
  · simp [hafter, hstate]
  · exact hstates.once
  · intro hclosing
    rcases hstates.late hclosing with h | h <;> rw [h] at hbefore <;> simp at hbefore

theorem States.announceClosed (hstates : States ch tr state opened ended taken)
    {inner : RtcDataChannel}
    (hclosed : ch.inner.announceClosed = some inner) :
    States { ch with inner := inner, states := ch.states.map (onClose inner) }
      (tr ++ [.closed i]) state opened true taken := by
  obtain ⟨hnot, hafter, hannounced⟩ := announceClosed_ok hclosed
  obtain ⟨rfl, hstate, c, hc⟩ := hstates.reading_of_not_closed hnot
  obtain ⟨hfollows, hopen⟩ := hstates.reading c hc
  constructor
  · rw [toldStates_append]
    exact (List.append_nil _).trans hstates.told
  · intro c' hc'
    rw [hc] at hc'
    cases hc'
    have haccepted : acceptedStates state opened true =
        acceptedStates state opened false ++ [.closed] := by simp [acceptedStates]
    have honClose : onClose inner c = (c.send .closed).closeChannel := by
      simp [onClose, hafter]
    rw [haccepted, honClose]
    exact ⟨(hfollows.send hopen .closed).closeChannel, rfl⟩
  · intro hnone
    rw [hc] at hnone
    cases hnone
  · intro h
    rw [hannounced]
    exact hstates.announced h
  · simp [hafter]
  · exact fun _ => hstate
  · exact fun _ => Or.inr hafter

theorem States.close (hstates : States ch tr state opened ended taken) :
    States { ch with inner := ch.inner.close } tr state opened ended taken := by
  obtain ⟨hiff, hannounced, hclosing⟩ := close_spec ch.inner
  constructor
  · exact hstates.told
  · exact hstates.reading
  · exact hstates.finished
  · intro h
    rw [hannounced]
    exact hstates.announced h
  · exact hiff.trans hstates.closed_iff
  · exact hstates.once
  · exact fun h => (hstates.late h).imp hclosing hiff.mpr

theorem States.acts (hstates : States ch tr state opened ended taken)
    (hacts : ch.Acts i m ch' m' es) :
    ∃ opened' ended' taken', States ch' (tr ++ es) state opened' ended' taken' := by
  cases hacts with
  | opened hopen => exact ⟨_, _, _, hstates.announceOpen hopen⟩
  | closed hclosed => exact ⟨_, _, _, hstates.announceClosed hclosed⟩
  | closing =>
      rw [List.append_nil]
      exact ⟨_, _, _, hstates.close⟩
  | heard | missed | messagesFailed | messagesEnded =>
      exact ⟨_, _, _, hstates.keep rfl rfl rfl rfl⟩
  | messageTaken =>
      exact ⟨_, _, _, hstates.keep rfl rfl rfl (toldStates_messageEvent _ _ _)⟩
  | @stateTaken c c' s hc hpoll =>
      obtain ⟨hfollows, hclosed⟩ := hstates.reading c hc
      refine ⟨opened, ended, taken ++ [s], ?_⟩
      constructor
      · rw [toldStates_append, toldStates_stateEvent, hstates.told, List.filterMap_append]
        cases s <;> rfl
      · intro c₁ hc₁
        cases hc₁
        exact ⟨hfollows.poll hpoll, (Unbounded.pollNext_some hpoll).2.trans hclosed⟩
      · intro hnone
        cases hnone
      · exact hstates.announced
      · exact hstates.closed_iff
      · exact hstates.once
      · exact hstates.late
  | @statesEnded c c' hc hpoll =>
      obtain ⟨hfollows, hclosed⟩ := hstates.reading c hc
      obtain ⟨hqueue, hended⟩ := Unbounded.pollNext_none hpoll
      refine ⟨opened, ended, taken, ?_⟩
      rw [List.append_nil]
      constructor
      · exact hstates.told
      · intro c₁ hc₁
        cases hc₁
      · intro _
        have hall : acceptedStates state opened ended = taken ++ c.queue := hfollows
        rw [hqueue, List.append_nil] at hall
        exact ⟨hall.symm, hclosed.symm.trans hended⟩
      · exact hstates.announced
      · exact hstates.closed_iff
      · exact hstates.once
      · exact hstates.late

/-- A channel whose tasks start now. -/
theorem states_install (ch : Channel PeerID) (htold : toldStates tr = []) :
    States ch.install tr ch.inner.readyState false false [] := by
  constructor
  · rw [htold]
    rfl
  · rintro c hc
    cases hc
    exact ⟨rfl, rfl⟩
  · intro hnone
    cases hnone
  · intro h
    cases h
  · simp [Channel.install]
  · intro h
    cases h
  · exact Or.inl

/-- A channel whose tasks have not started hears and tells nothing. -/
theorem Channel.Acts.waiting (hacts : ch.Acts i m ch' m' es)
    (hwaiting : ch.states = none ∧ ch.messages = none) :
    toldStates es = [] ∧ ch'.states = none ∧ ch'.messages = none := by
  obtain ⟨hstates, hmessages⟩ := hwaiting
  cases hacts with
  | opened | closed => exact ⟨rfl, by rw [hstates]; rfl, hmessages⟩
  | closing | missed => exact ⟨rfl, hstates, hmessages⟩
  | stateTaken hc | statesEnded hc => simp [hstates] at hc
  | heard hc | messageTaken hc | messagesFailed hc | messagesEnded hc => simp [hmessages] at hc

theorem toldStates_of_waiting {ch? : Option (Channel PeerID)} (hlife : Life i ch? started tr)
    (hwaiting : started = false) : toldStates tr = [] ∧ ∀ ch, ch? = some ch → ch.states = none ∧
      ch.messages = none := by
  induction hlife with
  | absent => exact ⟨rfl, fun ch hch => by cases hch⟩
  | offered | installed => cases hwaiting
  | announced =>
      refine ⟨rfl, fun ch hch => ?_⟩
      cases hch
      exact ⟨rfl, rfl⟩
  | sent _ _ _ ih =>
      obtain ⟨htold, hch⟩ := ih hwaiting
      refine ⟨?_, hch⟩
      rw [toldStates_append, htold]
      rfl
  | acts _ hacts ih =>
      obtain ⟨htold, hch⟩ := ih hwaiting
      obtain ⟨hes, hch'⟩ := hacts.waiting (hch _ rfl)
      refine ⟨?_, fun ch hsome => ?_⟩
      · rw [toldStates_append, htold, hes]
        rfl
      · cases hsome
        exact hch'

theorem states_of_life {ch? : Option (Channel PeerID)} (hlife : Life i ch? started tr)
    (hstarted : started = true) : ∃ ch state opened ended taken, ch? = some ch ∧
      .installed i state ∈ tr ∧ States ch tr state opened ended taken := by
  induction hlife with
  | absent | announced => cases hstarted
  | offered p =>
      exact ⟨_, _, _, _, _, rfl, by simp [RtcDataChannel.create], states_install _ rfl⟩
  | installed hlife ih =>
      refine ⟨_, _, _, _, _, rfl, by simp, states_install _ ?_⟩
      rw [toldStates_append, (toldStates_of_waiting hlife rfl).1]
      rfl
  | sent _ _ _ ih =>
      obtain ⟨ch, state, opened, ended, taken, hch, hmem, hstates⟩ := ih hstarted
      exact ⟨ch, state, opened, ended, taken, hch, List.mem_append_left _ hmem,
        hstates.keep rfl rfl rfl rfl⟩
  | acts _ hacts ih =>
      obtain ⟨ch, state, opened, ended, taken, hch, hmem, hstates⟩ := ih hstarted
      cases hch
      obtain ⟨opened', ended', taken', hstates'⟩ := hstates.acts hacts
      exact ⟨_, state, opened', ended', taken', rfl, List.mem_append_left _ hmem, hstates'⟩

theorem filterMap_acceptedStates (p : PeerID) (state : RtcDataChannelState)
    (opened ended : Bool) : (acceptedStates state opened ended).filterMap (stateEvent p) =
      (stateEvent p state).toList ++ (if opened then [.dataChannelOpen p] else []) ++
        (if ended then [.dataChannelClose p] else []) := by
  cases state <;> cases opened <;> cases ended <;> rfl

/-- What the accepted states tell the client. -/
theorem told_acceptedStates (p : PeerID) (state : RtcDataChannelState) (opened ended : Bool)
    (hopened : opened = true → state = .connecting ∨ state = .open)
    (honce : ended = true → state ≠ .closed) :
    ∃ n k, (acceptedStates state opened ended).filterMap (stateEvent p) =
        List.replicate n (.dataChannelOpen p) ++ List.replicate k (.dataChannelClose p) ∧
      n ≤ (if state = .open then 2 else 1) ∧ k ≤ 1 ∧ (k = 1 ↔ ended = true ∨ state = .closed) := by
  rw [filterMap_acceptedStates]
  cases state with
  | connecting =>
      refine ⟨opened.toNat, ended.toNat, ?_⟩
      cases opened <;> cases ended <;> simp [stateEvent]
  | «open» =>
      refine ⟨opened.toNat + 1, ended.toNat, ?_⟩
      cases opened <;> cases ended <;> simp [stateEvent]
  | closing =>
      obtain rfl : opened = false := by simpa using hopened
      refine ⟨0, ended.toNat, ?_⟩
      cases ended <;> simp [stateEvent]
  | closed =>
      obtain rfl : opened = false := by simpa using hopened
      obtain rfl : ended = false := by simpa using honce
      exact ⟨0, 1, by simp [stateEvent]⟩

/-- The prefixes of some of one and then some of another. -/
theorem prefix_replicate {α : Type*} {a b : α} {n k : Nat} {xs : List α}
    (h : xs <+: List.replicate n a ++ List.replicate k b) :
    ∃ n' k', xs = List.replicate n' a ++ List.replicate k' b ∧ n' ≤ n ∧ k' ≤ k := by
  rw [List.prefix_iff_eq_take] at h
  refine ⟨min xs.length n, min (xs.length - n) k, ?_, Nat.min_le_right _ _, Nat.min_le_right _ _⟩
  rw [List.take_append, List.take_replicate, List.take_replicate, List.length_replicate] at h
  exact h

end States

/-! ## Counters -/

def bytes : MessageData → Nat
  | .string s => s.utf8ByteSize
  | .arrayBuffer bytes => bytes.length
  | .blob | .unknown => 0

/-- The bytes of a message that is sent or heard. -/
def Event.counted : Event PeerID → Option Nat
  | .sent _ message => some message.utf8ByteSize
  | .dispatched _ data true => some (bytes data)
  | _ => none

/-- The bytes of the messages sent and heard, on any channel. -/
def counted (tr : List (Event PeerID)) : List Nat := tr.filterMap Event.counted

/-- The counters after the messages. -/
def countersOf (messages : List Nat) : Counters :=
  ⟨UInt64.ofNat messages.length, UInt64.ofNat messages.sum⟩

section Counters

variable {i : Nat} {w w' : Page PeerID} {a : Action PeerID} {ch ch' : Channel PeerID}
  {m m' : Counters} {tr es : List (Event PeerID)} {messages : List Nat}

theorem countersOf_append_singleton (messages : List Nat) (n : Nat) :
    countersOf (messages ++ [n]) = ((countersOf messages).countMessage).countBytes n := by
  simp [countersOf, Counters.countMessage, Counters.countBytes]

theorem receive_counters (m : Counters) (data : MessageData) :
    (receive m data).1 = m.countMessage.countBytes (bytes data) := by
  cases data <;> simp [receive, bytes, Counters.countBytes]

theorem counted_notified (events : List (ClientEvent PeerID)) :
    counted (events.map (.notified i)) = [] := by
  simp [counted, List.filterMap_map, Event.counted]

theorem Channel.Acts.counters (hacts : ch.Acts i (countersOf messages) ch' m' es) :
    m' = countersOf (messages ++ counted es) := by
  cases hacts with
  | heard _ data => rw [receive_counters, ← countersOf_append_singleton]; rfl
  | stateTaken | messageTaken => rw [counted_notified, List.append_nil]
  | opened | closing | closed | missed | statesEnded | messagesFailed | messagesEnded =>
      exact congrArg countersOf (List.append_nil messages).symm

theorem counters_of_step (hw : w.counters = countersOf messages)
    (hstep : w.step a = some (w', es)) : w'.counters = countersOf (messages ++ counted es) := by
  cases Page.steps_of_step hstep with
  | newPeer | offered | announced | taken | ignored | unsent =>
      exact hw.trans (congrArg countersOf (List.append_nil messages).symm)
  | sent _ hsent =>
      rw [hw] at hsent
      rw [(readyState_of_sendStr hsent).2, ← countersOf_append_singleton]
      rfl
  | acts _ hacts => exact Channel.Acts.counters (hw ▸ hacts)

end Counters

/-! ## Every run -/

section Runs

variable {i : Nat} {w : Page PeerID} {ls : List (Action PeerID)} {tr : List (Event PeerID)}
  {ch : Channel PeerID}

theorem life_of_run (hrun : page.Run ls w tr) (hch : w.channels i = some ch) :
    ∃ started, Life i (some ch) started (eventsOf i tr) := by
  obtain ⟨started, hlife⟩ := (lives_of_run hrun).life i
  exact ⟨started, hch ▸ hlife⟩

/-- In every run, the texts that the client is told of a channel are those that its listener
heard, in order and once each, up to the first item that is no message; a task that has
caught up has told them all.  Whatever is told names the peer that the channel leads to. -/
theorem run_toldTexts (hrun : page.Run ls w tr) (hch : w.channels i = some ch) :
    toldTexts (eventsOf i tr) <+: textsOf ((heard (eventsOf i tr)).map item) ∧
      ((∀ c, ch.messages = some c → c.queue = []) →
        toldTexts (eventsOf i tr) = textsOf ((heard (eventsOf i tr)).map item)) ∧
      ∀ event, .notified i event ∈ tr → event.peerId = ch.peerId := by
  obtain ⟨started, hlife⟩ := life_of_run hrun hch
  have hmessages := messages_of_life hlife ch rfl
  refine ⟨hmessages.told_le_heard, hmessages.eq_of_caughtUp, fun event hmem => ?_⟩
  exact peerId_of_notified hlife ch rfl event
    (List.mem_filter.mpr ⟨hmem, by simp [Event.channel?]⟩)

/-- A page that is open on the other side: its channel is announced, hears a text and what is
no message, and is closed. -/
def announcedRun : List (Action Bool) :=
  [.newPeer true, .dataChannel true defaultChannelName true, .pollChannels true,
    .announceOpen 0, .pollStates 0, .pollStates 0, .dispatch 0 (.string "hello"),
    .dispatch 0 .blob, .dispatch 0 (.string "lost"), .pollMessages 0, .pollMessages 0,
    .announceClosed 0, .pollStates 0]

theorem run_toldTexts_announcedRun : ∃ w tr, page.Run announcedRun w tr ∧
    toldTexts (eventsOf 0 tr) = ["hello"] := by
  have hexec : (page.exec announcedRun).map
      (fun r => ((r.1.channels 0).map fun ch => ch.messages.isNone, heard (eventsOf 0 r.2))) =
        some (some true, [.string "hello", .blob, .string "lost"]) := by decide
  obtain ⟨⟨w, tr⟩, hrun, hpair⟩ := Option.map_eq_some_iff.mp hexec
  obtain ⟨hnone, hheard⟩ := Prod.mk.inj hpair
  obtain ⟨ch, hch, hmessages⟩ := Option.map_eq_some_iff.mp hnone
  refine ⟨w, tr, Machine.run_of_exec hrun, ?_⟩
  have hended : ch.messages = none := Option.isNone_iff_eq_none.mp hmessages
  rw [(run_toldTexts (Machine.run_of_exec hrun) hch).2.1 (by simp [hended]), hheard]
  rfl

end Runs

end SfRs.Wasm.Channels
