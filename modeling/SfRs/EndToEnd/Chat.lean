import SfRs.Lib.Ledger
import SfRs.Wasm.ChannelEvents
/-!
# Texts between pages

Pages whose data channels are connected.  `make_offer` creates one end of a channel, the
browser of the other page announces the other end, and from then on what is sent at one end
arrives at the other, in order and once each: the channels are created without options, so
they are ordered and reliable.

Of the texts sent at one end, the client at the other end is told an uninterrupted stretch.
Only texts that arrive before its tasks have started are missed, and they come first.
-/

set_option linter.unusedSectionVars false

namespace SfRs.EndToEnd.Chats

open SfRs.Lib SfRs.WebRtc SfRs.Wasm.Channels

/-- A page's end of a channel. -/
abbrev ChannelEnd (PeerID : Type) := PeerID × Nat

/-- `inFlight`: what was sent at an end and has not arrived, oldest first. -/
structure Chat (PeerID : Type) where
  pages : PeerID → Page PeerID
  other : ChannelEnd PeerID → Option (ChannelEnd PeerID)
  inFlight : ChannelEnd PeerID → List String

inductive ChatAction (PeerID : Type) where
  | page (p : PeerID) (action : Action PeerID)
  /-- The browser of the page that channel `i` of `p` leads to announces its end. -/
  | announce (p : PeerID) (i : Nat) (isOpen : Bool)
  /-- The next text arrives at channel `j` of `q`. -/
  | arrive (q : PeerID) (j : Nat)

variable {PeerID : Type} [DecidableEq PeerID]

/-- The action is not one of those that the other pages have a part in. -/
def isLocal : Action PeerID → Bool
  | .dispatch .. | .dataChannel .. => false
  | _ => true

/-- The texts sent at an end. -/
def sentOn (tr : List (PeerID × Event PeerID)) (e : ChannelEnd PeerID) : List String :=
  (entriesOf e.1 tr).filterMap fun
    | .sent i message => if i = e.2 then some message else none
    | _ => none

namespace Chat

def init : Chat PeerID := ⟨fun _ => .init, fun _ => none, fun _ => []⟩

/-- Page `p` goes on, and what it sends is on its way. -/
def perform (w : Chat PeerID) (p : PeerID) (page : Page PeerID) (es : List (Event PeerID)) :
    Chat PeerID :=
  { w with
    pages := Function.update w.pages p page
    inFlight := fun e => w.inFlight e ++ sentOn (es.map (p, ·)) e }

/-- The two ends of a channel. -/
def join (w : Chat PeerID) (e e' : ChannelEnd PeerID) : Chat PeerID :=
  { w with other := Function.update (Function.update w.other e (some e')) e' (some e) }

def setInFlight (w : Chat PeerID) (e : ChannelEnd PeerID) (texts : List String) : Chat PeerID :=
  { w with inFlight := Function.update w.inFlight e texts }

def step (w : Chat PeerID) :
    ChatAction PeerID → Option (Chat PeerID × List (PeerID × Event PeerID))
  | .page p a =>
      if isLocal a then
        ((w.pages p).step a).map fun r => (w.perform p r.1 r.2, r.2.map (p, ·))
      else none
  | .announce p i isOpen =>
      match w.other (p, i), (w.pages p).channels i with
      | none, some ch =>
          let q := ch.peerId
          ((w.pages q).step (.dataChannel p ch.inner.label isOpen)).map fun r =>
            ((w.perform q r.1 r.2).join (p, i) (q, (w.pages q).fresh), r.2.map (q, ·))
      | _, _ => none
  | .arrive q j =>
      match w.other (q, j) with
      | some e =>
          match w.inFlight e with
          | text :: texts =>
              ((w.pages q).step (.dispatch j (.string text))).map fun r =>
                ((w.perform q r.1 r.2).setInFlight e texts, r.2.map (q, ·))
          | [] => none
      | none => none

/-! ## What a step can do -/

inductive Steps (w : Chat PeerID) :
    ChatAction PeerID → Chat PeerID → List (PeerID × Event PeerID) → Prop
  | page {p a page es} (hlocal : isLocal a) (hstep : (w.pages p).step a = some (page, es)) :
      Steps w (.page p a) (w.perform p page es) (es.map (p, ·))
  | announce {p i isOpen ch page es} (hother : w.other (p, i) = none)
      (hch : (w.pages p).channels i = some ch)
      (hstep : (w.pages ch.peerId).step (.dataChannel p ch.inner.label isOpen) =
        some (page, es)) :
      Steps w (.announce p i isOpen)
        ((w.perform ch.peerId page es).join (p, i) (ch.peerId, (w.pages ch.peerId).fresh))
        (es.map (ch.peerId, ·))
  | arrive {q j e text texts page es} (hother : w.other (q, j) = some e)
      (hinFlight : w.inFlight e = text :: texts)
      (hstep : (w.pages q).step (.dispatch j (.string text)) = some (page, es)) :
      Steps w (.arrive q j) ((w.perform q page es).setInFlight e texts) (es.map (q, ·))

theorem steps_of_step {w w' : Chat PeerID} {l : ChatAction PeerID}
    {es : List (PeerID × Event PeerID)} (h : w.step l = some (w', es)) : w.Steps l w' es := by
  cases l with
  | page p a =>
      simp only [step] at h
      split at h
      case isTrue hlocal =>
          obtain ⟨⟨page, pes⟩, hstep, hpair⟩ := Option.map_eq_some_iff.mp h
          cases hpair
          exact .page hlocal hstep
      case isFalse => cases h
  | announce p i isOpen =>
      simp only [step] at h
      split at h
      case h_1 ch hother hch =>
          obtain ⟨⟨page, pes⟩, hstep, hpair⟩ := Option.map_eq_some_iff.mp h
          cases hpair
          exact .announce hother hch hstep
      case h_2 => cases h
  | arrive q j =>
      simp only [step] at h
      split at h
      case h_1 e hother =>
          split at h
          case h_1 text texts hinFlight =>
              obtain ⟨⟨page, pes⟩, hstep, hpair⟩ := Option.map_eq_some_iff.mp h
              cases hpair
              exact .arrive hother hinFlight hstep
          case h_2 => cases h
      case h_2 => cases h

end Chat

/-- The pages, whatever their scripts call and their browsers do. -/
def chat (PeerID : Type) [DecidableEq PeerID] :
    Machine (Chat PeerID) (ChatAction PeerID) (PeerID × Event PeerID) :=
  ⟨.init, Chat.step⟩

section Pages

variable {w w' : Chat PeerID} {ls : List (ChatAction PeerID)} {l : ChatAction PeerID}
  {tr es : List (PeerID × Event PeerID)} {e e' : ChannelEnd PeerID} {p q : PeerID}
  {page : Page PeerID} {a : Action PeerID} {pes : List (Event PeerID)}

/-! ## The pages of a run -/

/-- The events of the page that `e` is on, about that channel. -/
def eventsAt (tr : List (PeerID × Event PeerID)) (e : ChannelEnd PeerID) : List (Event PeerID) :=
  eventsOf e.2 (entriesOf e.1 tr)

theorem eventsAt_append :
    eventsAt (tr ++ es) e = eventsAt tr e ++ eventsAt es e := by
  rw [eventsAt, entriesOf_append, eventsOf_append, eventsAt, eventsAt]

theorem sentOn_append : sentOn (tr ++ es) e = sentOn tr e ++ sentOn es e := by
  rw [sentOn, entriesOf_append, List.filterMap_append, sentOn, sentOn]

/-- Each page has had the part of the run that its events tell. -/
def Played (w : Chat PeerID) (tr : List (PeerID × Event PeerID)) : Prop :=
  ∀ q, ∃ ks, Wasm.Channels.page.Run ks (w.pages q) (entriesOf q tr)

theorem Played.perform (hplayed : Played w tr) (hstep : (w.pages p).step a = some (page, pes)) :
    Played (w.perform p page pes) (tr ++ pes.map (p, ·)) := by
  intro q
  obtain ⟨ks, hrun⟩ := hplayed q
  rw [entriesOf_append]
  by_cases hq : q = p
  · subst hq
    refine ⟨ks ++ [a], ?_⟩
    rw [entriesOf_map_self]
    simpa [Chat.perform] using hrun.snoc hstep
  · refine ⟨ks, ?_⟩
    rw [entriesOf_map_of_ne (Ne.symm hq), List.append_nil]
    simpa [Chat.perform, hq] using hrun

theorem played_of_run (hrun : (chat PeerID).Run ls w tr) : Played w tr := by
  induction hrun with
  | nil => exact fun _ => ⟨[], .nil⟩
  | snoc _ hstep ih =>
      cases Chat.steps_of_step hstep with
      | page _ hpage => exact ih.perform hpage
      | announce _ _ hpage => exact ih.perform hpage
      | arrive _ _ hpage => exact ih.perform hpage

/-! ## What arrives -/

theorem dispatched_of_step {w w' : Page PeerID} (ha : ∀ i data, a ≠ .dispatch i data)
    (hstep : w.step a = some (w', pes)) (i : Nat) : dispatched (eventsOf i pes) = [] := by
  have hnone : ∀ j data heard, .dispatched j data heard ∉ pes := by
    intro j data heard hmem
    cases Page.steps_of_step hstep with
    | newPeer | offered | announced | taken | ignored | unsent | sent => simp at hmem
    | acts _ hacts hdispatch =>
        cases Option.some.inj (hacts.channel? _ hmem)
        exact ha _ data (hdispatch data heard hmem)
  refine List.filterMap_eq_nil_iff.mpr fun e he => ?_
  have hmem : e ∈ pes := (List.mem_filter.mp he).1
  cases e with
  | dispatched j data heard => exact absurd hmem (hnone j data heard)
  | created | installed | opened | closed | notified | sent | returned => rfl

/-- The ends of a channel, and the texts on their way between them. -/
structure Connected (w : Chat PeerID) (tr : List (PeerID × Event PeerID)) : Prop where
  paired : ∀ e e', w.other e = some e' → w.other e' = some e
  leads : ∀ e e', w.other e = some e' →
    ∃ ch, (w.pages e.1).channels e.2 = some ch ∧ ch.peerId = e'.1
  carried : ∀ e e', w.other e = some e' → (sentOn tr e).map MessageData.string =
    dispatched (eventsAt tr e') ++ (w.inFlight e).map .string
  kept : ∀ e, w.other e = none → sentOn tr e = w.inFlight e
  idle : ∀ e, w.other e = none → dispatched (eventsAt tr e) = []

theorem connected_init : Connected (Chat.init : Chat PeerID) [] where
  paired _ _ h := by cases h
  leads _ _ h := by cases h
  carried _ _ h := by cases h
  kept _ _ := rfl
  idle _ _ := rfl

theorem eventsAt_map (p : PeerID) (pes : List (Event PeerID)) (e : ChannelEnd PeerID) :
    eventsAt (pes.map (p, ·)) e = if e.1 = p then eventsOf e.2 pes else [] := by
  rw [eventsAt]
  by_cases hp : e.1 = p
  · rw [if_pos hp, hp, entriesOf_map_self]
  · rw [if_neg hp, entriesOf_map_of_ne (Ne.symm hp)]
    rfl

theorem Played.channel_perform (hplayed : Played w tr)
    (hstep : (w.pages p).step a = some (page, pes)) {ch : Channel PeerID}
    (hch : (w.pages e.1).channels e.2 = some ch) :
    ∃ ch', ((w.perform p page pes).pages e.1).channels e.2 = some ch' ∧
      ch'.peerId = ch.peerId := by
  by_cases hp : e.1 = p
  · obtain ⟨ks, hrun⟩ := hplayed p
    rw [hp] at hch
    obtain ⟨ch', hch', heq⟩ := (lives_of_run hrun).channel_of_step hstep hch
    exact ⟨ch', by simpa [Chat.perform, hp] using hch', heq⟩
  · exact ⟨ch, by simpa [Chat.perform, hp] using hch, rfl⟩

theorem Connected.leads_perform (hconnected : Connected w tr) (hplayed : Played w tr)
    (hstep : (w.pages p).step a = some (page, pes)) (h : w.other e = some e') :
    ∃ ch, ((w.perform p page pes).pages e.1).channels e.2 = some ch ∧ ch.peerId = e'.1 := by
  obtain ⟨ch, hch, hpeerId⟩ := hconnected.leads e e' h
  obtain ⟨ch', hch', heq⟩ := hplayed.channel_perform hstep hch
  exact ⟨ch', hch', heq.trans hpeerId⟩

/-- A page goes on without anything that arrives. -/
theorem Connected.perform (hconnected : Connected w tr) (hplayed : Played w tr)
    (hstep : (w.pages p).step a = some (page, pes))
    (hpes : ∀ i, dispatched (eventsOf i pes) = []) :
    Connected (w.perform p page pes) (tr ++ pes.map (p, ·)) := by
  have hdispatched : ∀ e, dispatched (eventsAt (tr ++ pes.map (p, ·)) e) =
      dispatched (eventsAt tr e) := by
    intro e
    rw [eventsAt_append, dispatched_append, eventsAt_map]
    split
    · rw [hpes, List.append_nil]
    · exact List.append_nil _
  constructor
  · exact hconnected.paired
  · exact fun e e' h => hconnected.leads_perform hplayed hstep h
  · intro e e' h
    rw [sentOn_append, hdispatched, List.map_append, hconnected.carried e e' h, List.append_assoc,
      ← List.map_append]
    rfl
  · intro e h
    rw [sentOn_append, hconnected.kept e h]
    rfl
  · intro e h
    rw [hdispatched]
    exact hconnected.idle e h

/-- The two ends of a channel find each other. -/
theorem Connected.join (hconnected : Connected w tr) (hne : e ≠ e') (he : w.other e = none)
    (he' : w.other e' = none)
    (hlead : ∃ ch, (w.pages e.1).channels e.2 = some ch ∧ ch.peerId = e'.1)
    (hlead' : ∃ ch, (w.pages e'.1).channels e'.2 = some ch ∧ ch.peerId = e.1) :
    Connected (w.join e e') tr := by
  have hother : ∀ f, (w.join e e').other f =
      if f = e' then some e else if f = e then some e' else w.other f := by
    intro f
    simp only [Chat.join, Function.update_apply]
  have hcases : ∀ f f', (w.join e e').other f = some f' →
      (f = e ∧ f' = e') ∨ (f = e' ∧ f' = e) ∨ w.other f = some f' := by
    intro f f' h
    rw [hother] at h
    split at h
    case isTrue hf => exact Or.inr (Or.inl ⟨hf, (Option.some.inj h).symm⟩)
    case isFalse =>
        split at h
        case isTrue hf => exact Or.inl ⟨hf, (Option.some.inj h).symm⟩
        case isFalse => exact Or.inr (Or.inr h)
  have hold : ∀ f, (w.join e e').other f = none → w.other f = none := by
    intro f h
    rw [hother] at h
    split at h
    case isTrue => cases h
    case isFalse =>
        split at h
        case isTrue => cases h
        case isFalse => exact h
  constructor
  · intro f f' h
    rcases hcases f f' h with ⟨rfl, rfl⟩ | ⟨rfl, rfl⟩ | h
    · rw [hother, if_pos rfl]
    · rw [hother, if_neg hne, if_pos rfl]
    · have h' := hconnected.paired f f' h
      rw [hother, if_neg, if_neg, h']
      · rintro rfl
        rw [he] at h'
        cases h'
      · rintro rfl
        rw [he'] at h'
        cases h'
  · intro f f' h
    rcases hcases f f' h with ⟨rfl, rfl⟩ | ⟨rfl, rfl⟩ | h
    · exact hlead
    · exact hlead'
    · exact hconnected.leads f f' h
  · intro f f' h
    rcases hcases f f' h with ⟨rfl, rfl⟩ | ⟨rfl, rfl⟩ | h
    · rw [hconnected.kept _ he, hconnected.idle _ he']
      rfl
    · rw [hconnected.kept _ he', hconnected.idle _ he]
      rfl
    · exact hconnected.carried f f' h
  · exact fun f h => hconnected.kept f (hold f h)
  · exact fun f h => hconnected.idle f (hold f h)

theorem events_of_dispatch {w w' : Page PeerID} {j : Nat} {data : MessageData}
    (hstep : w.step (.dispatch j data) = some (w', pes)) :
    ∃ heard, pes = [.dispatched j data heard] := by
  simp only [Page.step, Page.dispatch] at hstep
  split at hstep
  case h_1 => cases hstep
  case h_2 =>
      split at hstep
      case h_1 =>
          cases hstep
          exact ⟨true, rfl⟩
      case h_2 =>
          cases hstep
          exact ⟨false, rfl⟩

/-- The oldest text in flight arrives. -/
theorem Connected.arrive (hconnected : Connected w tr) (hplayed : Played w tr) {j : Nat}
    {text : String} {texts : List String} (hother : w.other (q, j) = some e)
    (hinFlight : w.inFlight e = text :: texts)
    (hstep : (w.pages q).step (.dispatch j (.string text)) = some (page, pes)) :
    Connected ((w.perform q page pes).setInFlight e texts) (tr ++ pes.map (q, ·)) := by
  obtain ⟨heard, rfl⟩ := events_of_dispatch hstep
  have hsent : ∀ f, sentOn ([Event.dispatched j (.string text) heard].map (q, ·)) f = [] := by
    intro f
    by_cases hf : q = f.1 <;> simp [sentOn, entriesOf, hf]
  have hinFlight' : ∀ f, f ≠ e →
      ((w.perform q page [.dispatched j (.string text) heard]).setInFlight e texts).inFlight f =
        w.inFlight f := by
    intro f hf
    simp only [Chat.setInFlight, Chat.perform, Function.update_of_ne hf, hsent, List.append_nil]
  have hdispatched : ∀ f, dispatched
      (eventsAt (tr ++ [Event.dispatched j (.string text) heard].map (q, ·)) f) =
        dispatched (eventsAt tr f) ++ if f = (q, j) then [.string text] else [] := by
    intro f
    rw [eventsAt_append, dispatched_append, eventsAt_map]
    obtain ⟨p, i⟩ := f
    by_cases hp : p = q
    · by_cases hi : i = j
      · simp [hp, hi, eventsOf, Event.channel?, dispatched]
      · simp [hp, hi, eventsOf, Event.channel?, dispatched, Ne.symm hi]
    · simp [hp, dispatched]
  constructor
  · exact hconnected.paired
  · exact fun f f' h => hconnected.leads_perform hplayed hstep h
  · intro f f' h
    have hcarried := hconnected.carried f f' h
    rw [sentOn_append, hsent, List.append_nil, hcarried, hdispatched]
    by_cases hf : f = e
    · subst hf
      obtain rfl : f' = (q, j) :=
        Option.some.inj (h.symm.trans (hconnected.paired _ _ hother))
      simp [Chat.setInFlight, hinFlight]
    · have hf' : f' ≠ (q, j) := by
        rintro rfl
        exact hf (Option.some.inj ((hconnected.paired _ _ h).symm.trans hother))
      rw [if_neg hf', hinFlight' f hf, List.append_nil]
  · intro f h
    have hf : f ≠ e := by
      rintro rfl
      have hnone : w.other f = none := h
      rw [hconnected.paired _ _ hother] at hnone
      cases hnone
    rw [sentOn_append, hsent, List.append_nil, hinFlight' f hf]
    exact hconnected.kept f h
  · intro f h
    have hf : f ≠ (q, j) := by
      rintro rfl
      have hnone : w.other (q, j) = none := h
      rw [hother] at hnone
      cases hnone
    rw [hdispatched, if_neg hf, List.append_nil]
    exact hconnected.idle f h

theorem channel_of_dataChannel {w w' : Page PeerID} {label : String} {isOpen : Bool}
    (hstep : w.step (.dataChannel p label isOpen) = some (w', pes)) :
    ∃ ch, w'.channels w.fresh = some ch ∧ ch.peerId = p := by
  simp only [Page.step, Page.dataChannel] at hstep
  split at hstep
  case h_1 => cases hstep
  case h_2 =>
      cases hstep
      exact ⟨_, Function.update_self .., rfl⟩

/-- The browser of `q` announces its end of a channel. -/
theorem Connected.announce (hconnected : Connected w tr) (hplayed : Played w tr) {i : Nat}
    {ch : Channel PeerID} {isOpen : Bool} (hother : w.other (p, i) = none)
    (hch : (w.pages p).channels i = some ch)
    (hstep : (w.pages ch.peerId).step (.dataChannel p ch.inner.label isOpen) = some (page, pes)) :
    Connected ((w.perform ch.peerId page pes).join (p, i) (ch.peerId, (w.pages ch.peerId).fresh))
      (tr ++ pes.map (ch.peerId, ·)) := by
  have hdispatched := dispatched_of_step (fun _ _ h => by cases h) hstep
  obtain ⟨ks, hrun⟩ := hplayed ch.peerId
  have hfresh := (lives_of_run hrun).fresh _ le_rfl
  have hnone : w.other (ch.peerId, (w.pages ch.peerId).fresh) = none := by
    rw [Option.eq_none_iff_forall_ne_some]
    intro e h
    obtain ⟨ch', hch', -⟩ := hconnected.leads _ _ h
    rw [hfresh] at hch'
    cases hch'
  have hne : (p, i) ≠ (ch.peerId, (w.pages ch.peerId).fresh) := by
    intro heq
    obtain ⟨hp, hi⟩ := Prod.mk.inj heq
    rw [hp, hi, hfresh] at hch
    cases hch
  refine (hconnected.perform hplayed hstep hdispatched).join hne hother hnone ?_ ?_
  · exact hplayed.channel_perform (e := (p, i)) hstep hch
  · obtain ⟨ch', hch', hpeerId⟩ := channel_of_dataChannel hstep
    exact ⟨ch', by simpa [Chat.perform] using hch', hpeerId⟩

theorem connected_of_run (hrun : (chat PeerID).Run ls w tr) : Connected w tr := by
  induction hrun with
  | nil => exact connected_init
  | snoc hrun hstep ih =>
      have hplayed := played_of_run hrun
      cases Chat.steps_of_step hstep with
      | page hlocal hpage =>
          refine ih.perform hplayed hpage (dispatched_of_step ?_ hpage)
          rintro i data rfl
          cases hlocal
      | announce hother hch hpage => exact ih.announce hplayed hother hch hpage
      | arrive hother hinFlight hpage => exact ih.arrive hplayed hother hinFlight hpage

/-! ## Every run -/

theorem mem_eventsAt {event : Event PeerID} :
    event ∈ eventsAt tr e ↔ (e.1, event) ∈ tr ∧ event.channel? = some e.2 := by
  rw [eventsAt, eventsOf, List.mem_filter, mem_entriesOf, decide_eq_true_iff]

/-- In every run, what has been sent at the other end of a channel is what the client is told
of it, in order and once each, between texts that came before its tasks had started and texts
that wait.  A page that misses nothing and has caught up has told the client all of it, and
as coming from the page that sent it. -/
theorem run_chat (hrun : (chat PeerID).Run ls w tr) {p q : PeerID} {i j : Nat}
    (hother : w.other (q, j) = some (p, i)) :
    ∃ lost waiting, sentOn tr (p, i) = lost ++ toldTexts (eventsAt tr (q, j)) ++ waiting ∧
      (lost ≠ [] → ∃ data, (q, .dispatched j data false) ∈ tr) ∧
      (w.inFlight (p, i) = [] →
        (∀ ch c, (w.pages q).channels j = some ch → ch.messages = some c → c.queue = []) →
          waiting = []) ∧
      ∀ event, (q, .notified j event) ∈ tr → event.peerId = p := by
  have hconnected := connected_of_run hrun
  obtain ⟨ch, hch, hpeerId⟩ := hconnected.leads _ _ hother
  obtain ⟨ks, hpage⟩ := played_of_run hrun q
  obtain ⟨started, hlife⟩ := life_of_run hpage hch
  have hmessages := messages_of_life hlife ch rfl
  obtain ⟨before, after, hhears⟩ := hears_of_life hlife ch rfl
  have hcarried := hconnected.carried _ _ (hconnected.paired _ _ hother)
  obtain ⟨arrived, inFlight, hsent, harrived, hinFlight⟩ := List.map_eq_append_iff.mp hcarried
  have hinFlight : inFlight = w.inFlight (p, i) :=
    List.map_injective_iff.mpr (fun _ _ h => MessageData.string.inj h) hinFlight
  obtain ⟨lost, told, rfl, hlost, htold⟩ := hhears.strings hmessages harrived.symm
  have htexts : textsOf ((heard (eventsAt tr (q, j))).map item) = told := by
    rw [eventsAt, htold, textsOf_strings]
  obtain ⟨waiting, hwaiting⟩ := hmessages.told_le_heard
  have hstretch : toldTexts (eventsAt tr (q, j)) ++ waiting = told := hwaiting.trans htexts
  refine ⟨lost, waiting ++ inFlight, ?_, ?_, ?_, ?_⟩
  · rw [hsent, ← hstretch, List.append_assoc, List.append_assoc, List.append_assoc]
  · intro hne
    obtain ⟨data, hmem⟩ := hhears.missed (by rw [hlost]; simpa using hne)
    exact ⟨data, (mem_eventsAt.mp hmem).1⟩
  · intro hempty hqueue
    have hall := hmessages.eq_of_caughtUp fun c hc => hqueue ch c hch hc
    have hnil : waiting = [] := by
      rw [hall] at hwaiting
      exact List.append_right_eq_self.mp hwaiting
    rw [hnil, hinFlight, hempty, List.append_nil]
  · intro event hmem
    exact (peerId_of_notified hlife ch rfl event (mem_eventsAt.mpr ⟨hmem, rfl⟩)).trans hpeerId

/-- The first text arrives before the other page has taken its end of the channel. -/
def lateRun : List (ChatAction Bool) :=
  [.page false (.newPeer true), .page true (.newPeer false), .page false (.makeOffer true),
    .page false (.announceOpen 0), .page false (.sendMessageToPeer true "early" none),
    .announce false 0 true, .arrive true 0, .page true (.pollChannels false),
    .page false (.sendMessageToPeer true "hello" none), .arrive true 0,
    .page true (.pollMessages 0)]

theorem run_chat_lateRun : ∃ w tr, (chat Bool).Run lateRun w tr ∧
    ∃ lost waiting, ["early", "hello"] = lost ++ ["hello"] ++ waiting ∧
      (lost ≠ [] → ∃ data, (true, .dispatched 0 data false) ∈ tr) := by
  have hexec : ((chat Bool).exec lateRun).map (fun r => (r.1.other (true, 0),
      sentOn r.2 (false, 0), toldTexts (eventsAt r.2 (true, 0)))) =
        some (some (false, 0), ["early", "hello"], ["hello"]) := by decide
  obtain ⟨⟨w, tr⟩, hrun, hpair⟩ := Option.map_eq_some_iff.mp hexec
  simp only [Prod.mk.injEq] at hpair
  obtain ⟨hother, hsent, htold⟩ := hpair
  obtain ⟨lost, waiting, heq, hlost, -⟩ := run_chat (Machine.run_of_exec hrun) hother
  rw [hsent, htold] at heq
  exact ⟨w, tr, Machine.run_of_exec hrun, lost, waiting, heq, hlost⟩

end Pages

end SfRs.EndToEnd.Chats
