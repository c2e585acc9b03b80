import Mathlib.Algebra.Order.Sub.Basic
import Mathlib.Data.Multiset.OrderedMonoid
import Mathlib.Tactic.Abel
import SfRs.EndToEnd.Progress
import SfRs.Wasm.Signaling
/-!
# When two pages agree

Two pages negotiate over the server, their sockets and their loops: a step of either is a
move of its side in the negotiation of `Wasm.Negotiation`, where pending are the
descriptions that one has set and the other has not dealt with, wherever they are.  That
the server may reorder them, or lose them, makes no difference to the moves.

As a page is known by its identifier only, this takes two identifiers that no other page
uses.
-/

set_option linter.unusedSectionVars false

namespace SfRs.EndToEnd

open SfRs.Lib SfRs.Protocol SfRs.Server SfRs.Wasm

variable {PeerID : Type} [DecidableEq PeerID] {codec : Codec PeerID} {w w' : World PeerID}
  {l : WorldAction PeerID} {ls : List (WorldAction PeerID)} {tr es : List (WorldEvent PeerID)}
  {g h k : PeerHandler PeerID}

/-! ## Pages that never connect -/

/-- The client has no socket and no peers. -/
def Offline (c : Client PeerID) : Prop := c.ws = false ∧ ∀ q, c.peers q = none

theorem offline_of_step {host : PeerID} {c c' : Client PeerID} {a : Wasm.Action PeerID}
    {ces : List (Wasm.Event PeerID)} (hoffline : Offline c) (hact : a ≠ .connect)
    (hstep : c.step host a = some (c', ces)) :
    Offline c' ∧ ces.filterMap sentRequest = [] := by
  obtain ⟨hws, hpeers⟩ := hoffline
  cases a with
  | connect => exact absurd rfl hact
  | connectToPeer q =>
      simp only [Client.step, Client.connectToPeer, Client.getOrCreatePeer, hpeers q, hws] at hstep
      cases hstep
      exact ⟨⟨hws, hpeers⟩, rfl⟩
  | makeOffer q => simp [Client.step, Client.makeOffer, hpeers q] at hstep
  | receive => simp [Client.step, hws] at hstep
  | handle =>
      simp only [Client.step, Client.handle] at hstep
      split at hstep
      · cases hstep
      · simp [hpeers] at hstep
  | gather q => simp [Client.step, Client.gather, hpeers q] at hstep

/-- The pages whose scripts connect. -/
def connecting (ls : List (WorldAction PeerID)) : List (PeerHandler PeerID) :=
  ls.filterMap fun
    | .client k .connect => some k
    | _ => none

theorem connecting_append (ls ks : List (WorldAction PeerID)) :
    connecting (ls ++ ks) = connecting ls ++ connecting ks := by
  simp [connecting, List.filterMap_append]

theorem offline_of_run (hrun : (world codec).Run ls w tr) (hk : k ∉ connecting ls) :
    Offline (w.tabs k).client ∧ sent tr k = [] := by
  induction hrun with
  | nil => exact ⟨⟨rfl, fun _ => rfl⟩, rfl⟩
  | @snoc ls w tr l w' es hrun hstep ih =>
      rw [connecting_append, List.mem_append, not_or] at hk
      obtain ⟨hoffline, hsent⟩ := ih hk.1
      rw [sent_append, hsent]
      cases clientStep_of_step hstep k with
      | acts hl _ hcstep =>
          refine offline_of_step hoffline (fun hconnect => hk.2 ?_) hcstep
          subst hl hconnect
          exact List.mem_singleton_self k
      | reads _ hcstep => exact offline_of_step hoffline (by simp) hcstep
      | idle hclient hes =>
          rw [hclient, sent, hes]
          exact ⟨hoffline, rfl⟩

/-- No other page connects under the identifier of `g`. -/
def Alone (ls : List (WorldAction PeerID)) (g : PeerHandler PeerID) : Prop :=
  ∀ k ∈ connecting ls, k.peerId = g.peerId → k = g

instance (ls : List (WorldAction PeerID)) (g : PeerHandler PeerID) : Decidable (Alone ls g) :=
  inferInstanceAs (Decidable (∀ k ∈ connecting ls, _))

theorem Alone.of_concat (halone : Alone (ls ++ [l]) g) : Alone ls g := by
  intro k hk
  refine halone k ?_
  rw [connecting_append]
  exact List.mem_append_left _ hk

/-! ## The descriptions between two pages -/

/-- The descriptions that the page has sent to the peer `q`. -/
def sentDescriptions (tr : List (WorldEvent PeerID)) (g : PeerHandler PeerID) (q : PeerID) :
    Multiset SessionDescription :=
  ((clientEvents tr g).filterMap (Event.descriptionTo q) : List SessionDescription)

/-- The descriptions that the page has read from the peer `p`. -/
def readDescriptions (tr : List (WorldEvent PeerID)) (h : PeerHandler PeerID) (p : PeerID) :
    Multiset SessionDescription :=
  ((received tr h).filterMap fun request => (Action.receive request).descriptionFrom p :
    List SessionDescription)

theorem sentDescriptions_append (q : PeerID) :
    sentDescriptions (tr ++ es) g q = sentDescriptions tr g q + sentDescriptions es g q := by
  simp [sentDescriptions, List.filterMap_append]

theorem readDescriptions_append (p : PeerID) :
    readDescriptions (tr ++ es) h p = readDescriptions tr h p + readDescriptions es h p := by
  simp [readDescriptions, List.filterMap_append]

/-- The request that carries a description of `q` to `p`. -/
def describing (q p : PeerID) (d : SessionDescription) : PeerRequest PeerID :=
  .forward q (some p) (.webRtcOffer p d)

theorem reads_description (hrun : (world codec).Run ls w tr) {request : PeerRequest PeerID}
    (hread : request ∈ received tr h) {q : PeerID} {d : SessionDescription}
    (hd : (Action.receive request).descriptionFrom q = some d) :
    request = describing q h.peerId d := by
  unfold Action.descriptionFrom at hd
  split at hd
  case h_1 sender recipient id d' heq =>
      cases heq
      split at hd <;> cases hd
      rename_i hq
      subst hq
      have hreads := reads_of_run hrun hread
      generalize hrequest : PeerRequest.forward sender recipient (.webRtcOffer id d) =
        request at hreads
      cases hreads with
      | joined => cases hrequest
      | sent _ hsends =>
          cases hrequest
          cases hsends
          rfl
  case h_2 => cases hd

/-- What is sent in the name of a page that is alone, it has sent itself. -/
theorem count_sentRequests_eq (hrun : (world codec).Run ls w tr) (halone : Alone ls g)
    (recipient : Option PeerID) (data : PeerEvent PeerID) :
    ((sentRequests tr).map Prod.snd).count (.forward g.peerId recipient data) =
      (sent tr g).count (.forward g.peerId recipient data) := by
  rw [sent_eq_entriesOf, entriesOf, List.count_filterMap, List.count, List.countP_map]
  refine List.countP_congr fun e hmem => ?_
  obtain ⟨k, request⟩ := e
  have howner : request = .forward g.peerId recipient data → k = g := by
    rintro rfl
    have hsent : .forward g.peerId recipient data ∈ sent tr k := by
      rw [sent_eq_entriesOf]
      exact mem_entriesOf.mpr hmem
    have hid : k.peerId = g.peerId := by
      have hsends := sends_of_run hrun _ hsent
      generalize hrequest : PeerRequest.forward g.peerId recipient data = request at hsends
      cases hsends with
      | description => exact (PeerRequest.forward.inj hrequest).1.symm
      | candidate => exact (PeerRequest.forward.inj hrequest).1.symm
    refine halone k ?_ hid
    by_contra hk
    rw [(offline_of_run hrun hk).2] at hsent
    cases hsent
  by_cases hk : k = g
  · simp [hk]
  · have hne : request ≠ .forward g.peerId recipient data := fun heq => hk (howner heq)
    simp [hk, hne]

theorem count_sent_describing (tr : List (WorldEvent PeerID)) (g : PeerHandler PeerID)
    (q : PeerID) (d : SessionDescription) :
    (sent tr g).count (describing g.peerId q d) ≤ (sentDescriptions tr g q).count d := by
  rw [sent, sentDescriptions, Multiset.coe_count, List.count_filterMap, List.count_filterMap]
  refine List.countP_mono_left fun e _ he => ?_
  cases e with
  | sent request =>
      have hrequest : request = describing g.peerId q d := by simpa [sentRequest] using he
      simp [hrequest, describing, Event.descriptionTo]
  | _ => simp [sentRequest] at he

/-- A page reads no more descriptions from a page that is alone than that one has sent. -/
theorem readDescriptions_le (hrun : (world codec).Run ls w tr) (halone : Alone ls g)
    (h : PeerHandler PeerID) :
    readDescriptions tr h g.peerId ≤ sentDescriptions tr g h.peerId := by
  rw [Multiset.le_iff_count]
  intro d
  calc
    (readDescriptions tr h g.peerId).count d
        ≤ (received tr h).count (describing g.peerId h.peerId d) := by
      rw [readDescriptions, Multiset.coe_count, List.count_filterMap]
      refine List.countP_mono_left fun request hread hd => ?_
      simpa using reads_description hrun hread (by simpa using hd)
    _ ≤ ((sentRequests tr).map Prod.snd).count (describing g.peerId h.peerId d) :=
      count_received_le hrun h (by simp)
    _ = (sent tr g).count (describing g.peerId h.peerId d) :=
      count_sentRequests_eq hrun halone _ _
    _ ≤ (sentDescriptions tr g h.peerId).count d := count_sent_describing tr g h.peerId d

/-! ## The two sides -/

/-- The descriptions that `g` has set for `h` and `h` has not dealt with: not yet sent, not
yet read, or not yet applied. -/
def pending (w : World PeerID) (tr : List (WorldEvent PeerID)) (g h : PeerHandler PeerID) :
    Multiset SessionDescription :=
  (w.tabs g).client.unsent h.peerId +
    (sentDescriptions tr g h.peerId - readDescriptions tr h g.peerId) +
    (w.tabs h).client.unapplied g.peerId

/-- The side of `g` in its negotiation with `h`. -/
def side (w : World PeerID) (tr : List (WorldEvent PeerID)) (g h : PeerHandler PeerID) : Side :=
  ⟨(w.tabs g).client.conn h.peerId, pending w tr g h⟩

/-- The client of `g` performs `a`, and those of the other pages do nothing. -/
structure Acts (w w' : World PeerID) (es : List (WorldEvent PeerID)) (g : PeerHandler PeerID)
    (a : Wasm.Action PeerID) : Prop where
  step : (w.tabs g).client.step g.peerId a = some ((w'.tabs g).client, clientEvents es g)
  read : ∀ p, readDescriptions es g p = ((a.descriptionFrom p).toList : List SessionDescription)
  client : ∀ h, h ≠ g → (w'.tabs h).client = (w.tabs h).client
  events : ∀ h, h ≠ g → clientEvents es h = []
  received : ∀ h, h ≠ g → received es h = []

/-- In a step one client acts, or none. -/
inductive Performs (w : World PeerID) (l : WorldAction PeerID) (w' : World PeerID)
    (es : List (WorldEvent PeerID)) : Prop
  | acts {g a} (hl : l = .client g a ∨ l = .read g ∧ ∃ request, a = .receive request)
      (hacts : Acts w w' es g a)
  | none (hl : ∀ g a, l ≠ .client g a) (hclient : ∀ h, (w'.tabs h).client = (w.tabs h).client)
      (hevents : ∀ h, clientEvents es h = []) (hreceived : ∀ h, received es h = [])

theorem performs_of_step (hstep : w.step codec l = some (w', es)) : Performs w l w' es := by
  cases World.steps_of_step hstep with
  | @client g a c ces hact hcstep =>
      refine .acts (Or.inl rfl)
        ⟨?_, fun p => ?_, fun h hh => ?_, fun h hh => ?_, fun h _ => ?_⟩
      · simpa [clientEvents_client, World.setTab, Tab.perform] using hcstep
      · have hnone : a.descriptionFrom p = none := by
          unfold Action.descriptionFrom
          split
          · exact absurd rfl (hact _)
          · rfl
        rw [readDescriptions, received_client, hnone]
        rfl
      · simp [World.setTab, hh]
      · rw [clientEvents_client, if_neg (Ne.symm hh)]
      · exact received_client g h ces
  | @receive g raw down request c ces hdown hread hcstep =>
      refine .acts (Or.inr ⟨rfl, request, rfl⟩)
        ⟨?_, fun p => ?_, fun h hh => ?_, fun h hh => ?_, fun h hh => ?_⟩
      · simpa [clientEvents_client, World.setTab, World.setDown, Tab.perform] using hcstep
      · rw [readDescriptions, received_self, received_client, List.filterMap_cons]
        cases (Action.receive request).descriptionFrom p <;> rfl
      · simp [World.setTab, World.setDown, hh]
      · rw [clientEvents_received, clientEvents_client, if_neg (Ne.symm hh)]
      · rw [received_of_ne _ _ _ (Ne.symm hh), received_client]
  | ignore => exact .none (by simp) (fun _ => rfl) (fun _ => rfl) fun _ => rfl
  | stopReading =>
      exact .none (by simp) (fun _ => client_setTab_of_client _ _ rfl) (fun _ => rfl) fun _ => rfl
  | wrote =>
      exact .none (by simp) (fun _ => client_setTab_of_client _ _ rfl) (fun _ => rfl) fun _ => rfl
  | stopWriting =>
      exact .none (by simp) (fun _ => client_setTab_of_client _ _ rfl) (fun _ => rfl) fun _ => rfl
  | server | arrive => exact .none (by simp) (fun _ => rfl) (by simp) (by simp)

/-- A step of the client of `g` is its move in the negotiation with `h`. -/
theorem Acts.moves {a : Wasm.Action PeerID} (hacts : Acts w w' es g a) (hne : h ≠ g)
    (hsound : (w.tabs g).client.Sound)
    (hsent : readDescriptions tr h g.peerId ≤ sentDescriptions tr g h.peerId)
    (hread : readDescriptions (tr ++ es) g h.peerId ≤ sentDescriptions (tr ++ es) h g.peerId) :
    Moves ((w.tabs g).client.move h.peerId a) (side w tr g h) (side w tr h g)
      (side w' (tr ++ es) g h) (side w' (tr ++ es) h g) := by
  have hfollows := Client.follows_of_step (q := h.peerId) hsound hacts.step
  have hother := hacts.client h hne
  have hread₀ : readDescriptions es h g.peerId = 0 := by
    rw [readDescriptions, hacts.received h hne]
    rfl
  have hsent₀ : sentDescriptions es h g.peerId = 0 := by
    rw [sentDescriptions, hacts.events h hne]
    rfl
  refine ⟨hfollows.performs, ?_, ?_, ?_⟩
  · simp only [side, hother]
  · -- what `g` sets is unsent, or sent and not yet read
    have hgives : sentDescriptions es g h.peerId + (w'.tabs g).client.unsent h.peerId =
        ((w.tabs g).client.move h.peerId a).gives + (w.tabs g).client.unsent h.peerId :=
      hfollows.gives
    simp only [side, pending, hother, sentDescriptions_append, readDescriptions_append, hread₀,
      add_zero, ← tsub_add_eq_add_tsub hsent]
    generalize sentDescriptions tr g h.peerId - readDescriptions tr h g.peerId = underway
    calc
      (w'.tabs g).client.unsent h.peerId + (underway + sentDescriptions es g h.peerId) +
            (w.tabs h).client.unapplied g.peerId
          = (sentDescriptions es g h.peerId + (w'.tabs g).client.unsent h.peerId) +
              (underway + (w.tabs h).client.unapplied g.peerId) := by abel
      _ = ((w.tabs g).client.move h.peerId a).gives + ((w.tabs g).client.unsent h.peerId +
            underway + (w.tabs h).client.unapplied g.peerId) := by
        rw [hgives]
        abel
  · -- what `g` deals with was sent and not read, or read before
    have htakes : readDescriptions es g h.peerId + (w.tabs g).client.unapplied h.peerId =
        ((w.tabs g).client.move h.peerId a).takes + (w'.tabs g).client.unapplied h.peerId := by
      rw [hacts.read]
      exact hfollows.takes
    rw [readDescriptions_append, sentDescriptions_append, hsent₀, add_zero] at hread
    have hsplit : readDescriptions es g h.peerId + (sentDescriptions tr h g.peerId -
        (readDescriptions tr g h.peerId + readDescriptions es g h.peerId)) =
        sentDescriptions tr h g.peerId - readDescriptions tr g h.peerId := by
      rw [tsub_add_eq_tsub_tsub]
      exact add_tsub_cancel_of_le (le_tsub_of_add_le_left hread)
    simp only [side, pending, hother, sentDescriptions_append, readDescriptions_append, hsent₀,
      add_zero, ← hsplit]
    generalize sentDescriptions tr h g.peerId -
      (readDescriptions tr g h.peerId + readDescriptions es g h.peerId) = underway
    calc
      (w.tabs h).client.unsent g.peerId + (readDescriptions es g h.peerId + underway) +
            (w.tabs g).client.unapplied h.peerId
          = (readDescriptions es g h.peerId + (w.tabs g).client.unapplied h.peerId) +
              ((w.tabs h).client.unsent g.peerId + underway) := by abel
      _ = ((w.tabs g).client.move h.peerId a).takes + ((w.tabs h).client.unsent g.peerId +
            underway + (w'.tabs g).client.unapplied h.peerId) := by
        rw [htakes]
        abel

/-- What other pages do leaves the side of `g` as it is. -/
theorem side_of_idle (hg : (w'.tabs g).client = (w.tabs g).client)
    (hh : (w'.tabs h).client = (w.tabs h).client) (hevents : clientEvents es g = [])
    (hreceived : received es h = []) : side w' (tr ++ es) g h = side w tr g h := by
  have hsent : sentDescriptions es g h.peerId = 0 := by
    rw [sentDescriptions, hevents]
    rfl
  have hread : readDescriptions es h g.peerId = 0 := by
    rw [readDescriptions, hreceived]
    rfl
  simp only [side, pending, hg, hh, sentDescriptions_append, readDescriptions_append, hsent,
    hread, add_zero]

/-! ## Which steps are ok -/

/-- The step is no move of `g` or `h` that spoils their negotiation. -/
def OkStep (g h : PeerHandler PeerID) (w : World PeerID) (tr : List (WorldEvent PeerID)) :
    WorldAction PeerID → Prop
  | .client k a =>
      (k = g → ((w.tabs g).client.move h.peerId a).Ok (side w tr g h) (side w tr h g)) ∧
        (k = h → ((w.tabs h).client.move g.peerId a).Ok (side w tr h g) (side w tr g h))
  | _ => True

theorem okStep_comm : OkStep g h w tr l ↔ OkStep h g w tr l := by
  cases l with
  | client => exact and_comm
  | _ => exact Iff.rfl

/-- A step of the client of `g` is judged by its move; to read a request is always ok. -/
theorem okStep_iff {a : Wasm.Action PeerID} (hne : h ≠ g)
    (hl : l = .client g a ∨ l = .read g ∧ ∃ request, a = .receive request) :
    OkStep g h w tr l ↔
      ((w.tabs g).client.move h.peerId a).Ok (side w tr g h) (side w tr h g) := by
  rcases hl with rfl | ⟨rfl, request, rfl⟩
  · exact ⟨fun hok => hok.1 rfl, fun hok => ⟨fun _ => hok, fun heq => absurd heq.symm hne⟩⟩
  · exact ⟨fun _ => (w.tabs g).client.ok_receive h.peerId request _ rfl, fun _ => trivial⟩

theorem okStep_of_ne {a : Wasm.Action PeerID} (hg : k ≠ g) (hh : k ≠ h)
    (hl : l = .client k a ∨ l = .read k ∧ ∃ request, a = .receive request) :
    OkStep g h w tr l := by
  rcases hl with rfl | ⟨rfl, -⟩
  · exact ⟨fun heq => absurd heq hg, fun heq => absurd heq hh⟩
  · trivial

/-! ## Steps -/

theorem sound_of_run (hrun : (world codec).Run ls w tr) (g : PeerHandler PeerID) :
    (w.tabs g).client.Sound := by
  induction hrun with
  | nil => exact Client.sound_new
  | snoc _ hstep ih =>
      cases clientStep_of_step hstep g with
      | acts _ _ hcstep => exact ih.of_step hcstep
      | reads _ hcstep => exact ih.of_step hcstep
      | idle hclient => exact hclient ▸ ih

/-- The two sides after a step: one of them has moved, or neither. -/
inductive Advanced (w : World PeerID) (tr : List (WorldEvent PeerID)) (l : WorldAction PeerID)
    (w' : World PeerID) (tr' : List (WorldEvent PeerID)) (g h : PeerHandler PeerID) : Prop
  | left {m} (hok : OkStep g h w tr l ↔ m.Ok (side w tr g h) (side w tr h g))
      (hmoves : Moves m (side w tr g h) (side w tr h g) (side w' tr' g h) (side w' tr' h g))
  | right {m} (hok : OkStep g h w tr l ↔ m.Ok (side w tr h g) (side w tr g h))
      (hmoves : Moves m (side w tr h g) (side w tr g h) (side w' tr' h g) (side w' tr' g h))
  | none (hok : OkStep g h w tr l) (hleft : side w' tr' g h = side w tr g h)
      (hright : side w' tr' h g = side w tr h g)

theorem Advanced.symm {tr' : List (WorldEvent PeerID)} (hadv : Advanced w tr l w' tr' g h) :
    Advanced w tr l w' tr' h g := by
  cases hadv with
  | left hok hmoves => exact .right (okStep_comm.trans hok) hmoves
  | right hok hmoves => exact .left (okStep_comm.trans hok) hmoves
  | none hok hleft hright => exact .none (okStep_comm.mp hok) hright hleft

/-- The client of `g` acts. -/
theorem advanced_of_acts {a : Wasm.Action PeerID} (hrun : (world codec).Run ls w tr)
    (hrun' : (world codec).Run (ls ++ [l]) w' (tr ++ es)) (hne : h ≠ g) (hg : Alone ls g)
    (hh : Alone (ls ++ [l]) h)
    (hl : l = .client g a ∨ l = .read g ∧ ∃ request, a = .receive request)
    (hacts : Acts w w' es g a) : Advanced w tr l w' (tr ++ es) g h :=
  .left (okStep_iff hne hl) (hacts.moves hne (sound_of_run hrun g)
    (readDescriptions_le hrun hg h) (readDescriptions_le hrun' hh g))

theorem advanced_of_step (hrun : (world codec).Run ls w tr)
    (hstep : w.step codec l = some (w', es)) (hne : h ≠ g) (hg : Alone (ls ++ [l]) g)
    (hh : Alone (ls ++ [l]) h) : Advanced w tr l w' (tr ++ es) g h := by
  have hrun' := hrun.snoc hstep
  cases performs_of_step hstep with
  | @acts k a hl hacts =>
      by_cases hkg : k = g
      · subst hkg
        exact advanced_of_acts hrun hrun' hne hg.of_concat hh hl hacts
      by_cases hkh : k = h
      · subst hkh
        exact (advanced_of_acts hrun hrun' hne.symm hh.of_concat hg hl hacts).symm
      · have hgk : g ≠ k := fun heq => hkg heq.symm
        have hhk : h ≠ k := fun heq => hkh heq.symm
        exact .none (okStep_of_ne hkg hkh hl)
          (side_of_idle (hacts.client g hgk) (hacts.client h hhk) (hacts.events g hgk)
            (hacts.received h hhk))
          (side_of_idle (hacts.client h hhk) (hacts.client g hgk) (hacts.events h hhk)
            (hacts.received g hgk))
  | none hl hclient hevents hreceived =>
      have hok : OkStep g h w tr l := by
        cases l with
        | client k a => exact absurd rfl (hl k a)
        | _ => trivial
      exact .none hok
        (side_of_idle (hclient g) (hclient h) (hevents g) (hreceived h))
        (side_of_idle (hclient h) (hclient g) (hevents h) (hreceived g))

theorem decided_of_advanced {tr' : List (WorldEvent PeerID)}
    (hneg : Negotiating (side w tr g h) (side w tr h g))
    (hadv : Advanced w tr l w' tr' g h) :
    (OkStep g h w tr l → Negotiating (side w' tr' g h) (side w' tr' h g)) ∧
      (¬ OkStep g h w tr l → Doomed (side w' tr' g h) (side w' tr' h g)) := by
  cases hadv with
  | left hok hmoves =>
      rw [hok]
      exact decided_of_moves hneg hmoves
  | right hok hmoves =>
      rw [hok]
      obtain ⟨hkeep, hbreak⟩ := decided_of_moves hneg.symm hmoves
      exact ⟨fun hok => (hkeep hok).symm, fun hnot => (hbreak hnot).symm⟩
  | none hok hleft hright =>
      rw [hleft, hright]
      exact ⟨fun _ => hneg, fun hnot => absurd hok hnot⟩

theorem doomed_of_advanced {tr' : List (WorldEvent PeerID)}
    (hdoomed : Doomed (side w tr g h) (side w tr h g))
    (hadv : Advanced w tr l w' tr' g h) : Doomed (side w' tr' g h) (side w' tr' h g) := by
  cases hadv with
  | left _ hmoves => exact hdoomed.of_moves hmoves
  | right _ hmoves => exact (hdoomed.symm.of_moves hmoves).symm
  | none _ hleft hright => rwa [hleft, hright]

/-! ## Every run -/

/-- The end of a run tells whether all its steps were ok. -/
theorem run_decides (hrun : (world codec).Run ls w tr) (hne : h ≠ g) (hg : Alone ls g)
    (hh : Alone ls h) :
    (world codec).StepsMeetAfter (OkStep g h) ls ∧ Negotiating (side w tr g h) (side w tr h g) ∨
      ¬ (world codec).StepsMeetAfter (OkStep g h) ls ∧
        Doomed (side w tr g h) (side w tr h g) := by
  induction hrun with
  | nil => exact Or.inl ⟨fun pre l hpre => by simp at hpre, Or.inl .fresh⟩
  | @snoc ls w tr l w' es hrun hstep ih =>
      have hadv := advanced_of_step hrun hstep hne hg hh
      rw [Machine.stepsMeetAfter_concat hrun hstep]
      rcases ih hg.of_concat hh.of_concat with
        ⟨hmeets, hneg⟩ | ⟨hmisses, hdoomed⟩
      · obtain ⟨hkeep, hbreak⟩ := decided_of_advanced hneg hadv
        by_cases hok : OkStep g h w tr l
        · exact Or.inl ⟨⟨hmeets, hok⟩, hkeep hok⟩
        · exact Or.inr ⟨fun hall => hok hall.2, hbreak hok⟩
      · exact Or.inr ⟨fun hall => hmisses hall.1, doomed_of_advanced hdoomed hadv⟩

/-- Each of the two has read what the other has sent to it, and neither runs `make_offer` or
`handle_offer` for the other. -/
structure World.Quiet (w : World PeerID) (tr : List (WorldEvent PeerID))
    (g h : PeerHandler PeerID) : Prop where
  read : readDescriptions tr h g.peerId = sentDescriptions tr g h.peerId ∧
    readDescriptions tr g h.peerId = sentDescriptions tr h g.peerId
  offers : (w.tabs g).client.offers h.peerId = [] ∧ (w.tabs h).client.offers g.peerId = []
  handling : (w.tabs g).client.handling h.peerId ∈ [none, some .addIceCandidate] ∧
    (w.tabs h).client.handling g.peerId ∈ [none, some .addIceCandidate]

instance (w : World PeerID) (tr : List (WorldEvent PeerID)) (g h : PeerHandler PeerID) :
    Decidable (w.Quiet tr g h) :=
  decidable_of_iff (_ ∧ _ ∧ _) ⟨fun ⟨hread, hoffers, hhandling⟩ => ⟨hread, hoffers, hhandling⟩,
    fun hquiet => ⟨hquiet.read, hquiet.offers, hquiet.handling⟩⟩

theorem World.Quiet.symm (hquiet : w.Quiet tr g h) : w.Quiet tr h g :=
  ⟨hquiet.read.symm, hquiet.offers.symm, hquiet.handling.symm⟩

theorem World.Quiet.pending (hquiet : w.Quiet tr g h) : pending w tr g h = 0 := by
  have hidle : ∀ {handling : Option Handling}, handling ∈ [none, some .addIceCandidate] →
      handling.bind Handling.unsent = none ∧ handling.bind Handling.unapplied = none := by
    intro handling hmem
    simp only [List.mem_cons, List.not_mem_nil, or_false] at hmem
    rcases hmem with rfl | rfl <;> exact ⟨rfl, rfl⟩
  simp [EndToEnd.pending, Client.unsent, Client.unapplied, hquiet.read.1, hquiet.offers.1,
    (hidle hquiet.handling.1).1, (hidle hquiet.handling.2).2]

theorem World.Quiet.not_haveRemoteOffer (hquiet : w.Quiet tr g h)
    (hsound : (w.tabs g).client.Sound) (d : SessionDescription) :
    ((w.tabs g).client.conn h.peerId).signalingState ≠ .haveRemoteOffer d := by
  have hhandling := hquiet.handling.1
  refine hsound.not_haveRemoteOffer (fun hreader => ?_) (fun e hreader => ?_) d
  all_goals
    rw [Client.handling_of_reader hreader, if_pos rfl] at hhandling
    simp at hhandling

/-- Page 2 answers, and page 1 applies the answer. -/
def agreedRun : List (WorldAction UInt16) :=
  callRun ++ List.replicate 4 (.client (page 2) (.handle ⟨"answer", false, true⟩)) ++
    relaying (page 2) (page 1) ++ [.client (page 1) (.handle ⟨"", false, true⟩)]

end SfRs.EndToEnd
