import SfRs.PeerId.Basic
import SfRs.Server.Connection
/-!
# One live registration for each peer id

`add_peer` checks that the id is free and inserts in two separate steps, so that two
connections with one id can both pass the check.  Registrations stay unique in exactly
the runs in which no `insert` finds the key taken.
-/

set_option linter.unusedSectionVars false

namespace SfRs.Server

open SfRs.Lib SfRs.Protocol

variable {PeerID : Type} [DecidableEq PeerID]

/-- The position of an `add_peer` that has inserted its entry. -/
def Pc.Inserted : Pc PeerID → Prop
  | .incrementPeerCount _ | .randomId _ | .iter _ | .collect .. | .forEach .. | .returned =>
      True
  | _ => False

/-- The connection has inserted its entry and has not yet executed its own removal. -/
def ServerState.Live (s : ServerState PeerID) (h : PeerHandler PeerID) : Prop :=
  match s.conns h with
  | .adding => ∃ pc, s.app.calls (h, 0) = some pc ∧ pc.Inserted
  | .serving _ | .writing _ _ | .dispatching _ => True
  | .removing n => s.app.calls (h, n) = some (.remove h.peerId)
  | .absent | .gone => False

/-- At most one live connection has a given id, the registry holds its handler, and no
connection has removed an entry of another. -/
def OneRegistration (s : ServerState PeerID) (tr : List (ServerEvent PeerID)) : Prop :=
  (∀ h h', s.Live h → s.Live h' → h.peerId = h'.peerId → h = h') ∧
    (∀ h, s.Live h → s.app.peers.lookup h.peerId = some h) ∧
    ∀ h n h', .app (.removed (h, n) h') ∈ tr → h' = h

/-- The step does not insert over an entry. -/
def InsertsVacant (s : ServerState PeerID) : ServerAction PeerID → Prop
  | .advance h _ => ∀ n handler, (s.conns h).currentCall = some n →
      s.app.calls (h, n) = some (.insert handler) →
      s.app.peers.lookup handler.peerId = none
  | _ => True

/-- The entries of the registry are the handlers of the live connections. -/
structure Registered (s : ServerState PeerID) (tr : List (ServerEvent PeerID)) : Prop where
  waiting : ∀ h, Waiting s h
  entry : ∀ id h, s.app.peers.lookup id = some h ↔ s.Live h ∧ h.peerId = id
  own : ∀ h n h', .app (.removed (h, n) h') ∈ tr → h' = h

theorem live_of_loopAt {s : ServerState PeerID} {h : PeerHandler PeerID} {n : Nat}
    (hloop : LoopAt n (s.conns h)) : s.Live h := by
  unfold ServerState.Live
  generalize s.conns h = conn at hloop
  cases hloop <;> trivial

theorem inserted_forget (pc : Pc PeerID) (peerId : PeerID) :
    (pc.forget peerId).Inserted ↔ pc.Inserted := by
  cases pc <;> rfl

theorem inserted_of_advance {κ : Type} [DecidableEq κ] {s s' : AppState PeerID κ} {k : κ}
    {pc pc' : Pc PeerID} {es : List (Event PeerID κ)}
    (hadvance : AppState.Advances s k pc s' es) (hinserted : pc.Inserted)
    (hpc' : s'.calls k = some pc') : pc'.Inserted := by
  cases hadvance with
  | quiet hquiet =>
      rw [AppState.setCall_calls_self, Option.some.injEq] at hpc'
      subst hpc'
      cases hquiet <;> trivial
  | iter | snapshot | sendEach =>
      rw [AppState.setCall_calls_self, Option.some.injEq] at hpc'
      subst hpc'
      trivial
  | vacant | insert | sendSingle | remove | removeAbsent => exact absurd hinserted id

theorem forget_eq_remove_iff {pc : Pc PeerID} {peerId id : PeerID} :
    pc.forget peerId = .remove id ↔ pc = .remove id := by
  cases pc <;> simp [Pc.forget]

/-- Steps of other connections do not change whether `h` is live. -/
theorem live_of_same {s s' : ServerState PeerID} {h : PeerHandler PeerID}
    (hconns : s'.conns h = s.conns h) (hcalls : SameCalls s s' h) : s'.Live h ↔ s.Live h := by
  unfold ServerState.Live
  rw [hconns]
  split
  case h_1 =>
      rcases hcalls 0 with hcall | ⟨peerId, hcall⟩
      · rw [hcall]
      · simp [hcall, Option.map_eq_some_iff, inserted_forget]
  case h_5 n _ =>
      rcases hcalls n with hcall | ⟨peerId, hcall⟩
      · rw [hcall]
      · simp [hcall, Option.map_eq_some_iff, forget_eq_remove_iff]
  all_goals rfl

/-- A step that leaves the registry and the live connections keeps `Registered`. -/
theorem Registered.of_live_iff {s s' : ServerState PeerID} {tr es : List (ServerEvent PeerID)}
    (hreg : Registered s tr) (hwaiting : ∀ h, Waiting s' h)
    (hpeers : s'.app.peers = s.app.peers) (hlive : ∀ h, s'.Live h ↔ s.Live h)
    (hes : ∀ k h, .app (.removed k h) ∉ es) : Registered s' (tr ++ es) := by
  refine ⟨hwaiting, fun id h => ?_, fun h n h' hmem => ?_⟩
  · rw [hpeers, hlive]
    exact hreg.entry id h
  · rcases List.mem_append.mp hmem with hmem | hmem
    · exact hreg.own h n h' hmem
    · exact absurd hmem (hes _ _)

theorem Registered.lookup {s : ServerState PeerID} {tr : List (ServerEvent PeerID)}
    (hreg : Registered s tr) {h : PeerHandler PeerID} (hlive : s.Live h) :
    s.app.peers.lookup h.peerId = some h :=
  (hreg.entry h.peerId h).mpr ⟨hlive, rfl⟩

theorem Registered.oneRegistration {s : ServerState PeerID} {tr : List (ServerEvent PeerID)}
    (hreg : Registered s tr) : OneRegistration s tr := by
  refine ⟨fun h h' hlive hlive' heq => ?_, fun h => hreg.lookup, hreg.own⟩
  have hlookup := hreg.lookup hlive
  rw [heq, hreg.lookup hlive', Option.some.injEq] at hlookup
  exact hlookup.symm

/-! ## One step -/

/-- Whether a connection that waits for a call at a position is live. -/
def Call.LiveAt : Call PeerID → Pc PeerID → Prop
  | .addPeer _, pc => pc.Inserted
  | .removePeer peerId, pc => pc = .remove peerId
  | _, _ => True

theorem live_iff_liveAt {s : ServerState PeerID} {h : PeerHandler PeerID} {n : Nat}
    {call : Call PeerID} {pc : Pc PeerID} (hwaits : WaitsFor h (s.conns h) n call)
    (hpc : s.app.calls (h, n) = some pc) : s.Live h ↔ call.LiveAt pc := by
  unfold ServerState.Live
  generalize s.conns h = conn at hwaits
  cases hwaits with
  | adding => simp [hpc, Call.LiveAt]
  | dispatching => rfl
  | removing => simp [hpc, Call.LiveAt]

theorem liveAt_of_broadcasts {call : Call PeerID} {b : Broadcast PeerID} {pc : Pc PeerID}
    (hb : call.Broadcasts b) (hpc : pc.Inserted) : call.LiveAt pc := by
  cases hb with
  | newPeer => exact hpc
  | forward | except => trivial

theorem liveAt_iff_of_quiet {call : Call PeerID} {pc pc' : Pc PeerID} (hat : call.At pc)
    (hquiet : AppState.Quiet pc pc') : call.LiveAt pc' ↔ call.LiveAt pc := by
  cases hquiet with
  | found | incremented | named | unnamed => cases hat; rfl
  | visited =>
      cases hat with
      | collect hb =>
          exact iff_of_true (liveAt_of_broadcasts hb trivial) (liveAt_of_broadcasts hb trivial)
  | swept | skipped =>
      cases hat with
      | forEach hb =>
          exact iff_of_true (liveAt_of_broadcasts hb trivial) (liveAt_of_broadcasts hb trivial)
  | forwarded => cases hat; rfl
  | decremented => cases hat; simp [Call.LiveAt]

/-- What a step of the connection `h` does to the registry and to whether `h` is live. -/
inductive Registers (s s' : ServerState PeerID) (h : PeerHandler PeerID) :
    ServerAction PeerID → List (ServerEvent PeerID) → Prop
  | same {l es} (hpeers : s'.app.peers = s.app.peers) (hlive : s'.Live h ↔ s.Live h)
      (hes : ∀ k g, .app (.removed k g) ∉ es) : Registers s s' h l es
  | insert {choice n} (hcurrent : (s.conns h).currentCall = some n)
      (hpc : s.app.calls (h, n) = some (.insert h))
      (hpeers : s'.app.peers = s.app.peers.insert h.peerId h) (hlive : ¬ s.Live h)
      (hlive' : s'.Live h) : Registers s s' h (.advance h choice) [.app (.inserted (h, n) h)]
  | remove {l n handler} (hfound : s.app.peers.lookup h.peerId = some handler)
      (hpeers : s'.app.peers = s.app.peers.erase h.peerId) (hlive : s.Live h)
      (hlive' : ¬ s'.Live h) : Registers s s' h l [.app (.removed (h, n) handler)]
  | absent {l} (habsent : s.app.peers.lookup h.peerId = none)
      (hpeers : s'.app.peers = s.app.peers) (hlive : s.Live h) (hlive' : ¬ s'.Live h) :
      Registers s s' h l []

section Step

variable {s s' : ServerState PeerID} {tr es : List (ServerEvent PeerID)}
  {h : PeerHandler PeerID} {l : ServerAction PeerID}

theorem not_removed_of_sendForward {app : AppState PeerID (CallId PeerID)}
    {k : CallId PeerID} {fromPeerId toPeerId : PeerID} {data : PeerEvent PeerID}
    (k' : CallId PeerID) (g : PeerHandler PeerID) :
    .app (.removed k' g) ∉ (app.sendForward k fromPeerId toPeerId data).2.map ServerEvent.app := by
  intro hmem
  obtain ⟨e, he, heq⟩ := List.mem_map.mp hmem
  cases heq
  rcases AppState.sendForward_events he with ⟨_, hlookup⟩ | ⟨_, hspawned⟩
  · cases hlookup
  · cases hspawned

/-- The insert of a connection: it is the connection's own, and makes it live. -/
theorem registers_insert {n : Nat} {handler : PeerHandler PeerID}
    {aes : List (Event PeerID (CallId PeerID))} (hwaiting : Waiting s h)
    (hcurrent : (s.conns h).currentCall = some n)
    (hpc : s.app.calls (h, n) = some (.insert handler))
    (hadvance : AppState.Advances s.app (h, n) (.insert handler) s'.app aes)
    (hconns : s'.conns = s.conns) :
    handler = h ∧ aes = [.inserted (h, n) h] ∧
      s'.app.peers = s.app.peers.insert h.peerId h ∧ ¬ s.Live h ∧ s'.Live h := by
  obtain ⟨call, pc, hwaits, hpc', hat⟩ := hwaiting n hcurrent
  obtain rfl : .insert handler = pc := Option.some.inj (hpc.symm.trans hpc')
  have hwaits' : WaitsFor h (s'.conns h) n call := by rwa [hconns]
  have hlive := live_iff_liveAt hwaits hpc
  have hlive' : ∀ pc', s'.app.calls (h, n) = some pc' → (s'.Live h ↔ call.LiveAt pc') :=
    fun pc' hpc' => live_iff_liveAt hwaits' hpc'
  generalize happ : s'.app = app at hadvance hlive'
  cases hat with
  | insert =>
      obtain rfl : handler = h := by
        generalize s.conns h = conn at hwaits
        cases hwaits with
        | adding => rfl
      cases hadvance with
      | quiet hquiet => cases hquiet
      | insert =>
          have hdead : ¬ s.Live handler := by
            rw [hlive]
            exact id
          have hnow : s'.Live handler :=
            (hlive' _ (AppState.setCall_calls_self _ _ _)).mpr trivial
          exact ⟨rfl, rfl, rfl, hdead, hnow⟩

theorem registers_advance (choice : Choice PeerID) {n : Nat} {pc : Pc PeerID}
    {aes : List (Event PeerID (CallId PeerID))} (hwaiting : Waiting s h)
    (hcurrent : (s.conns h).currentCall = some n) (hpc : s.app.calls (h, n) = some pc)
    (hadvance : AppState.Advances s.app (h, n) pc s'.app aes) (hconns : s'.conns = s.conns) :
    Registers s s' h (.advance h choice) (aes.map .app) := by
  obtain ⟨call, pc₀, hwaits, hpc₀, hat⟩ := hwaiting n hcurrent
  obtain rfl : pc = pc₀ := Option.some.inj (hpc.symm.trans hpc₀)
  have hwaits' : WaitsFor h (s'.conns h) n call := by rwa [hconns]
  have hlive := live_iff_liveAt hwaits hpc
  have hlive' : ∀ pc', s'.app.calls (h, n) = some pc' → (s'.Live h ↔ call.LiveAt pc') :=
    fun pc' hpc' => live_iff_liveAt hwaits' hpc'
  generalize happ : s'.app = app at hadvance
  cases hadvance with
  | quiet hquiet hsame =>
      refine .same (by rw [happ]; exact hsame.peers) ?_ (by simp)
      rw [hlive' _ (by rw [happ, AppState.setCall_calls_self]), hlive,
        liveAt_iff_of_quiet hat hquiet]
  | vacant handler =>
      refine .same (by rw [happ]; rfl) ?_ (by simp)
      rw [hlive' _ (by rw [happ, AppState.setCall_calls_self]), hlive]
      cases hat
      rfl
  | insert handler =>
      obtain ⟨rfl, -, hpeers, hdead, hnow⟩ :=
        registers_insert hwaiting hcurrent hpc (by rw [happ]; exact .insert handler) hconns
      exact .insert hcurrent hpc hpeers hdead hnow
  | iter b =>
      refine .same (by rw [happ]; rfl) ?_ (by simp)
      rw [hlive' _ (by rw [happ, AppState.setCall_calls_self]), hlive]
      cases hat with
      | iter hb =>
          exact iff_of_true (liveAt_of_broadcasts hb trivial) (liveAt_of_broadcasts hb trivial)
  | snapshot b due seen =>
      refine .same (by rw [happ]; rfl) ?_ (by simp)
      rw [hlive' _ (by rw [happ, AppState.setCall_calls_self]), hlive]
      cases hat with
      | collect hb =>
          exact iff_of_true (liveAt_of_broadcasts hb trivial) (liveAt_of_broadcasts hb trivial)
  | sendEach b pid ids =>
      refine .same (by rw [happ]; simp) ?_ not_removed_of_sendForward
      rw [hlive' _ (by rw [happ, AppState.setCall_calls_self]), hlive]
      cases hat with
      | forEach hb =>
          exact iff_of_true (liveAt_of_broadcasts hb trivial) (liveAt_of_broadcasts hb trivial)
  | sendSingle fromPeerId toPeerId data =>
      refine .same (by rw [happ]; simp) ?_ not_removed_of_sendForward
      rw [hlive' _ (by rw [happ, AppState.setCall_calls_self]), hlive]
      cases hat
      rfl
  | remove handler peerId hfound =>
      cases hat with
      | remove =>
          generalize hconnh : s.conns h = conn at hwaits
          cases hwaits with
          | removing =>
              refine .remove hfound (by rw [happ]; rfl) (hlive.mpr rfl) ?_
              rw [hlive' _ (by rw [happ, AppState.setCall_calls_self])]
              simp [Call.LiveAt]
  | removeAbsent peerId habsent =>
      cases hat with
      | remove =>
          generalize hconnh : s.conns h = conn at hwaits
          cases hwaits with
          | removing =>
              refine .absent habsent (by rw [happ]; rfl) (hlive.mpr rfl) ?_
              rw [hlive' _ (by rw [happ, AppState.setCall_calls_self])]
              simp [Call.LiveAt]

theorem ConnSteps.registers (hconn : ConnSteps s s' h l es) (hwaiting : Waiting s h) :
    Registers s s' h l es := by
  cases hconn with
  | start _ hstarts _ happ hconns =>
      refine .same (by rw [happ]; rfl) ?_ ?_
      · unfold ServerState.Live
        rw [hconns, Function.update_self, happ]
        generalize s.conns h = conn at hstarts
        cases hstarts with
        | accept => simp [Call.start, Pc.Inserted]
        | forward => rfl
        | leave n hloop => cases hloop <;> simp [Call.start]
      · intro k g hmem
        generalize s.conns h = conn at hstarts
        cases hstarts <;> simp at hmem
  | advance hcurrent hpc hadvance hconns =>
      exact registers_advance _ hwaiting hcurrent hpc hadvance hconns
  | resume hresumes happ hconns =>
      refine .same (by rw [happ]) ?_ (by simp)
      unfold ServerState.Live
      rw [hconns, Function.update_self]
      generalize s.conns h = conn at hresumes
      cases hresumes with
      | added hcall => simp [hcall, Pc.Inserted]
      | dispatched n => rfl
  | finish hends happ hconns =>
      refine .same (by rw [happ]; rfl) ?_ (by simp)
      unfold ServerState.Live
      rw [hconns, Function.update_self]
      generalize s.conns h = conn at hends
      cases hends with
      | rejected e hcall => simp [hcall, Pc.Inserted]
      | removed n hcall => simp [hcall]
  | @loop _ _ m _ _ _ hloop hloop' _ happ hconns hes =>
      refine .same (by rw [happ]) ?_ ?_
      · have hafter : LoopAt m (s'.conns h) := by
          rw [hconns, Function.update_self]
          exact hloop'
        exact iff_of_true (live_of_loopAt hafter) (live_of_loopAt hloop)
      · intro k g hmem
        rcases hes _ hmem with ⟨_, heq⟩ | ⟨_, heq⟩ <;> cases heq
  | @recv n _ _ hloop _ happ hconns =>
      refine .same (by rw [happ]; rfl) ?_ (by simp)
      have hafter : LoopAt n (s'.conns h) := by
        rw [hconns, Function.update_self]
        exact .writing _
      exact iff_of_true (live_of_loopAt hafter) (live_of_loopAt hloop)

/-- A step of `h` that leaves the registry and `h`'s liveness keeps `Registered`. -/
theorem Registered.of_conn (hreg : Registered s tr) (hconn : ConnSteps s s' h l es)
    (hpeers : s'.app.peers = s.app.peers) (hlive : s'.Live h ↔ s.Live h)
    (hes : ∀ k h, .app (.removed k h) ∉ es) : Registered s' (tr ++ es) := by
  refine hreg.of_live_iff ((ServerSteps.conn hconn).waiting hreg.waiting) hpeers (fun g => ?_) hes
  by_cases hg : g = h
  · rw [hg, hlive]
  · obtain ⟨hconns, hcalls⟩ := hconn.others hg
    exact live_of_same hconns hcalls

/-- The connection's own insert, into a vacant place. -/
theorem Registered.insert {n : Nat} (hreg : Registered s tr)
    (hconn : ConnSteps s s' h l [.app (.inserted (h, n) h)])
    (hpeers : s'.app.peers = s.app.peers.insert h.peerId h)
    (hvacant : s.app.peers.lookup h.peerId = none) (hlive : s'.Live h) :
    Registered s' (tr ++ [.app (.inserted (h, n) h)]) := by
  have hothers : ∀ g, g ≠ h → (s'.Live g ↔ s.Live g) := fun g hg =>
    live_of_same (hconn.others hg).1 (hconn.others hg).2
  refine ⟨(ServerSteps.conn hconn).waiting hreg.waiting, fun id g => ?_, fun g m g' hmem => ?_⟩
  · rw [hpeers]
    by_cases hid : id = h.peerId
    · subst hid
      rw [AList.lookup_insert, Option.some.injEq]
      constructor
      · rintro rfl
        exact ⟨hlive, rfl⟩
      · rintro ⟨hg, heq⟩
        by_contra hne
        have hlookup := hreg.lookup ((hothers g (Ne.symm hne)).mp hg)
        rw [heq, hvacant] at hlookup
        cases hlookup
    · rw [AList.lookup_insert_ne hid, hreg.entry]
      by_cases hg : g = h
      · subst hg
        exact iff_of_false (fun hboth => hid hboth.2.symm) fun hboth => hid hboth.2.symm
      · rw [hothers g hg]
  · exact hreg.own g m g' (by simpa using hmem)

/-- The connection's own removal, which finds its own entry. -/
theorem Registered.remove {n : Nat} {handler : PeerHandler PeerID}
    (hreg : Registered s tr) (hconn : ConnSteps s s' h l [.app (.removed (h, n) handler)])
    (hpeers : s'.app.peers = s.app.peers.erase h.peerId)
    (hfound : s.app.peers.lookup h.peerId = some handler) (hlive : s.Live h)
    (hlive' : ¬ s'.Live h) : Registered s' (tr ++ [.app (.removed (h, n) handler)]) := by
  have hothers : ∀ g, g ≠ h → (s'.Live g ↔ s.Live g) := fun g hg =>
    live_of_same (hconn.others hg).1 (hconn.others hg).2
  obtain rfl : h = handler := by
    rw [hreg.lookup hlive, Option.some.injEq] at hfound
    exact hfound
  refine ⟨(ServerSteps.conn hconn).waiting hreg.waiting, fun id g => ?_, fun g m g' hmem => ?_⟩
  · rw [hpeers]
    by_cases hid : id = h.peerId
    · subst hid
      rw [AList.lookup_erase]
      refine iff_of_false (by simp) fun ⟨hg, heq⟩ => ?_
      have hne : g ≠ h := fun hgh => hlive' (hgh ▸ hg)
      have hlookup := hreg.lookup ((hothers g hne).mp hg)
      rw [heq, hfound, Option.some.injEq] at hlookup
      exact hne hlookup.symm
    · rw [AList.lookup_erase_ne hid, hreg.entry]
      by_cases hg : g = h
      · subst hg
        exact iff_of_false (fun hboth => hid hboth.2.symm) fun hboth => hid hboth.2.symm
      · rw [hothers g hg]
  · rcases List.mem_append.mp hmem with hmem | hmem
    · exact hreg.own g m g' hmem
    · simp only [List.mem_singleton, ServerEvent.app.injEq, Event.removed.injEq,
        Prod.mk.injEq] at hmem
      obtain ⟨⟨rfl, -⟩, rfl⟩ := hmem
      rfl

theorem Registered.conn (hreg : Registered s tr) (hconn : ConnSteps s s' h l es)
    (hok : InsertsVacant s l) : Registered s' (tr ++ es) := by
  cases hconn.registers (hreg.waiting h) with
  | same hpeers hlive hes => exact hreg.of_conn hconn hpeers hlive hes
  | insert hcurrent hpc hpeers hdead hlive' =>
      exact hreg.insert hconn hpeers (hok _ h hcurrent hpc) hlive'
  | remove hfound hpeers hlive hlive' => exact hreg.remove hconn hpeers hfound hlive hlive'
  | absent habsent _ hlive =>
      -- a live connection's entry is still there
      have hlookup := hreg.lookup hlive
      rw [habsent] at hlookup
      cases hlookup

theorem Registered.step (hreg : Registered s tr) (hsteps : ServerSteps s s' l es)
    (hok : InsertsVacant s l) : Registered s' (tr ++ es) := by
  have hwaiting := hsteps.waiting hreg.waiting
  cases hsteps with
  | conn hconn => exact hreg.conn hconn hok
  | drop _ _ happ hconns =>
      refine hreg.of_live_iff hwaiting (by rw [happ]) (fun g => ?_) (by simp)
      exact live_of_same (by rw [hconns]) (sameCalls_of_eq (by rw [happ]))
  | enqueue _ _ happ hconns =>
      refine hreg.of_live_iff hwaiting (by rw [happ]; rfl) (fun g => ?_) (by simp)
      exact live_of_same (by rw [hconns]) (sameCalls_of_eq (by rw [happ]; rfl))

/-- An insert over an entry leaves two live connections with one id. -/
theorem Registered.break (hreg : Registered s tr) (hsteps : ServerSteps s s' l es)
    (hnot : ¬ InsertsVacant s l) : ¬ OneRegistration s' (tr ++ es) := by
  rintro ⟨hunique, -, -⟩
  cases hsteps with
  | drop | enqueue => exact hnot trivial
  | @conn h _ _ hconn =>
      have hstep := hconn
      cases hconn with
      | start hl | loop hl =>
          cases l with
          | advance => exact hl
          | _ => exact hnot trivial
      | resume | finish | recv => exact hnot trivial
      | @advance choice n pc aes hcurrent hpc hadvance hconns =>
          refine hnot fun m handler hcurrent' hinsert => ?_
          by_contra hsome
          obtain ⟨g, hg⟩ := Option.ne_none_iff_exists'.mp hsome
          obtain rfl : n = m := Option.some.inj (hcurrent.symm.trans hcurrent')
          obtain rfl : pc = .insert handler := Option.some.inj (hpc.symm.trans hinsert)
          obtain ⟨rfl, -, -, hdead, hlive'⟩ :=
            registers_insert (hreg.waiting h) hcurrent hpc hadvance hconns
          obtain ⟨hglive, hgid⟩ := (hreg.entry _ g).mp hg
          have hne : g ≠ handler := fun hgh => hdead (hgh ▸ hglive)
          have hglive' : s'.Live g :=
            (live_of_same (hstep.others hne).1 (hstep.others hne).2).mpr hglive
          exact hne (hunique g handler hglive' hlive' hgid)

end Step

theorem registered_init : Registered (ServerState.init : ServerState PeerID) [] := by
  refine ⟨fun h n hcurrent => ?_, fun id h => ?_, by simp⟩
  · cases hcurrent
  · simp [ServerState.init, AppState.init, ServerState.Live]

/-- Registrations are unique and owned throughout a run if and only if no step of the
run inserts over an entry. -/
theorem always_oneRegistration_iff (fromStr : String → Option (PeerRequest PeerID))
    (ls : List (ServerAction PeerID)) :
    (server fromStr).Always OneRegistration ls ↔
      (server fromStr).StepsMeet InsertsVacant ls :=
  Machine.always_iff_stepsMeet registered_init
    (fun _ _ _ _ _ hreg hok hstep => hreg.step (serverSteps_of_step hstep) hok)
    (fun _ _ hreg => hreg.oneRegistration)
    (fun _ _ _ _ _ hreg hnot hstep => hreg.break (serverSteps_of_step hstep) hnot) ls

/-- Two connections with one id pass the check before either inserts. -/
theorem not_always_oneRegistration_race :
    ¬ ∀ (fromStr : String → Option (PeerRequest PeerId.PeerID)) ls,
      (server fromStr).Always OneRegistration ls := by
  intro halways
  let h₁ : PeerHandler PeerId.PeerID := ⟨.ofByte 1, 1, 32⟩
  let h₂ : PeerHandler PeerId.PeerID := ⟨.ofByte 1, 2, 32⟩
  let ls : List (ServerAction PeerId.PeerID) := [.accept h₁, .accept h₂,
    .advance h₁ .go, .advance h₂ .go, .advance h₁ .go, .advance h₂ .go]
  have hexec : ((server fun _ => none).exec ls).map (fun r => ((r.1.conns h₁, r.1.conns h₂),
      r.1.app.calls (h₁, 0), r.1.app.calls (h₂, 0))) = some ((.adding, .adding),
        some (.incrementPeerCount h₁), some (.incrementPeerCount h₂)) := by decide
  obtain ⟨⟨s, tr⟩, hrun, hproj⟩ := Option.map_eq_some_iff.mp hexec
  simp only [Prod.mk.injEq] at hproj
  obtain ⟨⟨hconn₁, hconn₂⟩, hcall₁, hcall₂⟩ := hproj
  have hlive₁ : s.Live h₁ := by simp [ServerState.Live, hconn₁, hcall₁, Pc.Inserted]
  have hlive₂ : s.Live h₂ := by simp [ServerState.Live, hconn₂, hcall₂, Pc.Inserted]
  have hone := halways _ _ _ List.prefix_rfl s tr (Machine.run_of_exec hrun)
  have hne : h₁ ≠ h₂ := by decide
  exact hne (hone.1 h₁ h₂ hlive₁ hlive₂ rfl)

end SfRs.Server
