import SfRs.Server.Authenticity
import SfRs.Server.Origins
import SfRs.Server.PeerCount
/-!
# A connection by itself

A call on the state waits for no other call, and a send task for nothing but room in its
channel.  So a connection in its loop comes back to `select!`, empties its channel and takes
what the send tasks hold for it, whatever the other connections do.
-/

set_option linter.unusedSectionVars false

namespace SfRs.Server

open SfRs.Lib SfRs.Protocol

variable {PeerID : Type} [DecidableEq PeerID]

/-! ## What holds of every connection -/

/-- The number of calls a connection has made. -/
def ConnState.made : ConnState PeerID → Option Nat
  | .absent => some 0
  | .adding => some 1
  | .serving n | .writing n _ => some n
  | .dispatching n | .removing n => some (n + 1)
  | .gone => none

/-- In the loop, the number of the next or current call. -/
def ConnState.number : ConnState PeerID → Option Nat
  | .serving n | .writing n _ | .dispatching n => some n
  | _ => none

theorem number_of_loopAt {conn : ConnState PeerID} {n : Nat} (hloop : LoopAt n conn) :
    conn.number = some n := by
  cases hloop <;> rfl

theorem made_of_loopAt {conn : ConnState PeerID} {n : Nat} (hloop : LoopAt n conn) :
    conn.made = some n := by
  cases hloop <;> rfl

/-- The names of the calls to come are free, the first one is `add_peer`, and the receiver
is kept until the end. -/
structure Ready (s : ServerState PeerID) (h : PeerHandler PeerID) : Prop where
  fresh : ∀ n m, (s.conns h).made = some n → n ≤ m → s.app.calls (h, m) = none
  positive : ∀ n, (s.conns h).number = some n → 0 < n
  opened : s.conns h ≠ .gone → (s.app.channels h).closed = false

section Step

variable {s s' : ServerState PeerID} {h g : PeerHandler PeerID} {l : ServerAction PeerID}
  {es : List (ServerEvent PeerID)}

theorem Ready.of_same (hready : Ready s h) (hconns : s'.conns h = s.conns h)
    (hcalls : SameCalls s s' h)
    (hchannels : (s'.app.channels h).closed = (s.app.channels h).closed) : Ready s' h := by
  constructor
  · intro n m hmade hle
    rw [hconns] at hmade
    have hnone := hready.fresh n m hmade hle
    rcases hcalls m with hcall | ⟨peerId, hcall⟩
    · rw [hcall, hnone]
    · rw [hcall, hnone]
      rfl
  · rw [hconns]
    exact hready.positive
  · rw [hconns, hchannels]
    exact hready.opened

/-- The connection goes on to `conn'`, having made `n'` calls. -/
theorem Ready.move {n n' : Nat} {conn' : ConnState PeerID} (hready : Ready s h)
    (hmade : (s.conns h).made = some n) (hmade' : conn'.made = some n') (hle : n ≤ n')
    (hpositive : ∀ m, conn'.number = some m → 0 < m) (hlive : s.conns h ≠ .gone)
    (hconns : s'.conns = Function.update s.conns h conn')
    (hcalls : ∀ m, n' ≤ m → s'.app.calls (h, m) = s.app.calls (h, m))
    (hchannels : (s'.app.channels h).closed = (s.app.channels h).closed) : Ready s' h := by
  constructor
  · intro k m hk hkm
    rw [hconns, Function.update_self] at hk
    obtain rfl : n' = k := Option.some.inj (hmade'.symm.trans hk)
    rw [hcalls m hkm]
    exact hready.fresh n m hmade (hle.trans hkm)
  · intro m hm
    rw [hconns, Function.update_self] at hm
    exact hpositive m hm
  · intro _
    rw [hchannels]
    exact hready.opened hlive

theorem Ready.conn (hready : Ready s h) (hsteps : ConnSteps s s' h l es) : Ready s' h := by
  have hlooping : ∀ {n}, LoopAt n (s.conns h) → s.conns h ≠ .gone := by
    intro n hloop hgone
    rw [hgone] at hloop
    cases hloop
  cases hsteps with
  | @start _ n call conn' _ _ hstarts _ happ hconns =>
      have hcalls : ∀ m, n + 1 ≤ m → s'.app.calls (h, m) = s.app.calls (h, m) := by
        intro m hm
        have hne : ((h, m) : CallId PeerID) ≠ (h, n) := by simp; omega
        rw [happ, AppState.setCall_calls_of_ne _ hne]
      have hchannels : (s'.app.channels h).closed = (s.app.channels h).closed := by
        rw [happ]
        rfl
      obtain ⟨hmade, hmade', hlive, hpositive⟩ : (s.conns h).made = some n ∧
          conn'.made = some (n + 1) ∧ s.conns h ≠ .gone ∧
          ∀ m, conn'.number = some m → 0 < m := by
        have hold := hready.positive
        generalize s.conns h = conn at hstarts hold
        cases hstarts with
        | accept => simp [ConnState.made, ConnState.number]
        | forward => exact ⟨rfl, rfl, by simp, hold⟩
        | leave _ hloop =>
            exact ⟨made_of_loopAt hloop, rfl, by cases hloop <;> simp, by simp [ConnState.number]⟩
      exact hready.move hmade hmade' (Nat.le_succ n) hpositive hlive hconns hcalls hchannels
  | @advance choice n pc aes hcurrent hpc hadvance hconns =>
      refine ⟨fun k m hmade hle => ?_, ?_, fun hlive => ?_⟩
      · rw [hconns] at hmade
        have hnone := hready.fresh k m hmade hle
        -- the call that advances is in progress
        have hne : ((h, m) : CallId PeerID) ≠ (h, n) := by
          intro heq
          rw [← heq, hnone] at hpc
          cases hpc
        rcases hadvance.calls_of_ne hne with hcall | ⟨peerId, hcall⟩
        · rw [hcall, hnone]
        · rw [hcall, hnone]
          rfl
      · rw [hconns]
        exact hready.positive
      · rw [hadvance.frame.1]
        exact hready.opened (hconns ▸ hlive)
  | @resume m hresumes happ hconns =>
      obtain ⟨hmade, hpositive, hlive⟩ : (s.conns h).made = some m ∧ 0 < m ∧
          s.conns h ≠ .gone := by
        generalize s.conns h = conn at hresumes
        cases hresumes with
        | added | dispatched => exact ⟨rfl, by omega, by simp⟩
      refine hready.move hmade rfl le_rfl (fun k hk => ?_) hlive hconns (fun m _ => by rw [happ])
        (by rw [happ])
      exact Option.some.inj hk ▸ hpositive
  | finish _ _ hconns =>
      constructor <;> simp [hconns, ConnState.made, ConnState.number]
  | loop _ hloop hloop' hle happ hconns =>
      have hpositive := hready.positive _ (number_of_loopAt hloop)
      refine hready.move (made_of_loopAt hloop) (made_of_loopAt hloop') hle (fun k hk => ?_)
        (hlooping hloop) hconns (fun m _ => by rw [happ]) (by rw [happ])
      rw [number_of_loopAt hloop', Option.some.injEq] at hk
      omega
  | recv hloop hclosed happ hconns =>
      have hpositive := hready.positive _ (number_of_loopAt hloop)
      refine hready.move (made_of_loopAt hloop) (made_of_loopAt (.writing _)) le_rfl
        (fun k hk => Option.some.inj hk ▸ hpositive) (hlooping hloop) hconns
        (fun m _ => by rw [happ]; rfl) ?_
      rw [happ]
      simpa [AppState.setChannel] using hclosed

theorem Ready.step (hready : ∀ h, Ready s h) (hsteps : ServerSteps s s' l es)
    (h : PeerHandler PeerID) : Ready s' h := by
  cases hsteps with
  | @conn g _ _ hconn =>
      by_cases hg : h = g
      · subst hg
        exact (hready h).conn hconn
      · have hapart := apart_of_connSteps hconn hg
        exact (hready h).of_same hapart.conns hapart.calls (by rw [hapart.channels])
  | drop _ _ happ hconns =>
      exact (hready h).of_same (by rw [hconns]) (sameCalls_of_eq (by rw [happ])) (by rw [happ])
  | @enqueue i task _ _ happ hconns =>
      refine (hready h).of_same (by rw [hconns]) (sameCalls_of_eq (by rw [happ]; rfl)) ?_
      rw [happ]
      by_cases hh : h = task.handler
      · subst hh
        simp [AppState.enqueue]
      · simp [AppState.enqueue, hh]

end Step

section Runs

variable {fromStr : String → Option (PeerRequest PeerID)} {ls : List (ServerAction PeerID)}
  {s s' : ServerState PeerID} {tr es : List (ServerEvent PeerID)} {h : PeerHandler PeerID}

theorem ready_of_run (hrun : (server fromStr).Run ls s tr) (h : PeerHandler PeerID) :
    Ready s h := by
  induction hrun generalizing h with
  | nil => constructor <;> simp [server, ServerState.init, AppState.init, ConnState.number]
  | snoc _ hstep ih => exact Ready.step ih (serverSteps_of_step hstep) h

/-- Nothing but `accept` moves a connection that is absent. -/
theorem absent_of_step {l : ServerAction PeerID} (hstep : s.step fromStr l = some (s', es))
    (habsent : s.conns h = .absent) (hl : l ≠ .accept h) : s'.conns h = .absent := by
  rw [← habsent]
  cases hhandler : l.handler? with
  | some g =>
      have hg : h ≠ g := by
        rintro rfl
        have hnone : s.step fromStr l = none := by
          cases l with
          | accept => cases hhandler; exact absurd rfl hl
          | runTask => cases hhandler
          | advance | resume | inbound | outbound | written =>
              cases hhandler
              simp [ServerState.step, habsent, ConnState.currentCall]
        rw [hnone] at hstep
        cases hstep
      exact (apart_of_connSteps (connSteps_of_step hhandler hstep) hg).conns
  | none =>
      cases l with
      | runTask i =>
          obtain ⟨⟨app, aes⟩, -, hpair⟩ := Option.map_eq_some_iff.mp hstep
          cases hpair
          rfl
      | _ => cases hhandler

/-- Only a connection with a channel of 32 requests is ever accepted. -/
theorem capacity_of_run (hrun : (server fromStr).Run ls s tr) (hconn : s.conns h ≠ .absent) :
    h.sender.capacity = 32 := by
  induction hrun with
  | nil => exact absurd rfl hconn
  | @snoc ls s tr l s' es _ hstep ih =>
      by_cases habsent : s.conns h = .absent
      · have haccept : l = .accept h := by
          by_contra hl
          exact hconn (absent_of_step hstep habsent hl)
        by_contra hcap
        have hnone : (server fromStr).step s l = none := by
          rw [haccept]
          simp [server, ServerState.step, hcap]
        rw [hnone] at hstep
        cases hstep
      · exact ih habsent

/-- When every frame is to one peer, so is the call that a connection waits for. -/
theorem exists_unicast (hrun : (server fromStr).Run ls s tr) {n : Nat}
    (hconn : s.conns h = .dispatching n)
    (hparsed : ∀ request ∈ parsed tr h, ∃ fromPeerId target data,
      request = .forward fromPeerId (some target) data) :
    ∃ fromPeerId target data pc, s.app.calls (h, n) = some pc ∧
      (Call.handleForward fromPeerId h.peerId (some target) data).At pc := by
  obtain ⟨call, pc, hwaits, hpc, hat⟩ := waiting_of_run hrun h n (by rw [hconn]; rfl)
  obtain ⟨as, happ⟩ := server_refines_appState hrun
  obtain ⟨call', hcalled, hat'⟩ := (traced_of_run happ).at_pc (h, n) pc hpc
  rw [hconn] at hwaits
  cases hwaits with
  | dispatching _ fromPeerId toPeerId data =>
      cases (callsOf_of_run hrun).madeBy (h, n) call' (mem_filterMap_app.mp hcalled) with
      | joins =>
          have hpositive := (ready_of_run hrun h).positive 0 (by rw [hconn]; rfl)
          exact absurd hpositive (Nat.lt_irrefl 0)
      | leaves =>
          -- `remove_peer` broadcasts nothing
          cases hat' with
          | returned => exact ⟨h.peerId, h.peerId, data, .returned, hpc, .returned _⟩
          | iter hb | collect hb | forEach hb => cases hb
          | remove | decrementPeerCount => cases hat
      | forwards hframe =>
          have hmem : _ ∈ parsed tr h := List.mem_filterMap.mpr ⟨_, hframe, if_pos rfl⟩
          obtain ⟨fromPeerId', target, data', hrequest⟩ := hparsed _ hmem
          cases hrequest
          exact ⟨_, _, _, pc, hpc, hat'⟩

/-- A connection that waits with an empty channel has written all that the channel was
given. -/
theorem map_given_eq_map_written (hrun : (server fromStr).Run ls s tr)
    (write : PeerRequest PeerID → String) {n : Nat} (hconn : s.conns h = .serving n)
    (hqueue : (s.app.channels h).queue = []) :
    (given tr h).map write = (written tr h).map write := by
  obtain ⟨t, ltr, hsim⟩ := run_simulates hrun write h
  obtain ⟨ks, hloop⟩ := hsim.reached
  have hwriter := writerSide_of_run hloop
  have hselect : t.pc = .select := by simpa only [hconn, InLoop] using hsim.pc
  have hempty : t.queue = [] := by rw [← hsim.queue (by simp [hconn]), hqueue]
  have houtbound : taken ltr = given tr h := by
    simpa [hempty, hsim.arriving] using hwriter.outbound
  obtain ⟨rest, htexts, hrest⟩ := hwriter.written
  have hnone : rest = [] := by simpa only [hselect, LoopPc.Unwritten] using hrest
  have hsome : ((given tr h).map write).map some = ((written tr h).map write).map some := by
    rw [← hsim.frames, ← houtbound, List.map_map]
    rw [hnone, List.append_nil] at htexts
    exact htexts
  exact List.map_injective_iff.mpr (Option.some_injective _) hsome

end Runs

/-! ## The connection goes on -/

/-- The steps of the connection `h` in which nothing fails, and those of send tasks. -/
def ServerAction.Of (h : PeerHandler PeerID) : ServerAction PeerID → Prop
  | .advance g _ | .resume g | .outbound g | .written g true => g = h
  | .runTask _ => True
  | _ => False

/-- Steps of `h` lead from `s` to `s'`, read nothing, and leave everything of the others as it
is. -/
structure GoesOn (fromStr : String → Option (PeerRequest PeerID)) (h : PeerHandler PeerID)
    (s s' : ServerState PeerID) (es : List (ServerEvent PeerID)) : Prop where
  leads : (server fromStr).Leads (ServerAction.Of h) s s' es
  peers : s'.app.peers = s.app.peers
  conns : ∀ g, g ≠ h → s'.conns g = s.conns g
  channels : ∀ g, g ≠ h → s'.app.channels g = s.app.channels g
  unwritten : ∀ g, g ≠ h → written es g = []
  unparsed : parsed es h = []

section GoesOn

variable {fromStr : String → Option (PeerRequest PeerID)} {s s' s'' : ServerState PeerID}
  {ls : List (ServerAction PeerID)} {tr es es' : List (ServerEvent PeerID)}
  {h : PeerHandler PeerID} {n : Nat}

theorem GoesOn.refl (s : ServerState PeerID) : GoesOn fromStr h s s [] :=
  ⟨.refl s, rfl, fun _ _ => rfl, fun _ _ => rfl, fun _ _ => rfl, rfl⟩

theorem GoesOn.trans (hs : GoesOn fromStr h s s' es) (hs' : GoesOn fromStr h s' s'' es') :
    GoesOn fromStr h s s'' (es ++ es') := by
  refine ⟨hs.leads.trans hs'.leads, hs'.peers.trans hs.peers, fun g hg => ?_, fun g hg => ?_,
    fun g hg => ?_, ?_⟩
  · rw [hs'.conns g hg, hs.conns g hg]
  · rw [hs'.channels g hg, hs.channels g hg]
  · rw [written_append, hs.unwritten g hg, hs'.unwritten g hg, List.append_nil]
  · rw [parsed_append, hs.unparsed, hs'.unparsed, List.append_nil]

/-! ### The call it waits for -/

/-- The call that `h` waits for in `s` has returned in `s'`, and nothing was written. -/
structure Relayed (fromStr : String → Option (PeerRequest PeerID)) (h : PeerHandler PeerID)
    (n : Nat) (s s' : ServerState PeerID) (es : List (ServerEvent PeerID)) : Prop where
  goesOn : GoesOn fromStr h s s' es
  serving : s'.conns h = .serving (n + 1)
  channels : s'.app.channels = s.app.channels
  tasks : s.app.tasks ⊆ s'.app.tasks
  unwritten : ∀ g, written es g = []

theorem relayed_of_returned (hconn : s.conns h = .dispatching n)
    (hcall : s.app.calls (h, n) = some .returned) :
    Relayed fromStr h n s (s.setConn h (.serving (n + 1))) [] := by
  have hstep : (server fromStr).step s (.resume h) = some (s.setConn h (.serving (n + 1)), []) := by
    simp [server, ServerState.step, hconn, hcall]
  have hof : ServerAction.Of h (.resume h) := rfl
  have hleads : (server fromStr).Leads (ServerAction.Of h) s (s.setConn h (.serving (n + 1))) [] :=
    Machine.leads_step hof hstep
  refine ⟨⟨hleads, rfl, fun g hg => ?_, fun _ _ => rfl, fun _ _ => rfl, rfl⟩, ?_, rfl,
    List.Subset.refl _, fun _ => rfl⟩
  · simp [ServerState.setConn, hg]
  · simp [ServerState.setConn]

/-- A step of the call that leaves the registry alone. -/
theorem Relayed.advance {pc : Pc PeerID} {app : AppState PeerID (CallId PeerID)}
    {aes : List (Event PeerID (CallId PeerID))} (hconn : s.conns h = .dispatching n)
    (hcall : s.app.calls (h, n) = some pc)
    (hadvance : s.app.advance (h, n) pc .go = some (app, aes)) (hpeers : app.peers = s.app.peers)
    (htasks : s.app.tasks ⊆ app.tasks) (hrest : Relayed fromStr h n { s with app := app } s' es) :
    Relayed fromStr h n s s' (aes.map .app ++ es) := by
  have hstep : (server fromStr).step s (.advance h .go) =
      some ({ s with app := app }, aes.map .app) :=
    step_advance .go (by rw [hconn]; rfl) hcall hadvance
  have hchannels : app.channels = s.app.channels :=
    (AppState.advances_of_advance hadvance).frame.1
  have hof : ServerAction.Of h (.advance h .go) := rfl
  have hfirst : GoesOn fromStr h s { s with app := app } (aes.map .app) :=
    ⟨Machine.leads_step hof hstep, hpeers, fun _ _ => rfl, fun g _ => congrFun hchannels g,
      fun g _ => written_map_app aes g, parsed_map_app aes h⟩
  refine ⟨hfirst.trans hrest.goesOn, hrest.serving, hrest.channels.trans hchannels,
    fun task htask => hrest.tasks (htasks htask), fun g => ?_⟩
  rw [written_append, written_map_app, hrest.unwritten, List.append_nil]

variable (fromStr) in
theorem exists_relayed_forwarded {target : PeerID} (hconn : s.conns h = .dispatching n)
    (hcall : s.app.calls (h, n) = some (.incrementForwarded target)) :
    ∃ s' es, Relayed fromStr h n s s' es ∧ s'.app.tasks = s.app.tasks := by
  let count := s.app.messageForwarded target + 1
  let app := { s.app with
    messageForwarded := Function.update s.app.messageForwarded target count }
  have hadvance : s.app.advance (h, n) (.incrementForwarded target) .go =
      some (app.setCall (h, n) .returned, []) := rfl
  have hreturned : Relayed fromStr h n { s with app := app.setCall (h, n) .returned } _ [] :=
    relayed_of_returned hconn (AppState.setCall_calls_self _ _ _)
  exact ⟨_, _, .advance hconn hcall hadvance rfl (List.Subset.refl _) hreturned, rfl⟩

variable (fromStr) in
/-- A request that is to be sent to a registered peer is held by a send task for it. -/
theorem exists_relayed_sending {fromPeerId target : PeerID} {data : PeerEvent PeerID}
    (hconn : s.conns h = .dispatching n)
    (hcall : s.app.calls (h, n) = some (.sendForward fromPeerId target data)) :
    ∃ s' es, Relayed fromStr h n s s' es ∧ ∀ g, s.app.peers.lookup target = some g →
      ∃ task ∈ s'.app.tasks, task.handler = g ∧
        task.payload = .forward fromPeerId (some target) data := by
  let sent := s.app.sendForward (h, n) fromPeerId target data
  have hadvance : s.app.advance (h, n) (.sendForward fromPeerId target data) .go =
      some (sent.1.setCall (h, n) (.incrementForwarded target), sent.2) := rfl
  let s₁ := { s with app := sent.1.setCall (h, n) (.incrementForwarded target) }
  obtain ⟨s', es, hrelayed, htasks⟩ : ∃ s' es, Relayed fromStr h n s₁ s' es ∧
      s'.app.tasks = s₁.app.tasks :=
    exists_relayed_forwarded fromStr hconn (AppState.setCall_calls_self _ _ _)
  have hsub : s.app.tasks ⊆ sent.1.tasks := by
    cases hfound : s.app.peers.lookup target with
    | none => simp [sent, AppState.sendForward_of_absent hfound]
    | some g => simp [sent, AppState.sendForward_of_found hfound]
  refine ⟨s', _, .advance hconn hcall hadvance (by simp [sent]) hsub hrelayed, fun g hfound => ?_⟩
  rw [htasks]
  simp [s₁, sent, AppState.sendForward_of_found hfound]

variable (fromStr) in
theorem exists_relayed {fromPeerId connectionPeerId target : PeerID} {data : PeerEvent PeerID}
    {pc : Pc PeerID} (hconn : s.conns h = .dispatching n) (hcall : s.app.calls (h, n) = some pc)
    (hat : (Call.handleForward fromPeerId connectionPeerId (some target) data).At pc) :
    ∃ s' es, Relayed fromStr h n s s' es := by
  cases hat with
  | sendForward =>
      obtain ⟨s', es, hrelayed, -⟩ := exists_relayed_sending fromStr hconn hcall
      exact ⟨s', es, hrelayed⟩
  | incrementForwarded =>
      obtain ⟨s', es, hrelayed, -⟩ := exists_relayed_forwarded fromStr hconn hcall
      exact ⟨s', es, hrelayed⟩
  | returned => exact ⟨_, _, relayed_of_returned hconn hcall⟩
  | iter hb | collect hb | forEach hb => cases hb

/-! ### The requests for it -/

theorem goesOn_written {request : PeerRequest PeerID} (hconn : s.conns h = .writing n request) :
    GoesOn fromStr h s (s.setConn h (.serving n)) [.wrote h request] := by
  have hstep : (server fromStr).step s (.written h true) =
      some (s.setConn h (.serving n), [.wrote h request]) := by
    simp [server, ServerState.step, hconn]
  have hof : ServerAction.Of h (.written h true) := rfl
  refine ⟨Machine.leads_step hof hstep, rfl, fun g hg => ?_, fun _ _ => rfl, fun g hg => ?_, rfl⟩
  · simp [ServerState.setConn, hg]
  · simp [written, Ne.symm hg]

theorem goesOn_outbound {request : PeerRequest PeerID} {queue : List (PeerRequest PeerID)}
    (hconn : s.conns h = .serving n) (hqueue : (s.app.channels h).queue = request :: queue) :
    GoesOn fromStr h s
      ({ s with app := s.app.setChannel h { s.app.channels h with queue := queue } }.setConn h
        (.writing n request)) [.app (.received h request)] := by
  have hstep : (server fromStr).step s (.outbound h) =
      some ({ s with app := s.app.setChannel h { s.app.channels h with queue := queue } }.setConn h
        (.writing n request), [.app (.received h request)]) := by
    simp [server, ServerState.step, hconn, hqueue, ServerState.perform, AppState.step]
  have hof : ServerAction.Of h (.outbound h) := rfl
  refine ⟨Machine.leads_step hof hstep, rfl, fun g hg => ?_, fun g hg => ?_, fun _ _ => rfl, rfl⟩
  · simp [ServerState.setConn, hg]
  · simp [ServerState.setConn, AppState.setChannel, hg]

/-- The connection comes back to `select!`: it ends the write, or its call returns. -/
theorem exists_serving (hrun : (server fromStr).Run ls s tr)
    (hconn : LoopAt n (s.conns h) ∨ s.conns h = .dispatching n)
    (hparsed : ∀ request ∈ parsed tr h, ∃ fromPeerId target data,
      request = .forward fromPeerId (some target) data) :
    ∃ s' es m, GoesOn fromStr h s s' es ∧ s'.conns h = .serving m ∧
      s.app.tasks ⊆ s'.app.tasks ∧
      (s'.app.channels h).closed = (s.app.channels h).closed := by
  rcases hconn with hloop | hdispatching
  · cases hconn : s.conns h with
    | serving m => exact ⟨s, [], m, .refl s, hconn, List.Subset.refl _, rfl⟩
    | writing m request =>
        exact ⟨_, _, m, goesOn_written hconn, by simp [ServerState.setConn],
          List.Subset.refl _, rfl⟩
    | _ =>
        rw [hconn] at hloop
        cases hloop
  · obtain ⟨fromPeerId, target, data, pc, hcall, hat⟩ := exists_unicast hrun hdispatching hparsed
    obtain ⟨s', es, hrelayed⟩ := exists_relayed fromStr hdispatching hcall hat
    exact ⟨s', es, _, hrelayed.goesOn, hrelayed.serving, hrelayed.tasks,
      by rw [hrelayed.channels]⟩

variable (fromStr) in
/-- The requests in the channel of `h` are written one after the other. -/
theorem exists_flushed (hconn : s.conns h = .serving n) :
    ∃ s' es, GoesOn fromStr h s s' es ∧ s'.conns h = .serving n ∧
      s'.app.tasks = s.app.tasks ∧ (s'.app.channels h).queue = [] ∧
      (s'.app.channels h).closed = (s.app.channels h).closed := by
  induction hqueue : (s.app.channels h).queue generalizing s with
  | nil => exact ⟨s, [], .refl s, hconn, rfl, hqueue, rfl⟩
  | cons request queue ih =>
      let s₁ := { s with
        app := s.app.setChannel h { s.app.channels h with queue := queue } }.setConn h
          (.writing n request)
      have hconn₁ : s₁.conns h = .writing n request := by simp [s₁, ServerState.setConn]
      have hfirst : GoesOn fromStr h s s₁ _ := goesOn_outbound hconn hqueue
      have hsecond := hfirst.trans (goesOn_written hconn₁)
      have hchannel : (s₁.setConn h (.serving n)).app.channels h =
          { s.app.channels h with queue := queue } := by
        simp [s₁, ServerState.setConn, AppState.setChannel]
      obtain ⟨s', es, hrest, hserving, htasks, hempty, hclosed⟩ :=
        ih (s := s₁.setConn h (.serving n)) (by simp [ServerState.setConn]) (by rw [hchannel])
      exact ⟨s', _, hsecond.trans hrest, hserving, htasks, hempty, by rw [hclosed, hchannel]⟩

variable (fromStr) in
/-- What send tasks hold for `h` is put in its channel. -/
theorem exists_taken (hconn : s.conns h = .serving n)
    (hopen : (s.app.channels h).closed = false) (hcap : 0 < h.sender.capacity) :
    ∃ s' es, GoesOn fromStr h s s' es ∧ s'.conns h = .serving n ∧
      (s'.app.channels h).queue = [] ∧
      (∀ task ∈ s.app.tasks, task.handler ≠ h → task ∈ s'.app.tasks) ∧
      ∀ task ∈ s.app.tasks, task.handler = h → .app (.enqueued task) ∈ es := by
  induction hcount : s.app.tasks.countP (fun task => task.handler = h) generalizing s with
  | zero =>
      obtain ⟨s', es, hgo, hserving, htasks, hempty, -⟩ := exists_flushed fromStr hconn
      refine ⟨s', es, hgo, hserving, hempty, fun task htask _ => htasks ▸ htask,
        fun task htask hhandler => ?_⟩
      exact absurd hhandler (by simpa using List.countP_eq_zero.mp hcount task htask)
  | succ k ih =>
      obtain ⟨s₁, es₁, hgo, hserving, htasks, hempty, hclosed⟩ := exists_flushed fromStr hconn
      obtain ⟨task, htask, hhandler⟩ : ∃ task ∈ s₁.app.tasks, task.handler = h := by
        rw [htasks]
        have hpos : 0 < s.app.tasks.countP (fun task => task.handler = h) := by omega
        simpa using List.countP_pos_iff.mp hpos
      obtain ⟨i, hi⟩ := List.mem_iff_getElem?.mp htask
      have hopen₁ : (s₁.app.channels task.handler).closed = false := by
        rw [hhandler, hclosed, hopen]
      have hroom : (s₁.app.channels task.handler).queue.length < task.handler.sender.capacity := by
        rw [hhandler, hempty]
        exact hcap
      let s₂ := { s₁ with app := s₁.app.enqueue i task }
      have hran : GoesOn fromStr h s₁ s₂ [.app (.enqueued task)] := by
        have hof : ServerAction.Of h (.runTask i) := trivial
        refine ⟨Machine.leads_step hof (step_runTask hi hopen₁ hroom), rfl, fun _ _ => rfl,
          fun g hg => ?_, fun _ _ => rfl, rfl⟩
        simp [s₂, AppState.enqueue, hhandler, hg]
      have hcount₂ : s₂.app.tasks.countP (fun task => task.handler = h) = k := by
        have hperm := (perm_eraseIdx hi).countP_eq fun task => decide (task.handler = h)
        rw [htasks, hcount, List.countP_cons_of_pos (by simpa using hhandler), ← htasks] at hperm
        exact (Nat.succ.inj hperm).symm
      have hopen₂ : (s₂.app.channels h).closed = false := by
        simp [s₂, AppState.enqueue, hhandler, ← hopen, ← hclosed]
      obtain ⟨s', es, hrest, hserving', hempty', hothers, hown⟩ :=
        ih (s := s₂) hserving hopen₂ hcount₂
      have hleft : ∀ t ∈ s.app.tasks, t ≠ task → t ∈ s₂.app.tasks :=
        fun t ht hne => mem_eraseIdx_of_ne hi (htasks ▸ ht) hne
      refine ⟨s', _, (hgo.trans hran).trans hrest, hserving', hempty', fun t ht hne => ?_,
        fun t ht hh => ?_⟩
      · exact hothers t (hleft t ht fun heq => hne (heq ▸ hhandler)) hne
      · by_cases heq : t = task
        · simp [heq]
        · exact List.mem_append_right _ (hown t (hleft t ht heq) hh)

end GoesOn

end SfRs.Server
