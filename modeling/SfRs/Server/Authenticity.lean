import SfRs.PeerId.Basic
import SfRs.Server.Connection
/-!
# Who a forwarded request says it is from

A broadcast is sent in the name of the connection, a unicast in the name that the frame
gives.  What a frame makes the server enqueue is authentic in every run if and only if
the frame is a broadcast or names its own connection.
-/

set_option linter.unusedSectionVars false

namespace SfRs.Server

open SfRs.Lib SfRs.Protocol

variable {PeerID : Type} [DecidableEq PeerID]

/-- Everything enqueued because of the frame `n` of the connection `h` is from `h`. -/
def Authentic (tr : List (ServerEvent PeerID)) (h : PeerHandler PeerID) (n : Nat) : Prop :=
  ∀ task, .app (.enqueued task) ∈ tr → task.caller = (h, n) →
    ∃ toPeerId data, task.payload = .forward h.peerId toPeerId data

/-- A frame that asks to forward starts the call that forwards it. -/
def FramesCall (tr : List (ServerEvent PeerID)) : Prop :=
  ∀ h n fromPeerId toPeerId data, .frame h n (.forward fromPeerId toPeerId data) ∈ tr →
    .app (.called (h, n) (.handleForward fromPeerId h.peerId toPeerId data)) ∈ tr

theorem FramesCall.step {s s' : ServerState PeerID} {tr es : List (ServerEvent PeerID)}
    {l : ServerAction PeerID} (hframes : FramesCall tr) (hsteps : ServerSteps s s' l es) :
    FramesCall (tr ++ es) := by
  intro h n fromPeerId toPeerId data hmem
  rcases List.mem_append.mp hmem with hmem | hmem
  · exact List.mem_append_left _ (hframes h n fromPeerId toPeerId data hmem)
  · refine List.mem_append_right _ ?_
    cases hsteps with
    | drop | enqueue => simp at hmem
    | conn hconn =>
        cases hconn with
        | @start _ _ _ _ _ _ hstarts =>
            generalize s.conns _ = conn at hstarts
            rcases List.mem_append.mp hmem with hframe | hcalled
            · cases hstarts with
              | accept | leave => simp at hframe
              | forward =>
                  simp only [List.mem_singleton, ServerEvent.frame.injEq,
                    PeerRequest.forward.injEq] at hframe
                  obtain ⟨rfl, rfl, rfl, rfl, rfl⟩ := hframe
                  simp
            · simp at hcalled
        | advance => simp at hmem
        | resume | finish | recv => simp at hmem
        | loop _ _ _ _ _ _ hes => rcases hes _ hmem with ⟨_, heq⟩ | ⟨_, heq⟩ <;> cases heq

theorem framesCall_of_run {fromStr : String → Option (PeerRequest PeerID)}
    {ls : List (ServerAction PeerID)} {s : ServerState PeerID}
    {tr : List (ServerEvent PeerID)} (hrun : (server fromStr).Run ls s tr) :
    FramesCall tr := by
  induction hrun with
  | nil => exact fun _ _ _ _ _ hmem => absurd hmem List.not_mem_nil
  | snoc _ hstep ih => exact ih.step (serverSteps_of_step hstep)

/-- A frame makes the server enqueue requests for its one target in the name it gives, or
for anyone in the name of its connection. -/
theorem payload_of_frame {fromStr : String → Option (PeerRequest PeerID)}
    {ls : List (ServerAction PeerID)} {s : ServerState PeerID}
    {tr : List (ServerEvent PeerID)} (hrun : (server fromStr).Run ls s tr)
    {h : PeerHandler PeerID} {n : Nat} {fromPeerId : PeerID} {toPeerId : Option PeerID}
    {data : PeerEvent PeerID} (hframe : .frame h n (.forward fromPeerId toPeerId data) ∈ tr)
    {task : SendTask PeerID (CallId PeerID)} (htask : .app (.enqueued task) ∈ tr)
    (hcaller : task.caller = (h, n)) :
    (∃ target, toPeerId = some target ∧
        task.payload = .forward fromPeerId (some target) data) ∨
      ∃ target, toPeerId = none ∧ task.payload = .forward h.peerId (some target) data := by
  obtain ⟨as, happ⟩ := server_refines_appState hrun
  have htraced := traced_of_run happ
  have hcall := mem_filterMap_app.mpr (framesCall_of_run hrun _ _ _ _ _ hframe)
  obtain ⟨call, hcalled, hsends⟩ :=
    htraced.spawned task (htraced.enqueued task (mem_filterMap_app.mpr htask))
  rw [hcaller] at hcalled
  obtain rfl := htraced.unique _ _ _ hcall hcalled
  generalize task.payload = payload at hsends
  cases hsends with
  | single _ _ target => exact Or.inl ⟨_, rfl, rfl⟩
  | each hb peerId =>
      cases hb with
      | forward => exact Or.inr ⟨_, rfl, rfl⟩

/-! ## A run that forwards -/

section Runs

variable {fromStr : String → Option (PeerRequest PeerID)} {s : ServerState PeerID}
  {h : PeerHandler PeerID}

theorem step_forward {raw : String} {fromPeerId : PeerID} {toPeerId : Option PeerID}
    {data : PeerEvent PeerID} {n : Nat}
    (hraw : fromStr raw = some (.forward fromPeerId toPeerId data))
    (hserving : s.conns h = .serving n) (hcall : s.app.calls (h, n) = none) :
    let call := Call.handleForward fromPeerId h.peerId toPeerId data
    (server fromStr).step s (.inbound h (some (.text raw))) =
      some ({ s.incrementReceived h.peerId with
          app := s.app.setCall (h, n) call.start }.setConn h (.dispatching n),
        [.frame h n (.forward fromPeerId toPeerId data), .app (.called (h, n) call)]) := by
  simp [server, ServerState.step, hserving, ServerState.processIncoming, hraw,
    ServerState.handleRequest, ServerState.perform, AppState.step, hcall,
    ServerState.incrementReceived]

theorem step_runTask {task : SendTask PeerID (CallId PeerID)} {i : Nat}
    (htask : s.app.tasks[i]? = some task)
    (hopen : (s.app.channels task.handler).closed = false)
    (hroom : (s.app.channels task.handler).queue.length < task.handler.sender.capacity) :
    (server fromStr).step s (.runTask i) =
      some ({ s with app := s.app.enqueue i task }, [.app (.enqueued task)]) := by
  simp [server, ServerState.step, AppState.step, AppState.runTask, htask, hopen, hroom]

/-- A unicast frame to a registered peer is enqueued for it in the name the frame gives. -/
theorem exists_run_unicast {ls : List (ServerAction PeerID)} {tr : List (ServerEvent PeerID)}
    {raw : String} {fromPeerId target : PeerID} {data : PeerEvent PeerID} {n : Nat}
    {g : PeerHandler PeerID} (hrun : (server fromStr).Run ls s tr)
    (hraw : fromStr raw = some (.forward fromPeerId (some target) data))
    (hserving : s.conns h = .serving n) (hcall : s.app.calls (h, n) = none)
    (hfound : s.app.peers.lookup target = some g) (htasks : s.app.tasks = [])
    (hchannel : s.app.channels g = { queue := [], closed := false })
    (hcap : 0 < g.sender.capacity) :
    ∃ ls' s' tr' task, (server fromStr).Run ls' s' tr' ∧
      .frame h n (.forward fromPeerId (some target) data) ∈ tr' ∧
      .app (.enqueued task) ∈ tr' ∧ task.caller = (h, n) ∧
      task.payload = .forward fromPeerId (some target) data := by
  let task : SendTask PeerID (CallId PeerID) :=
    { id := s.app.spawned, caller := (h, n), handler := g,
      payload := .forward fromPeerId (some target) data }
  let app := s.app.setCall (h, n) (.sendForward fromPeerId target data)
  have hadvance : app.advance (h, n) (.sendForward fromPeerId target data) .go =
      some ({ app with tasks := [task], spawned := s.app.spawned + 1 }.setCall (h, n)
        (.incrementForwarded target),
          [.lookup (h, n) target (some g), .spawned task]) := by
    simp [AppState.advance, AppState.sendForward, AppState.sendToPeer, app, task, hfound,
      htasks]
  have hrun₁ := hrun.snoc (step_forward hraw hserving hcall)
  have hrun₂ := hrun₁.snoc (step_advance .go (by simp [ServerState.setConn, ConnState.currentCall])
    (AppState.setCall_calls_self _ _ _) hadvance)
  have hopen : (app.channels g).closed = false := by simp [app, hchannel]
  have hroom : (app.channels g).queue.length < g.sender.capacity := by
    simpa [app, hchannel] using hcap
  have hrun₃ := hrun₂.snoc (step_runTask (i := 0) (List.getElem?_cons_zero) hopen hroom)
  exact ⟨_, _, _, task, hrun₃, by simp, by simp, rfl, rfl⟩

/-- Any connection can make a registered peer get a request in another's name. -/
theorem exists_run_forged {raw : String} {fromPeerId target : PeerID} {data : PeerEvent PeerID}
    (hraw : fromStr raw = some (.forward fromPeerId (some target) data))
    (hcap : h.sender.capacity = 32) (hforged : fromPeerId ≠ h.peerId) :
    ∃ ls s tr n, (server fromStr).Run ls s tr ∧
      .frame h n (.forward fromPeerId (some target) data) ∈ tr ∧ ¬ Authentic tr h n := by
  have hnot : ∀ {tr : List (ServerEvent PeerID)} {n : Nat}
      {task : SendTask PeerID (CallId PeerID)}, .app (.enqueued task) ∈ tr →
      task.caller = (h, n) → task.payload = .forward fromPeerId (some target) data →
      ¬ Authentic tr h n := by
    intro tr n task htask hcaller hpayload hauthentic
    obtain ⟨_, _, heq⟩ := hauthentic task htask hcaller
    rw [hpayload, PeerRequest.forward.injEq] at heq
    exact hforged heq.1
  by_cases htarget : target = h.peerId
  · -- the connection sends to itself
    obtain ⟨s, tr, hrun, hconns, hpeers, hcalls, htasks, hchannels⟩ :=
      run_join (Machine.Run.nil (M := server fromStr)) hcap rfl rfl rfl
    obtain ⟨ls', s', tr', task, hrun', hframe, henqueued, hcaller, hpayload⟩ :=
      exists_run_unicast hrun hraw (h := h) (n := 1) (g := h)
        (by rw [hconns, Function.update_self])
        (by rw [hcalls, Function.update_of_ne (by simp)]; rfl)
        (by rw [hpeers, htarget, AList.lookup_insert]) htasks (by rw [hchannels]; rfl)
        (by omega)
    exact ⟨ls', s', tr', 1, hrun', hframe, hnot henqueued hcaller hpayload⟩
  · -- another connection registers first
    let g : PeerHandler PeerID := ⟨target, 0, 32⟩
    have hne : h ≠ g := fun heq => htarget (by rw [heq])
    obtain ⟨s₁, tr₁, hrun₁, hconns₁, hpeers₁, hcalls₁, htasks₁, hchannels₁⟩ :=
      run_join (h := g) (Machine.Run.nil (M := server fromStr)) rfl rfl rfl rfl
    obtain ⟨s, tr, hrun, hconns, hpeers, hcalls, htasks, hchannels⟩ :=
      run_join (h := h) hrun₁ hcap
        (by rw [hconns₁, Function.update_of_ne hne]; rfl)
        (by rw [hcalls₁, Function.update_of_ne (by simp [hne])]; rfl)
        (by rw [hpeers₁, AList.lookup_insert_ne (Ne.symm htarget)]; rfl)
    obtain ⟨ls', s', tr', task, hrun', hframe, henqueued, hcaller, hpayload⟩ :=
      exists_run_unicast hrun hraw (h := h) (n := 1) (g := g)
        (by rw [hconns, Function.update_self])
        (by rw [hcalls, hcalls₁, Function.update_of_ne (by simp),
              Function.update_of_ne (by simp)]; rfl)
        (by rw [hpeers, AList.lookup_insert_ne htarget, hpeers₁]; exact AList.lookup_insert _)
        (by rw [htasks, htasks₁]; rfl) (by rw [hchannels, hchannels₁]; rfl)
        (Nat.zero_lt_succ 31)
    exact ⟨ls', s', tr', 1, hrun', hframe, hnot henqueued hcaller hpayload⟩

end Runs

/-- In all runs everything enqueued because of a frame is from its connection, if and
only if the frame names no target or names its own connection. -/
theorem authentic_iff (fromStr : String → Option (PeerRequest PeerID)) (raw : String)
    (fromPeerId : PeerID) (toPeerId : Option PeerID) (data : PeerEvent PeerID)
    (h : PeerHandler PeerID)
    (hraw : fromStr raw = some (.forward fromPeerId toPeerId data))
    (hcap : h.sender.capacity = 32) :
    (∀ ls s tr n, (server fromStr).Run ls s tr →
        .frame h n (.forward fromPeerId toPeerId data) ∈ tr → Authentic tr h n) ↔
      toPeerId = none ∨ fromPeerId = h.peerId := by
  constructor
  · intro hall
    cases toPeerId with
    | none => exact Or.inl rfl
    | some target =>
        refine Or.inr ?_
        by_contra hforged
        obtain ⟨ls, s, tr, n, hrun, hframe, hnot⟩ := exists_run_forged hraw hcap hforged
        exact hnot (hall ls s tr n hrun hframe)
  · intro hcond ls s tr n hrun hframe task htask hcaller
    rcases payload_of_frame hrun hframe htask hcaller with
      ⟨target, hto, hpayload⟩ | ⟨target, -, hpayload⟩
    · obtain rfl : fromPeerId = h.peerId := hcond.resolve_left (by simp [hto])
      exact ⟨some target, data, hpayload⟩
    · exact ⟨some target, data, hpayload⟩

/-- A message in the name of peer `02`, as JSON. -/
def messageText (toPeerId : String) : String :=
  "\x7b\"forward\":\x7b\"from_peer_id\":[1,2],\"to_peer_id\":" ++ toPeerId ++
    ",\"data\":\x7b\"message\":\x7b\"peer_id\":[1,2],\"message\":\"hi\"\x7d\x7d\x7d\x7d"

def messageRequest (toPeerId : Option PeerId.PeerID) : PeerRequest PeerId.PeerID :=
  .forward (.ofByte 2) toPeerId (.message (.ofByte 2) "hi")

/-- The parser, on the messages above to everyone and to peer `03`. -/
def parseMessage (raw : String) : Option (PeerRequest PeerId.PeerID) :=
  if raw = messageText "null" then some (messageRequest none)
  else if raw = messageText "[1,3]" then some (messageRequest (some (.ofByte 3)))
  else none

/-- Peer `01` broadcasts in the name of peer `02`. -/
theorem authentic_broadcast :
    parseMessage (messageText "null") = some (messageRequest none) ∧
      ((∀ ls s tr n, (server parseMessage).Run ls s tr →
          .frame ⟨.ofByte 1, 0, 32⟩ n (messageRequest none) ∈ tr →
          Authentic tr ⟨.ofByte 1, 0, 32⟩ n) ↔
        (none : Option PeerId.PeerID) = none ∨
          (.ofByte 2 : PeerId.PeerID) = .ofByte 1) :=
  ⟨rfl, authentic_iff parseMessage (messageText "null") _ none _ ⟨.ofByte 1, 0, 32⟩ rfl rfl⟩

/-- Peer `01` sends peer `03` a message in the name of peer `02`. -/
theorem not_authentic_unicast :
    ¬ ∀ (fromStr : String → Option (PeerRequest PeerId.PeerID)) ls s tr h n request,
      (server fromStr).Run ls s tr → .frame h n request ∈ tr → Authentic tr h n := by
  intro hall
  let h : PeerHandler PeerId.PeerID := ⟨.ofByte 1, 0, 32⟩
  let g : PeerHandler PeerId.PeerID := ⟨.ofByte 3, 1, 32⟩
  let ls : List (ServerAction PeerId.PeerID) := joinSteps h ++ joinSteps g ++
    [.inbound h (some (.text (messageText "[1,3]"))), .advance h .go, .runTask 0]
  let request := messageRequest (some (.ofByte 3))
  let task : SendTask PeerId.PeerID (CallId PeerId.PeerID) := ⟨0, (h, 1), g, request⟩
  have hexec : ((server parseMessage).exec ls).map (fun r =>
      (decide (.frame h 1 request ∈ r.2), decide (.app (.enqueued task) ∈ r.2))) =
        some (true, true) := by decide
  obtain ⟨⟨s, tr⟩, hrun, hmem⟩ := Option.map_eq_some_iff.mp hexec
  simp only [Prod.mk.injEq, decide_eq_true_eq] at hmem
  obtain ⟨_, _, heq⟩ := hall parseMessage ls s tr h 1 request (Machine.run_of_exec hrun) hmem.1
    task hmem.2 rfl
  have hne : (.ofByte 2 : PeerId.PeerID) ≠ .ofByte 1 := by decide
  exact hne (PeerRequest.forward.inj heq).1

end SfRs.Server
