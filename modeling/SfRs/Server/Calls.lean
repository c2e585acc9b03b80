import SfRs.Server.AppState
/-!
# Where a call can be and what it sends

`Call.At` lists the positions of each call and `Call.Sends` the requests it may hand to
a send task.  In every run a task was spawned by a call that sends its request.
-/

set_option linter.unusedSectionVars false

namespace SfRs.Server

open SfRs.Lib SfRs.Protocol AppState

variable {PeerID κ : Type} [DecidableEq PeerID] [DecidableEq κ]

/-- The broadcasts a call may make. -/
inductive Call.Broadcasts : Call PeerID → Broadcast PeerID → Prop
  | newPeer (handler : PeerHandler PeerID) (id : PeerID) :
      Broadcasts (.addPeer handler)
        { fromPeerId := id, data := .newPeer handler.peerId, exclude := none }
  | forward (fromPeerId connectionPeerId : PeerID) (data : PeerEvent PeerID) :
      Broadcasts (.handleForward fromPeerId connectionPeerId none data)
        { fromPeerId := connectionPeerId, data := data, exclude := none }
  | except (b : Broadcast PeerID) : Broadcasts (.broadcastForwardExcept b) b

/-- The positions of a call. -/
inductive Call.At : Call PeerID → Pc PeerID → Prop
  | containsKey (handler) : At (.addPeer handler) (.containsKey handler)
  | insert (handler) : At (.addPeer handler) (.insert handler)
  | incrementPeerCount (handler) : At (.addPeer handler) (.incrementPeerCount handler)
  | randomId (handler) : At (.addPeer handler) (.randomId handler)
  | failed (handler) : At (.addPeer handler) (.failed (.peerAlreadyExists handler.peerId))
  | iter {call b} (hb : Broadcasts call b) : At call (.iter b)
  | collect {call b} (hb : Broadcasts call b) (due seen) : At call (.collect b due seen)
  | forEach {call b} (hb : Broadcasts call b) (ids) : At call (.forEach b ids)
  | sendForward (fromPeerId connectionPeerId toPeerId data) :
      At (.handleForward fromPeerId connectionPeerId (some toPeerId) data)
        (.sendForward fromPeerId toPeerId data)
  | incrementForwarded (fromPeerId connectionPeerId toPeerId data) :
      At (.handleForward fromPeerId connectionPeerId (some toPeerId) data)
        (.incrementForwarded toPeerId)
  | remove (peerId) : At (.removePeer peerId) (.remove peerId)
  | decrementPeerCount (peerId) : At (.removePeer peerId) .decrementPeerCount
  | returned (call) : At call .returned

/-- The requests a call may send. -/
inductive Call.Sends : Call PeerID → PeerRequest PeerID → Prop
  | single (fromPeerId connectionPeerId toPeerId : PeerID) (data : PeerEvent PeerID) :
      Sends (.handleForward fromPeerId connectionPeerId (some toPeerId) data)
        (.forward fromPeerId (some toPeerId) data)
  | each {call : Call PeerID} {b : Broadcast PeerID} (hb : call.Broadcasts b)
      (peerId : PeerID) : Sends call (.forward b.fromPeerId (some peerId) b.data)

theorem Call.at_start (call : Call PeerID) : call.At call.start := by
  cases call with
  | addPeer handler => exact .containsKey handler
  | removePeer peerId => exact .remove peerId
  | handleForward fromPeerId connectionPeerId toPeerId data =>
      cases toPeerId with
      | none => exact .iter (.forward _ _ _)
      | some target => exact .sendForward _ _ _ _
  | broadcastForwardExcept b => exact .iter (.except b)

theorem Call.At.forget {call : Call PeerID} {pc : Pc PeerID} (hat : call.At pc)
    (peerId : PeerID) : call.At (pc.forget peerId) := by
  cases hat with
  | collect hb due seen => exact .collect hb _ seen
  | containsKey => exact .containsKey _
  | insert => exact .insert _
  | incrementPeerCount => exact .incrementPeerCount _
  | randomId => exact .randomId _
  | failed => exact .failed _
  | iter hb => exact .iter hb
  | forEach hb => exact .forEach hb _
  | sendForward => exact .sendForward _ _ _ _
  | incrementForwarded => exact .incrementForwarded _ _ _ _
  | remove => exact .remove _
  | decrementPeerCount => exact .decrementPeerCount _
  | returned => exact .returned _

theorem Call.At.quiet {call : Call PeerID} {pc pc' : Pc PeerID} (hat : call.At pc)
    (hquiet : Quiet pc pc') : call.At pc' := by
  cases hquiet with
  | found => cases hat; exact .failed _
  | incremented => cases hat; exact .randomId _
  | named => cases hat; exact .iter (.newPeer _ _)
  | visited => cases hat with | collect hb => exact .collect hb _ _
  | skipped => cases hat with | forEach hb => exact .forEach hb _
  | unnamed | swept | forwarded | decremented => exact .returned _

theorem Call.At.advance {call : Call PeerID} {s s' : AppState PeerID κ} {k : κ}
    {pc : Pc PeerID} {es : List (Event PeerID κ)} (hat : call.At pc)
    (hadvance : Advances s k pc s' es) : ∃ pc', s'.calls k = some pc' ∧ call.At pc' := by
  cases hadvance with
  | quiet hquiet => exact ⟨_, setCall_calls_self _ _ _, hat.quiet hquiet⟩
  | vacant => cases hat; exact ⟨_, setCall_calls_self _ _ _, .insert _⟩
  | insert => cases hat; exact ⟨_, setCall_calls_self _ _ _, .incrementPeerCount _⟩
  | iter => cases hat with | iter hb => exact ⟨_, setCall_calls_self _ _ _, .collect hb _ _⟩
  | snapshot =>
      cases hat with | collect hb => exact ⟨_, setCall_calls_self _ _ _, .forEach hb _⟩
  | sendEach =>
      cases hat with | forEach hb => exact ⟨_, setCall_calls_self _ _ _, .forEach hb _⟩
  | sendSingle =>
      cases hat; exact ⟨_, setCall_calls_self _ _ _, .incrementForwarded _ _ _ _⟩
  | remove => cases hat; exact ⟨_, setCall_calls_self _ _ _, .decrementPeerCount _⟩
  | removeAbsent => exact ⟨_, setCall_calls_self _ _ _, .returned _⟩

/-- A step of a call spawns nothing, or one task that the call sends. -/
inductive Spawns (s : AppState PeerID κ) (k : κ) (call : Call PeerID) :
    AppState PeerID κ → List (Event PeerID κ) → Prop
  | none {s' es} (htasks : s'.tasks = s.tasks) (hspawned : s'.spawned = s.spawned)
      (hes : ∀ task, .spawned task ∉ es) : Spawns s k call s' es
  | one {s' es task} (hid : task.id = s.spawned) (hcaller : task.caller = k)
      (hsends : call.Sends task.payload) (toPeerId : PeerID)
      (hfound : s.peers.lookup toPeerId = some task.handler)
      (htasks : s'.tasks = s.tasks ++ [task]) (hspawned : s'.spawned = s.spawned + 1)
      (hes : es = [.lookup k toPeerId (some task.handler), .spawned task]) :
      Spawns s k call s' es

theorem spawns_sendForward (s : AppState PeerID κ) (k : κ) {call : Call PeerID}
    {fromPeerId toPeerId : PeerID} {data : PeerEvent PeerID} (pc : Pc PeerID)
    (hsends : call.Sends (.forward fromPeerId (some toPeerId) data)) :
    Spawns s k call ((s.sendForward k fromPeerId toPeerId data).1.setCall k pc)
      (s.sendForward k fromPeerId toPeerId data).2 := by
  cases hfound : s.peers.lookup toPeerId with
  | none =>
      rw [sendForward_of_absent hfound]
      exact .none rfl rfl (by simp)
  | some handler =>
      rw [sendForward_of_found hfound]
      exact .one rfl rfl hsends toPeerId hfound rfl rfl rfl

theorem Call.At.spawns {call : Call PeerID} {s s' : AppState PeerID κ} {k : κ}
    {pc : Pc PeerID} {es : List (Event PeerID κ)} (hat : call.At pc)
    (hadvance : Advances s k pc s' es) : Spawns s k call s' es := by
  cases hadvance with
  | quiet _ hsame => exact .none hsame.tasks hsame.spawned (by simp)
  | vacant | insert | iter | snapshot | remove | removeAbsent => exact .none rfl rfl (by simp)
  | sendEach b pid =>
      cases hat with
      | forEach hb => exact spawns_sendForward s k _ (.each hb pid)
  | sendSingle => cases hat; exact spawns_sendForward s k _ (.single _ _ _ _)

/-- A step of a call leaves the channels alone, and no call starts. -/
theorem AppState.Advances.frame {s s' : AppState PeerID κ} {k : κ} {pc : Pc PeerID}
    {es : List (Event PeerID κ)} (hadvance : Advances s k pc s' es) :
    s'.channels = s.channels ∧ (∀ task, .enqueued task ∉ es) ∧ ∀ k call, .called k call ∉ es := by
  cases hadvance with
  | quiet _ hsame => exact ⟨hsame.channels, by simp, by simp⟩
  | vacant | insert | iter | snapshot | remove | removeAbsent => exact ⟨rfl, by simp, by simp⟩
  | sendEach | sendSingle =>
      refine ⟨by simp, fun task hmem => ?_, fun k call hmem => ?_⟩
      · rcases sendForward_events hmem with ⟨_, h⟩ | ⟨_, h⟩ <;> cases h
      · rcases sendForward_events hmem with ⟨_, h⟩ | ⟨_, h⟩ <;> cases h

/-! ## Every run -/

/-- What the events of a run say of its calls and tasks. -/
structure Traced (s : AppState PeerID κ) (tr : List (Event PeerID κ)) : Prop where
  fresh : ∀ k call, .called k call ∈ tr → s.calls k ≠ none
  unique : ∀ k call call', .called k call ∈ tr → .called k call' ∈ tr → call = call'
  at_pc : ∀ k pc, s.calls k = some pc → ∃ call, .called k call ∈ tr ∧ call.At pc
  spawned : ∀ task, .spawned task ∈ tr →
    ∃ call, .called task.caller call ∈ tr ∧ call.Sends task.payload
  tasks : ∀ task ∈ s.tasks, .spawned task ∈ tr
  enqueued : ∀ task, .enqueued task ∈ tr → .spawned task ∈ tr

theorem Traced.call {s : AppState PeerID κ} {tr : List (Event PeerID κ)}
    (htraced : Traced s tr) {k : κ} (hfresh : s.calls k = none) (call : Call PeerID) :
    Traced (s.setCall k call.start) (tr ++ [.called k call]) := by
  have hnew : ∀ call, .called k call ∉ tr := fun call hmem => htraced.fresh k call hmem hfresh
  constructor
  · intro k' call' hmem
    by_cases hk : k' = k
    · subst hk
      simp
    · rw [setCall_calls_of_ne _ hk]
      exact htraced.fresh k' call' (by simpa [hk] using hmem)
  · intro k' call₁ call₂ h₁ h₂
    by_cases hk : k' = k
    · subst hk
      have h₁' : call₁ = call := by simpa [hnew] using h₁
      have h₂' : call₂ = call := by simpa [hnew] using h₂
      rw [h₁', h₂']
    · exact htraced.unique k' call₁ call₂ (by simpa [hk] using h₁) (by simpa [hk] using h₂)
  · intro k' pc hpc
    by_cases hk : k' = k
    · subst hk
      simp only [setCall_calls_self, Option.some.injEq] at hpc
      exact ⟨call, by simp, hpc ▸ call.at_start⟩
    · rw [setCall_calls_of_ne _ hk] at hpc
      obtain ⟨call', hcalled, hat⟩ := htraced.at_pc k' pc hpc
      exact ⟨call', List.mem_append_left _ hcalled, hat⟩
  · intro task hmem
    obtain ⟨call', hcalled, hsends⟩ := htraced.spawned task (by simpa using hmem)
    exact ⟨call', List.mem_append_left _ hcalled, hsends⟩
  · exact fun task hmem => List.mem_append_left _ (htraced.tasks task hmem)
  · exact fun task hmem => List.mem_append_left _ (htraced.enqueued task (by simpa using hmem))

theorem Traced.advance {s s' : AppState PeerID κ} {tr es : List (Event PeerID κ)} {k : κ}
    {pc : Pc PeerID} (htraced : Traced s tr) (hpc : s.calls k = some pc)
    (hadvance : Advances s k pc s' es) : Traced s' (tr ++ es) := by
  obtain ⟨-, henqueued, hcalled⟩ := hadvance.frame
  obtain ⟨call, hcall, hat⟩ := htraced.at_pc k pc hpc
  obtain ⟨pc', hpc', hat'⟩ := hat.advance hadvance
  have hold : ∀ {k' call'}, .called k' call' ∈ tr ++ es → .called k' call' ∈ tr := by
    intro k' call' hmem
    exact (List.mem_append.mp hmem).resolve_right (hcalled k' call')
  constructor
  · intro k' call' hmem
    by_cases hk : k' = k
    · subst hk
      simp [hpc']
    · have hsome := htraced.fresh k' call' (hold hmem)
      rcases hadvance.calls_of_ne hk with heq | ⟨peerId, heq⟩
      · rwa [heq]
      · simpa [heq] using hsome
  · exact fun k' call₁ call₂ h₁ h₂ => htraced.unique k' call₁ call₂ (hold h₁) (hold h₂)
  · intro k' pc₀ hpc₀
    by_cases hk : k' = k
    · subst hk
      obtain rfl : pc' = pc₀ := Option.some.inj (hpc'.symm.trans hpc₀)
      exact ⟨call, List.mem_append_left _ hcall, hat'⟩
    · rcases hadvance.calls_of_ne hk with heq | ⟨peerId, heq⟩
      · rw [heq] at hpc₀
        obtain ⟨call', hmem, hat₀⟩ := htraced.at_pc k' pc₀ hpc₀
        exact ⟨call', List.mem_append_left _ hmem, hat₀⟩
      · rw [heq, Option.map_eq_some_iff] at hpc₀
        obtain ⟨pc₁, hpc₁, rfl⟩ := hpc₀
        obtain ⟨call', hmem, hat₁⟩ := htraced.at_pc k' pc₁ hpc₁
        exact ⟨call', List.mem_append_left _ hmem, hat₁.forget peerId⟩
  · intro task hmem
    rcases List.mem_append.mp hmem with hmem | hmem
    · obtain ⟨call', hcalled', hsends⟩ := htraced.spawned task hmem
      exact ⟨call', List.mem_append_left _ hcalled', hsends⟩
    · cases hat.spawns hadvance with
      | none _ _ hes => exact absurd hmem (hes task)
      | one _ hcaller hsends _ _ _ _ hes =>
          obtain rfl : task = _ := by simpa [hes] using hmem
          exact ⟨call, List.mem_append_left _ (hcaller ▸ hcall), hsends⟩
  · intro task hmem
    cases hat.spawns hadvance with
    | none htasks =>
        rw [htasks] at hmem
        exact List.mem_append_left _ (htraced.tasks task hmem)
    | one _ _ _ _ _ htasks _ hes =>
        rw [htasks] at hmem
        rcases List.mem_append.mp hmem with hmem | hmem
        · exact List.mem_append_left _ (htraced.tasks task hmem)
        · obtain rfl := List.mem_singleton.mp hmem
          simp [hes]
  · intro task hmem
    have hmem' := (List.mem_append.mp hmem).resolve_right (henqueued task)
    exact List.mem_append_left _ (htraced.enqueued task hmem')

/-- A step that starts no call and spawns no task. -/
theorem Traced.frame {s s' : AppState PeerID κ} {tr es : List (Event PeerID κ)}
    (htraced : Traced s tr) (hcalls : s'.calls = s.calls)
    (htasks : ∀ task ∈ s'.tasks, task ∈ s.tasks) (hcalled : ∀ k call, .called k call ∉ es)
    (hspawned : ∀ task, .spawned task ∉ es)
    (henqueued : ∀ task, .enqueued task ∈ es → task ∈ s.tasks) : Traced s' (tr ++ es) := by
  constructor
  · intro k call hmem
    rw [hcalls]
    exact htraced.fresh k call ((List.mem_append.mp hmem).resolve_right (hcalled k call))
  · intro k call call' h h'
    exact htraced.unique k call call' ((List.mem_append.mp h).resolve_right (hcalled k call))
      ((List.mem_append.mp h').resolve_right (hcalled k call'))
  · intro k pc hpc
    rw [hcalls] at hpc
    obtain ⟨call, hmem, hat⟩ := htraced.at_pc k pc hpc
    exact ⟨call, List.mem_append_left _ hmem, hat⟩
  · intro task hmem
    obtain ⟨call, hcall, hsends⟩ :=
      htraced.spawned task ((List.mem_append.mp hmem).resolve_right (hspawned task))
    exact ⟨call, List.mem_append_left _ hcall, hsends⟩
  · exact fun task hmem => List.mem_append_left _ (htraced.tasks task (htasks task hmem))
  · intro task hmem
    rcases List.mem_append.mp hmem with hmem | hmem
    · exact List.mem_append_left _ (htraced.enqueued task hmem)
    · exact List.mem_append_left _ (htraced.tasks task (henqueued task hmem))

theorem Traced.step {s s' : AppState PeerID κ} {tr es : List (Event PeerID κ)}
    {a : Action PeerID κ} (htraced : Traced s tr) (hstep : s.step a = some (s', es)) :
    Traced s' (tr ++ es) := by
  cases steps_of_step hstep with
  | call k call hfresh => exact htraced.call hfresh call
  | advance k choice hpc hadvance => exact htraced.advance hpc hadvance
  | drop i task htask =>
      exact htraced.frame rfl (fun t ht => List.mem_of_mem_eraseIdx ht) (by simp) (by simp)
        (by simp)
  | enqueue i task htask =>
      have hmem : task ∈ s.tasks := List.mem_of_getElem? htask
      exact htraced.frame rfl (fun t ht => List.mem_of_mem_eraseIdx ht) (by simp) (by simp)
        (by simpa using hmem)
  | recv | close => exact htraced.frame rfl (fun t ht => ht) (by simp) (by simp) (by simp)

theorem traced_of_run {as : List (Action PeerID κ)} {s : AppState PeerID κ}
    {tr : List (Event PeerID κ)} (hrun : (appState PeerID κ).Run as s tr) : Traced s tr := by
  refine Machine.invariant ?_ (fun _ _ _ _ _ htraced hstep => htraced.step hstep) hrun
  constructor <;> simp [appState, AppState.init]

end SfRs.Server
