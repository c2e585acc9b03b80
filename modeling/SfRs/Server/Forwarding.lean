import Mathlib.Algebra.Order.Ring.Nat
import SfRs.Lib.Ledger
import SfRs.Server.Ordering
import SfRs.Server.PeerCount
import SfRs.Server.Routing
/-!
# The counters of sent and forwarded messages

A send task counts its request when the channel has taken it.  A unicast is counted by the
call that spawned the task, whatever becomes of the task, and also when there was no peer to
spawn one for.
-/

set_option linter.unusedSectionVars false

namespace SfRs.Server

open SfRs.Lib SfRs.Protocol

variable {PeerID κ : Type} [DecidableEq PeerID] [DecidableEq κ]

/-- The peer that a call forwards to, if it is a unicast. -/
def Call.unicastTo : Call PeerID → Option PeerID
  | .handleForward _ _ toPeerId _ => toPeerId
  | _ => none

/-- The unicasts of a run. -/
def unicasts (tr : List (Event PeerID κ)) : List κ :=
  tr.filterMap fun
    | .called k call => if call.unicastTo.isSome then some k else none
    | _ => none

def SendTask.callerFor (target : PeerID) (task : SendTask PeerID κ) : Option κ :=
  if task.handler.peerId = target then some task.caller else none

/-- The callers of the requests that were enqueued to connections of `target`. -/
def sentFor (target : PeerID) (tr : List (Event PeerID κ)) : List κ :=
  tr.filterMap fun
    | .enqueued task => task.callerFor target
    | _ => none

/-- The callers of the requests to `target` that were lost: no such peer was registered, or
the channel was closed when the task ran. -/
def lostFor (target : PeerID) (tr : List (Event PeerID κ)) : List κ :=
  tr.filterMap fun
    | .dropped task => task.callerFor target
    | .lookup k peerId none => if peerId = target then some k else none
    | _ => none

/-- The callers of the requests to `target` that tasks hold. -/
def heldFor (target : PeerID) (tasks : List (SendTask PeerID κ)) : List κ :=
  tasks.filterMap (SendTask.callerFor target)

/-- The unicasts among the callers. -/
def unicastsIn (tr : List (Event PeerID κ)) (callers : List κ) : Nat :=
  callers.countP (· ∈ unicasts tr)

/-- What a call at a position still owes to the counter of `target`. -/
def Pc.forwardDue (target : PeerID) : Pc PeerID → Nat
  | .incrementForwarded toPeerId => if toPeerId = target then 1 else 0
  | _ => 0

namespace AppState

/-- The unicasts to `target` that have looked it up and have not counted. -/
def uncounted (s : AppState PeerID κ) (tr : List (Event PeerID κ)) (target : PeerID) : Nat :=
  s.totalDue (Pc.forwardDue target) tr

/-- While no send task is pending, the counters are those of what was enqueued. -/
def CountersAgree (s : AppState PeerID κ) (tr : List (Event PeerID κ)) : Prop :=
  s.tasks = [] → ∀ target, s.messagesSent target = (sentFor target tr).length ∧
    s.messageForwarded target = unicastsIn tr (sentFor target tr)

/-- While no send task is pending, as many unicasts have been lost as are still to count. -/
def LossesUncounted (s : AppState PeerID κ) (tr : List (Event PeerID κ)) : Prop :=
  s.tasks = [] → ∀ target, unicastsIn tr (lostFor target tr) = s.uncounted tr target

/-- The request of a unicast is not lost when `task` runs, and is not sent before it counts. -/
def Delivers (s : AppState PeerID κ) (tr : List (Event PeerID κ)) (task : SendTask PeerID κ) :
    Prop :=
  task.caller ∈ unicasts tr → (s.channels task.handler).closed = false ∧
    ∀ target, s.calls task.caller ≠ some (.incrementForwarded target)

end AppState

/-- The step loses no unicast: one that looks its target up finds it, and the task of one
finds the channel open, and runs when the unicast has been counted. -/
def Forwards (s : ServerState PeerID) (tr : List (ServerEvent PeerID)) :
    ServerAction PeerID → Prop
  | .advance h _ => ∀ n fromPeerId toPeerId data, (s.conns h).currentCall = some n →
      s.app.calls (h, n) = some (.sendForward fromPeerId toPeerId data) →
      (s.app.peers.lookup toPeerId).isSome
  | .runTask i => ∀ task, s.app.tasks[i]? = some task → s.app.Delivers (appEvents tr) task
  | _ => True

/-! ## The accounts of a run -/

/-- The counters of a run whose unicasts are the callers in `u`. -/
structure Counted (u : κ → Bool) (s : AppState PeerID κ) (tr : List (Event PeerID κ)) :
    Prop where
  sent : ∀ target, s.messagesSent target = (sentFor target tr).length
  forwarded : ∀ target, s.messageForwarded target + s.uncounted tr target =
    (sentFor target tr).countP u + (lostFor target tr).countP u + (heldFor target s.tasks).countP u

section Counted

variable {u : κ → Bool} {s s₁ s' : AppState PeerID κ} {tr es : List (Event PeerID κ)} {k : κ}
  {pc pc' : Pc PeerID}

theorem sentFor_append (target : PeerID) (tr es : List (Event PeerID κ)) :
    sentFor target (tr ++ es) = sentFor target tr ++ sentFor target es := List.filterMap_append

theorem lostFor_append (target : PeerID) (tr es : List (Event PeerID κ)) :
    lostFor target (tr ++ es) = lostFor target tr ++ lostFor target es := List.filterMap_append

theorem heldFor_append (target : PeerID) (tasks tasks' : List (SendTask PeerID κ)) :
    heldFor target (tasks ++ tasks') = heldFor target tasks ++ heldFor target tasks' :=
  List.filterMap_append

theorem forwardDue_forget (target : PeerID) (pc : Pc PeerID) (peerId : PeerID) :
    (pc.forget peerId).forwardDue target = pc.forwardDue target := by
  cases pc <;> rfl

/-- A step of a call keeps the accounts when what it changes of them is balanced. -/
theorem Counted.setCall (h : Counted u s tr) (hnodup : (callers tr).Nodup)
    (hk : k ∈ callers tr) (hpc : s.calls k = some pc) (s₁ : AppState PeerID κ)
    (pc' : Pc PeerID) (es : List (Event PeerID κ))
    (hothers : ∀ target k', s₁.due (Pc.forwardDue target) k' = s.due (Pc.forwardDue target) k')
    (hes : ∀ k call, .called k call ∉ es) (hsent : s₁.messagesSent = s.messagesSent)
    (hnone : ∀ target, sentFor target es = [])
    (hbalance : ∀ target, s₁.messageForwarded target + pc'.forwardDue target +
        (heldFor target s.tasks).countP u =
      s.messageForwarded target + pc.forwardDue target + (lostFor target es).countP u +
        (heldFor target s₁.tasks).countP u) :
    Counted u (s₁.setCall k pc') (tr ++ es) := by
  constructor
  · intro target
    have hsame : (s₁.setCall k pc').messagesSent = s₁.messagesSent := rfl
    rw [hsame, hsent, sentFor_append, hnone, List.append_nil, h.sent]
  · intro target
    have huncounted := totalDue_setCall pc' hnodup hk hpc hes (hothers target)
    have hold := h.forwarded target
    have hnew := hbalance target
    have hcount : (s₁.setCall k pc').messageForwarded = s₁.messageForwarded := rfl
    rw [hcount, AppState.setCall_tasks, AppState.uncounted, sentFor_append, lostFor_append, hnone,
      List.append_nil, List.countP_append]
    rw [AppState.uncounted] at hold
    omega

/-- A step of a call that neither sends nor counts a unicast. -/
theorem Counted.quiet (h : Counted u s tr) (hnodup : (callers tr).Nodup)
    (hk : k ∈ callers tr) (hpc : s.calls k = some pc) (s₁ : AppState PeerID κ)
    (pc' : Pc PeerID) (es : List (Event PeerID κ))
    (hdue : ∀ target, pc'.forwardDue target = pc.forwardDue target)
    (hothers : ∀ target k', s₁.due (Pc.forwardDue target) k' = s.due (Pc.forwardDue target) k')
    (htasks : s₁.tasks = s.tasks) (hsent : s₁.messagesSent = s.messagesSent)
    (hforwarded : s₁.messageForwarded = s.messageForwarded)
    (hes : ∀ k call, .called k call ∉ es)
    (hnone : ∀ target, sentFor target es = [] ∧ lostFor target es = []) :
    Counted u (s₁.setCall k pc') (tr ++ es) := by
  refine h.setCall hnodup hk hpc s₁ pc' es hothers hes hsent (fun target => (hnone target).1) ?_
  intro target
  rw [(hnone target).2, hdue, htasks, hforwarded]
  simp

/-- A call sends a request: the lookup or the task stands for it. -/
theorem Counted.sendForward (h : Counted u s tr) (hnodup : (callers tr).Nodup)
    (hk : k ∈ callers tr) (hpc : s.calls k = some pc) (pc' : Pc PeerID)
    (hentries : ∀ id handler, s.peers.lookup id = some handler → handler.peerId = id)
    {fromPeerId toPeerId : PeerID} {data : PeerEvent PeerID}
    (hdue : ∀ target, pc'.forwardDue target =
      pc.forwardDue target + if toPeerId = target ∧ u k then 1 else 0) :
    Counted u ((s.sendForward k fromPeerId toPeerId data).1.setCall k pc')
      (tr ++ (s.sendForward k fromPeerId toPeerId data).2) := by
  cases hfound : s.peers.lookup toPeerId with
  | none =>
      rw [AppState.sendForward_of_absent hfound]
      refine h.setCall hnodup hk hpc s pc' _ (fun _ _ => rfl) (by simp) rfl (fun _ => rfl) ?_
      intro target
      have hlost : (lostFor target [(.lookup k toPeerId none : Event PeerID κ)]).countP u =
          if toPeerId = target ∧ u k then 1 else 0 := by
        by_cases htarget : toPeerId = target
        all_goals simp [lostFor, htarget]
      rw [hdue, hlost]
      omega
  | some handler =>
      rw [AppState.sendForward_of_found hfound]
      let task : SendTask PeerID κ :=
        ⟨s.spawned, k, handler, .forward fromPeerId (some toPeerId) data⟩
      refine h.setCall hnodup hk hpc { s with tasks := s.tasks ++ [task], spawned := s.spawned + 1 }
        pc' [.lookup k toPeerId (some handler), .spawned task] (fun _ _ => rfl) (by simp) rfl
        (fun _ => rfl) fun target => ?_
      have hid : handler.peerId = toPeerId := hentries toPeerId handler hfound
      have hheld : (heldFor target [task]).countP u =
          if toPeerId = target ∧ u k then 1 else 0 := by
        by_cases htarget : toPeerId = target
        all_goals simp [heldFor, SendTask.callerFor, task, hid, htarget]
      have hlost : lostFor target [.lookup k toPeerId (some handler), .spawned task] = [] := rfl
      dsimp only
      rw [hdue, hlost, heldFor_append, List.countP_append, hheld, List.countP_nil]
      omega

theorem Counted.advance {choice : Choice PeerID} (h : Counted u s tr)
    (hnodup : (callers tr).Nodup) (hk : k ∈ callers tr) (hpc : s.calls k = some pc)
    (hentries : ∀ id handler, s.peers.lookup id = some handler → handler.peerId = id)
    (hsingle : ∀ fromPeerId toPeerId data, pc = .sendForward fromPeerId toPeerId data → u k)
    (heach : ∀ b ids, pc = .forEach b ids → ¬ u k)
    (hadvance : s.advance k pc choice = some (s', es)) : Counted u s' (tr ++ es) := by
  have hquiet := h.quiet hnodup hk hpc
  have hmove : ∀ pc' : Pc PeerID,
      (∀ target, pc'.forwardDue target = pc.forwardDue target) →
      Counted u (s.setCall k pc') (tr ++ []) := fun pc' hdue =>
    hquiet s pc' [] hdue (fun _ _ => rfl) rfl rfl rfl (by simp) fun _ => ⟨rfl, rfl⟩
  unfold AppState.advance at hadvance
  split at hadvance
  case h_1 =>
      split at hadvance
      case isTrue =>
          cases hadvance
          exact hmove _ fun _ => rfl
      case isFalse =>
          cases hadvance
          exact hmove _ fun _ => rfl
  case h_2 | h_3 | h_4 | h_5 | h_6 | h_9 | h_14 =>
      cases hadvance
      exact hquiet _ _ _ (fun _ => rfl) (fun _ _ => rfl) rfl rfl rfl (by simp)
        (fun _ => ⟨rfl, rfl⟩)
  case h_7 =>
      split at hadvance
      case isTrue => cases hadvance; exact hmove _ fun _ => rfl
      case isFalse => cases hadvance
  case h_8 =>
      split at hadvance
      case isTrue =>
          cases hadvance
          exact hquiet s _ _ (fun _ => rfl) (fun _ _ => rfl) rfl rfl rfl (by simp)
            (fun _ => ⟨rfl, rfl⟩)
      case isFalse => cases hadvance
  case h_10 b pid ids =>
      split at hadvance
      case isTrue =>
          cases hadvance
          exact hmove _ fun _ => rfl
      case isFalse =>
          cases hadvance
          have hnot := heach b _ rfl
          exact h.sendForward hnodup hk hpc (.forEach b ids) hentries fun _ => by
            simp [Pc.forwardDue, hnot]
  case h_11 fromPeerId toPeerId data =>
      cases hadvance
      have hunicast := hsingle fromPeerId toPeerId data rfl
      exact h.sendForward hnodup hk hpc (.incrementForwarded toPeerId) hentries fun _ => by
        simp [Pc.forwardDue, hunicast]
  case h_12 toPeerId =>
      cases hadvance
      refine h.setCall hnodup hk hpc _ _ _ (fun _ _ => rfl) (by simp) rfl (fun _ => rfl) ?_
      intro target
      have hnone : lostFor target ([] : List (Event PeerID κ)) = [] := rfl
      by_cases htarget : toPeerId = target
      · subst htarget
        simp [Pc.forwardDue, hnone]
      · simp [Pc.forwardDue, hnone, htarget, Ne.symm htarget]
  case h_13 peerId =>
      split at hadvance
      case h_1 handler hfound =>
          cases hadvance
          exact hquiet (s.removeEntry peerId) _ _ (fun _ => rfl)
            (fun target => due_removeEntry (forwardDue_forget target) peerId) rfl rfl rfl
            (by simp) (fun _ => ⟨rfl, rfl⟩)
      case h_2 =>
          cases hadvance
          exact hmove _ fun _ => rfl
  case h_15 => cases hadvance

theorem forwardDue_start (target : PeerID) (call : Call PeerID) :
    call.start.forwardDue target = 0 := by
  cases call with
  | handleForward _ _ toPeerId => cases toPeerId <;> rfl
  | addPeer | removePeer | broadcastForwardExcept => rfl

theorem Counted.start (h : Counted u s tr) (htraced : Traced s tr) (hfresh : s.calls k = none)
    (call : Call PeerID) : Counted u (s.setCall k call.start) (tr ++ [.called k call]) := by
  have hsent : ∀ target, sentFor target [(.called k call : Event PeerID κ)] = [] := fun _ => rfl
  have hlost : ∀ target, lostFor target [(.called k call : Event PeerID κ)] = [] := fun _ => rfl
  constructor
  · intro target
    rw [sentFor_append, hsent, List.append_nil]
    exact h.sent target
  · intro target
    rw [AppState.uncounted, totalDue_start (forwardDue_start target) htraced hfresh,
      sentFor_append, lostFor_append, hsent, hlost, List.append_nil, List.append_nil]
    exact h.forwarded target

/-- A send task that runs leaves the tasks. -/
theorem countP_heldFor_eraseIdx (u : κ → Bool) (target : PeerID)
    {tasks : List (SendTask PeerID κ)} {i : Nat} {task : SendTask PeerID κ}
    (htask : tasks[i]? = some task) :
    (heldFor target tasks).countP u = (task.callerFor target).toList.countP u +
      (heldFor target (tasks.eraseIdx i)).countP u := by
  have hperm : (heldFor target tasks).Perm
      ((task.callerFor target).toList ++ heldFor target (tasks.eraseIdx i)) :=
    filterMap_perm_eraseIdx htask
  rw [hperm.countP_eq, List.countP_append]

theorem Counted.enqueue (h : Counted u s tr) {i : Nat} {task : SendTask PeerID κ}
    (htask : s.tasks[i]? = some task) : Counted u (s.enqueue i task) (tr ++ [.enqueued task]) := by
  have hevent : ∀ target, sentFor target [.enqueued task] = (task.callerFor target).toList := by
    intro target
    cases hcaller : task.callerFor target <;> simp [sentFor, hcaller]
  have hlost : ∀ target, lostFor target [(.enqueued task : Event PeerID κ)] = [] := fun _ => rfl
  constructor
  · intro target
    rw [sentFor_append, List.length_append, hevent, ← h.sent target]
    by_cases htarget : task.handler.peerId = target
    · subst htarget
      simp [AppState.enqueue, SendTask.callerFor]
    · simp [AppState.enqueue, SendTask.callerFor, htarget, Ne.symm htarget]
  · intro target
    have hsame : (s.enqueue i task).uncounted (tr ++ [.enqueued task]) target =
        s.uncounted tr target := totalDue_of_same rfl (by simp)
    have hheld := countP_heldFor_eraseIdx u target htask
    have hforwarded : (s.enqueue i task).messageForwarded = s.messageForwarded := rfl
    have htasks : (s.enqueue i task).tasks = s.tasks.eraseIdx i := rfl
    have hold := h.forwarded target
    rw [hforwarded, htasks, hsame, sentFor_append, lostFor_append, hlost, List.append_nil,
      List.countP_append, hevent]
    omega

theorem Counted.drop (h : Counted u s tr) {i : Nat} {task : SendTask PeerID κ}
    (htask : s.tasks[i]? = some task) :
    Counted u { s with tasks := s.tasks.eraseIdx i } (tr ++ [.dropped task]) := by
  have hevent : ∀ target, lostFor target [.dropped task] = (task.callerFor target).toList := by
    intro target
    cases hcaller : task.callerFor target <;> simp [lostFor, hcaller]
  have hsent : ∀ target, sentFor target [(.dropped task : Event PeerID κ)] = [] := fun _ => rfl
  constructor
  · intro target
    rw [sentFor_append, hsent, List.append_nil]
    exact h.sent target
  · intro target
    have hsame : ({ s with tasks := s.tasks.eraseIdx i } : AppState PeerID κ).uncounted
        (tr ++ [.dropped task]) target = s.uncounted tr target :=
      totalDue_of_same rfl (by simp)
    have hheld := countP_heldFor_eraseIdx u target htask
    have hold := h.forwarded target
    rw [hsame, sentFor_append, lostFor_append, hsent, List.append_nil, List.countP_append, hevent]
    dsimp only
    omega

/-- A step that moves no call and no task. -/
theorem Counted.frame (h : Counted u s tr) (hcalls : s'.calls = s.calls)
    (htasks : s'.tasks = s.tasks) (hsent : s'.messagesSent = s.messagesSent)
    (hforwarded : s'.messageForwarded = s.messageForwarded)
    (hes : ∀ k call, .called k call ∉ es)
    (hnone : ∀ target, sentFor target es = [] ∧ lostFor target es = []) :
    Counted u s' (tr ++ es) := by
  constructor
  · intro target
    rw [hsent, sentFor_append, (hnone target).1, List.append_nil]
    exact h.sent target
  · intro target
    rw [hforwarded, htasks, AppState.uncounted, totalDue_of_same hcalls hes, sentFor_append,
      lostFor_append, (hnone target).1, (hnone target).2, List.append_nil, List.append_nil]
    exact h.forwarded target

theorem Counted.step {a : Action PeerID κ} (h : Counted u s tr) (htraced : Traced s tr)
    (hnodup : (callers tr).Nodup) (hrouted : Routed s tr)
    (hu : ∀ k call, .called k call ∈ tr → (u k ↔ call.unicastTo.isSome))
    (hstep : s.step a = some (s', es)) : Counted u s' (tr ++ es) := by
  cases AppState.steps_of_step hstep with
  | call k call hfresh => exact h.start htraced hfresh call
  | @advance k choice pc _ _ hpc =>
      have hadvance : s.advance k pc choice = some (s', es) := by
        simpa only [AppState.step, hpc, Option.bind_some] using hstep
      obtain ⟨call, hcalled, hat⟩ := htraced.at_pc k pc hpc
      have hkind : u k ↔ call.unicastTo.isSome := hu k call hcalled
      refine h.advance hnodup (mem_callers.mpr ⟨call, hcalled⟩) hpc hrouted.entries ?_ ?_ hadvance
      · rintro fromPeerId toPeerId data rfl
        cases hat
        exact hkind.mpr rfl
      · rintro b ids rfl hunicast
        have hsome := hkind.mp hunicast
        cases hat with
        | forEach hb => cases hb <;> cases hsome
  | drop i task htask => exact h.drop htask
  | enqueue i task htask => exact h.enqueue htask
  | recv | close => exact h.frame rfl rfl rfl rfl (by simp) fun _ => ⟨rfl, rfl⟩

theorem counted_of_run {ls : List (Action PeerID κ)} (hrun : (appState PeerID κ).Run ls s tr)
    (hu : ∀ k call, .called k call ∈ tr → (u k ↔ call.unicastTo.isSome)) : Counted u s tr := by
  induction hrun with
  | nil => exact ⟨fun _ => rfl, fun _ => rfl⟩
  | snoc hrun hstep ih =>
      have hbefore := fun k call hcalled => hu k call (List.mem_append_left _ hcalled)
      exact (ih hbefore).step (traced_of_run hrun) (nodup_callers_of_run hrun)
        (routed_of_run hrun) hbefore hstep

end Counted

/-! ## Every run -/

section Runs

variable {s s' : AppState PeerID κ} {tr es : List (Event PeerID κ)} {k : κ} {pc : Pc PeerID}

theorem mem_unicasts : k ∈ unicasts tr ↔ ∃ call, .called k call ∈ tr ∧ call.unicastTo.isSome := by
  simp only [unicasts, List.mem_filterMap]
  constructor
  · rintro ⟨e, he, heq⟩
    cases e with
    | called k' call =>
        by_cases hsome : call.unicastTo.isSome
        · simp only [hsome, if_true, Option.some.injEq] at heq
          exact ⟨call, heq ▸ he, hsome⟩
        · simp [hsome] at heq
    | _ => cases heq
  · rintro ⟨call, he, hsome⟩
    exact ⟨_, he, by simp [hsome]⟩

theorem mem_unicasts_of_called (htraced : Traced s tr) {call : Call PeerID}
    (hcalled : .called k call ∈ tr) : k ∈ unicasts tr ↔ call.unicastTo.isSome := by
  rw [mem_unicasts]
  constructor
  · rintro ⟨call', hcalled', hsome⟩
    rwa [htraced.unique k call call' hcalled hcalled']
  · exact fun hsome => ⟨call, hcalled, hsome⟩

/-- When no send task is pending, what the counter of forwarded messages is short of or over
what was enqueued is what was lost, less what is still to count. -/
theorem countersAgree_iff {ls : List (Action PeerID κ)}
    (hrun : (appState PeerID κ).Run ls s tr) : s.CountersAgree tr ↔ s.LossesUncounted tr := by
  have htraced := traced_of_run hrun
  have hcounted : Counted (fun k => k ∈ unicasts tr) s tr := by
    refine counted_of_run hrun fun k call hcalled => ?_
    rw [decide_eq_true_iff]
    exact mem_unicasts_of_called htraced hcalled
  have hbalance : s.tasks = [] → ∀ target, s.messageForwarded target + s.uncounted tr target =
      unicastsIn tr (sentFor target tr) + unicastsIn tr (lostFor target tr) := by
    intro htasks target
    have hforwarded := hcounted.forwarded target
    rwa [htasks] at hforwarded
  constructor
  · intro hagree htasks target
    have htarget := hbalance htasks target
    have hexact := (hagree htasks target).2
    omega
  · intro hlosses htasks target
    have htarget := hbalance htasks target
    have hexact := hlosses htasks target
    exact ⟨hcounted.sent target, by omega⟩

/-- The requests lost so far are of broadcasts, and a unicast that is still to count has its
send task pending. -/
structure NoneLost (s : AppState PeerID κ) (tr : List (Event PeerID κ)) : Prop where
  traced : Traced s tr
  lost : ∀ target, ∀ k ∈ lostFor target tr,
    ∃ call, .called k call ∈ tr ∧ call.unicastTo = none
  waiting : ∀ k target, s.calls k = some (.incrementForwarded target) →
    ∃ task ∈ s.tasks, task.caller = k

theorem NoneLost.lossesUncounted (h : NoneLost s tr) : s.LossesUncounted tr := by
  intro htasks target
  have hlost : unicastsIn tr (lostFor target tr) = 0 := by
    refine List.countP_eq_zero.mpr fun k hk => ?_
    obtain ⟨call, hcalled, hnone⟩ := h.lost target k hk
    simp [mem_unicasts_of_called h.traced hcalled, hnone]
  have hdue : s.uncounted tr target = 0 := by
    refine totalDue_eq_zero fun k pc hpc => ?_
    cases pc with
    | incrementForwarded toPeerId =>
        obtain ⟨task, hmem, -⟩ := h.waiting k toPeerId hpc
        simp [htasks] at hmem
    | _ => rfl
  rw [hlost, hdue]

/-- A step keeps what is known of the lost requests, if what it loses is of a broadcast. -/
theorem NoneLost.lost_append (h : NoneLost s tr)
    (hes : ∀ target, ∀ k ∈ lostFor target es,
      ∃ call, .called k call ∈ tr ∧ call.unicastTo = none) (target : PeerID) :
    ∀ k ∈ lostFor target (tr ++ es),
      ∃ call, .called k call ∈ tr ++ es ∧ call.unicastTo = none := by
  intro k hk
  rw [lostFor_append] at hk
  have hbefore : ∃ call, .called k call ∈ tr ∧ call.unicastTo = none :=
    (List.mem_append.mp hk).elim (h.lost target k) (hes target k)
  obtain ⟨call, hcalled, hnone⟩ := hbefore
  exact ⟨call, List.mem_append_left _ hcalled, hnone⟩

theorem forget_eq_incrementForwarded {peerId target : PeerID}
    (h : pc.forget peerId = .incrementForwarded target) : pc = .incrementForwarded target := by
  cases pc <;> first | exact h | cases h

theorem lostFor_sendForward {target fromPeerId toPeerId : PeerID} {data : PeerEvent PeerID}
    {k' : κ} (hk' : k' ∈ lostFor target (s.sendForward k fromPeerId toPeerId data).2) :
    k' = k ∧ s.peers.lookup toPeerId = none := by
  cases hfound : s.peers.lookup toPeerId with
  | none =>
      rw [AppState.sendForward_of_absent hfound] at hk'
      by_cases htarget : toPeerId = target
      all_goals simp [lostFor, htarget] at hk'
      exact ⟨hk', rfl⟩
  | some handler =>
      rw [AppState.sendForward_of_found hfound] at hk'
      cases hk'

/-- What a step of a call loses is its own, and it looked up a peer that is not there. -/
theorem lost_of_advances (hadvance : AppState.Advances s k pc s' es) {target : PeerID} {k' : κ}
    (hk' : k' ∈ lostFor target es) : k' = k ∧
      ((∃ b ids, pc = .forEach b ids) ∨ ∃ fromPeerId toPeerId data,
        pc = .sendForward fromPeerId toPeerId data ∧ s.peers.lookup toPeerId = none) := by
  cases hadvance with
  | sendEach b pid ids =>
      obtain ⟨rfl, -⟩ := lostFor_sendForward hk'
      exact ⟨rfl, Or.inl ⟨b, pid :: ids, rfl⟩⟩
  | sendSingle fromPeerId toPeerId data =>
      obtain ⟨rfl, habsent⟩ := lostFor_sendForward hk'
      exact ⟨rfl, Or.inr ⟨fromPeerId, toPeerId, data, rfl, habsent⟩⟩
  | quiet | vacant | insert | iter | snapshot | remove | removeAbsent => cases hk'

/-- A call comes to its count from the lookup of its target. -/
theorem sendForward_of_advances (hadvance : AppState.Advances s k pc s' es) {target : PeerID}
    (hcall : s'.calls k = some (.incrementForwarded target)) :
    ∃ fromPeerId data, pc = .sendForward fromPeerId target data ∧
      s'.tasks = (s.sendForward k fromPeerId target data).1.tasks := by
  cases hadvance with
  | sendSingle fromPeerId toPeerId data =>
      rw [AppState.setCall_calls_self] at hcall
      cases hcall
      exact ⟨fromPeerId, data, rfl, rfl⟩
  | quiet hquiet =>
      rw [AppState.setCall_calls_self] at hcall
      cases hquiet <;> cases hcall
  | vacant | insert | iter | snapshot | sendEach | remove | removeAbsent =>
      rw [AppState.setCall_calls_self] at hcall
      cases hcall

theorem NoneLost.advance (h : NoneLost s tr) (hpc : s.calls k = some pc)
    (hfinds : ∀ fromPeerId toPeerId data, pc = .sendForward fromPeerId toPeerId data →
      (s.peers.lookup toPeerId).isSome)
    (hadvance : AppState.Advances s k pc s' es) : NoneLost s' (tr ++ es) := by
  obtain ⟨call, hcalled, hat⟩ := h.traced.at_pc k pc hpc
  refine ⟨h.traced.advance hpc hadvance, h.lost_append ?_, ?_⟩
  · intro target k' hk'
    obtain ⟨rfl, ⟨b, ids, rfl⟩ | ⟨fromPeerId, toPeerId, data, rfl, habsent⟩⟩ :=
      lost_of_advances hadvance hk'
    · cases hat with
      | forEach hb => cases hb <;> exact ⟨_, hcalled, rfl⟩
    · have hfound := hfinds fromPeerId toPeerId data rfl
      rw [habsent] at hfound
      cases hfound
  · intro k' target hcall
    by_cases hk : k' = k
    · subst hk
      obtain ⟨fromPeerId, data, rfl, htasks⟩ := sendForward_of_advances hadvance hcall
      obtain ⟨handler, hfound⟩ := Option.isSome_iff_exists.mp (hfinds _ _ _ rfl)
      rw [htasks, AppState.sendForward_of_found hfound]
      simp
    · have hbefore : s.calls k' = some (.incrementForwarded target) := by
        rcases hadvance.calls_of_ne hk with heq | ⟨peerId, heq⟩
        · rwa [heq] at hcall
        · rw [heq, Option.map_eq_some_iff] at hcall
          obtain ⟨pc', hpc', hforget⟩ := hcall
          rwa [forget_eq_incrementForwarded hforget] at hpc'
      obtain ⟨task, hmem, hcaller⟩ := h.waiting k' target hbefore
      refine ⟨task, ?_, hcaller⟩
      cases hat.spawns hadvance with
      | none htasks => rwa [htasks]
      | one _ _ _ _ _ htasks =>
          rw [htasks]
          exact List.mem_append_left _ hmem

/-- A send task that runs is not the one that a unicast still to count waits for. -/
theorem NoneLost.waiting_eraseIdx (h : NoneLost s tr) {i : Nat} {task : SendTask PeerID κ}
    (htask : s.tasks[i]? = some task)
    (hcounted : task.caller ∈ unicasts tr →
      ∀ target, s.calls task.caller ≠ some (.incrementForwarded target))
    (k : κ) (target : PeerID) (hcall : s.calls k = some (.incrementForwarded target)) :
    ∃ task' ∈ s.tasks.eraseIdx i, task'.caller = k := by
  obtain ⟨task', hmem, rfl⟩ := h.waiting k target hcall
  refine ⟨task', mem_eraseIdx_of_ne htask hmem ?_, rfl⟩
  rintro rfl
  obtain ⟨call, hcalled, hat⟩ := h.traced.at_pc _ _ hcall
  cases hat
  exact hcounted (mem_unicasts.mpr ⟨_, hcalled, rfl⟩) target hcall

theorem NoneLost.call (h : NoneLost s tr) (hfresh : s.calls k = none) (call : Call PeerID) :
    NoneLost (s.setCall k call.start) (tr ++ [.called k call]) := by
  refine ⟨h.traced.call hfresh call, h.lost_append (by simp [lostFor]), ?_⟩
  intro k' target hcall
  by_cases hk : k' = k
  · subst hk
    cases call with
    | handleForward _ _ toPeerId => cases toPeerId <;> simp [Call.start] at hcall
    | addPeer | removePeer | broadcastForwardExcept => simp [Call.start] at hcall
  · rw [AppState.setCall_calls_of_ne _ hk] at hcall
    exact h.waiting k' target hcall

theorem NoneLost.frame (h : NoneLost s tr) (hcalls : s'.calls = s.calls)
    (htasks : s'.tasks = s.tasks) (hes : ∀ k call, .called k call ∉ es)
    (hspawned : ∀ task, .spawned task ∉ es) (henqueued : ∀ task, .enqueued task ∉ es)
    (hlost : ∀ target, lostFor target es = []) : NoneLost s' (tr ++ es) := by
  refine ⟨?_, h.lost_append (by simp [hlost]), ?_⟩
  · exact h.traced.frame hcalls (by simp [htasks]) hes hspawned (by simp [henqueued])
  · rw [hcalls, htasks]
    exact h.waiting

theorem NoneLost.enqueue (h : NoneLost s tr) {i : Nat} {task : SendTask PeerID κ}
    (htask : s.tasks[i]? = some task) (hok : s.Delivers tr task) :
    NoneLost (s.enqueue i task) (tr ++ [.enqueued task]) := by
  refine ⟨?_, h.lost_append (by simp [lostFor]), ?_⟩
  · exact h.traced.frame rfl (fun _ ht => List.mem_of_mem_eraseIdx ht) (by simp) (by simp)
      (by simpa using List.mem_of_getElem? htask)
  · exact h.waiting_eraseIdx htask fun hunicast => (hok hunicast).2

theorem NoneLost.drop (h : NoneLost s tr) {i : Nat} {task : SendTask PeerID κ}
    (htask : s.tasks[i]? = some task) (hclosed : (s.channels task.handler).closed = true)
    (hok : s.Delivers tr task) :
    NoneLost { s with tasks := s.tasks.eraseIdx i } (tr ++ [.dropped task]) := by
  have hnot : task.caller ∉ unicasts tr := by
    intro hunicast
    rw [(hok hunicast).1] at hclosed
    cases hclosed
  refine ⟨?_, h.lost_append ?_, ?_⟩
  · exact h.traced.frame rfl (fun _ ht => List.mem_of_mem_eraseIdx ht) (by simp) (by simp)
      (by simp)
  · intro target k hk
    obtain rfl : task.caller = k := by
      by_cases htarget : task.handler.peerId = target
      · simpa [lostFor, SendTask.callerFor, htarget, eq_comm] using hk
      · simp [lostFor, SendTask.callerFor, htarget] at hk
    have hspawned := h.traced.tasks task (List.mem_of_getElem? htask)
    obtain ⟨call, hcalled, -⟩ := h.traced.spawned task hspawned
    rw [mem_unicasts_of_called h.traced hcalled] at hnot
    exact ⟨call, hcalled, by simpa using hnot⟩
  · exact h.waiting_eraseIdx htask fun hunicast => absurd hunicast hnot

end Runs

/-! ## Every run of the server -/

section Server

variable {PeerID : Type} [DecidableEq PeerID] {fromStr : String → Option (PeerRequest PeerID)}
  {s s' : ServerState PeerID} {tr es : List (ServerEvent PeerID)} {l : ServerAction PeerID}

theorem NoneLost.serverStep (h : NoneLost s.app (appEvents tr)) (hok : Forwards s tr l)
    (hsteps : ServerSteps s s' l es) : NoneLost s'.app (appEvents (tr ++ es)) := by
  have happend : appEvents (tr ++ es) = appEvents tr ++ appEvents es := List.filterMap_append
  rw [happend]
  cases hsteps with
  | drop htask hclosed happ =>
      rw [happ]
      exact h.drop htask hclosed (hok _ htask)
  | enqueue htask _ happ =>
      rw [happ]
      exact h.enqueue htask (hok _ htask)
  | @conn g _ _ hconn =>
      cases hconn with
      | @start _ n call conn' frames _ hstarts hfresh happ =>
          have hframes : appEvents (frames ++ [.app (.called (g, n) call)]) =
              [.called (g, n) call] := by
            generalize s.conns g = conn at hstarts
            cases hstarts <;> rfl
          rw [hframes, happ]
          exact h.call hfresh call
      | @advance choice n pc aes hcurrent hpc hadvance =>
          have hevents : appEvents (aes.map .app) = aes := filterMap_map_app aes
          rw [hevents]
          refine h.advance hpc ?_ hadvance
          rintro fromPeerId toPeerId data rfl
          exact hok n fromPeerId toPeerId data hcurrent hpc
      | resume _ happ =>
          rw [happ]
          exact h.frame rfl rfl (by simp [appEvents]) (by simp [appEvents]) (by simp [appEvents])
            fun _ => rfl
      | finish _ happ =>
          rw [happ]
          exact h.frame rfl rfl (by simp [appEvents]) (by simp [appEvents]) (by simp [appEvents])
            fun _ => rfl
      | loop _ _ _ _ happ _ hes =>
          have hnone : appEvents es = [] := by
            refine List.filterMap_eq_nil_iff.mpr fun e he => ?_
            rcases hes e he with ⟨_, rfl⟩ | ⟨_, rfl⟩ <;> rfl
          rw [happ, hnone, List.append_nil]
          exact h
      | recv _ _ happ =>
          rw [happ]
          refine h.frame rfl rfl ?_ ?_ ?_ fun _ => rfl
          all_goals simp [appEvents, ServerEvent.app?]

/-- Along every run the counters are those of what was enqueued exactly as long as the
unicasts lost are those still to count, and they are if no step loses a unicast. -/
theorem always_countersAgree (fromStr : String → Option (PeerRequest PeerID))
    (ls : List (ServerAction PeerID)) :
    ((server fromStr).Always (fun s tr => s.app.CountersAgree (appEvents tr)) ls ↔
        (server fromStr).Always (fun s tr => s.app.LossesUncounted (appEvents tr)) ls) ∧
      ((server fromStr).StepsMeetAfter Forwards ls →
        (server fromStr).Always (fun s tr => s.app.CountersAgree (appEvents tr)) ls) := by
  have hpoint : ∀ {ls s tr}, (server fromStr).Run ls s tr →
      (s.app.CountersAgree (appEvents tr) ↔ s.app.LossesUncounted (appEvents tr)) := by
    intro ls s tr hrun
    obtain ⟨as, happ⟩ := server_refines_appState hrun
    exact countersAgree_iff happ
  have hiff : (server fromStr).Always (fun s tr => s.app.CountersAgree (appEvents tr)) ls ↔
      (server fromStr).Always (fun s tr => s.app.LossesUncounted (appEvents tr)) ls :=
    ⟨fun hagree pre hpre s tr hrun => (hpoint hrun).mp (hagree pre hpre s tr hrun),
      fun hlosses pre hpre s tr hrun => (hpoint hrun).mpr (hlosses pre hpre s tr hrun)⟩
  refine ⟨hiff, fun hok => hiff.mpr ?_⟩
  have hinit : NoneLost (AppState.init : AppState PeerID (CallId PeerID)) [] := by
    refine ⟨traced_of_run .nil, fun _ k hk => ?_, fun k target hcall => ?_⟩
    · cases hk
    · cases hcall
  have hkeep : ∀ (s : ServerState PeerID) tr l s' es, NoneLost s.app (appEvents tr) →
      Forwards s tr l → (server fromStr).step s l = some (s', es) →
      NoneLost s'.app (appEvents (tr ++ es)) :=
    fun _ _ _ _ _ hinv hok hstep => hinv.serverStep hok (serverSteps_of_step hstep)
  exact Machine.always_of_stepsMeetAfter hinit hkeep (fun _ _ hinv => hinv.lossesUncounted) hok

/-- Peer `01` joins and sends an offer to the unregistered id `02`. -/
def offerRun (h : PeerHandler PeerId.PeerID) : List (ServerAction PeerId.PeerID) :=
  [.accept h, .advance h .go, .advance h .go, .advance h .go,
    .advance h (.random (some (.ofByte 9))), .advance h .go, .advance h (.visit h.peerId),
    .advance h .stop, .advance h .go, .advance h .go, .resume h, .runTask 0,
    .inbound h (some (.text offerText)), .advance h .go, .advance h .go]

/-- A unicast to an id that is not registered is counted as forwarded. -/
theorem not_countersAgree_unknown :
    ¬ ∀ (fromStr : String → Option (PeerRequest PeerId.PeerID)) ls,
      (server fromStr).Always (fun s tr => s.app.CountersAgree (appEvents tr)) ls := by
  intro hall
  let h : PeerHandler PeerId.PeerID := ⟨.ofByte 1, 1, 32⟩
  have hexec : ((server parseOffer).exec (offerRun h)).map (fun r =>
      (r.1.app.tasks, r.1.app.messageForwarded (.ofByte 2),
        unicastsIn (appEvents r.2) (sentFor (.ofByte 2) (appEvents r.2)))) =
          some ([], 1, 0) := by decide +kernel
  obtain ⟨⟨s, tr⟩, hexec, hproj⟩ := Option.map_eq_some_iff.mp hexec
  simp only [Prod.mk.injEq] at hproj
  obtain ⟨htasks, hforwarded, hsent⟩ := hproj
  have hagree := hall _ _ _ List.prefix_rfl s tr (Machine.run_of_exec hexec) htasks (.ofByte 2)
  rw [hforwarded, hsent] at hagree
  cases hagree.2

end Server

end SfRs.Server
