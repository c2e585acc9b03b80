import Mathlib.Algebra.Order.Group.Multiset
import Mathlib.Tactic.Abel
import SfRs.Lib.Ledger
import SfRs.PeerId.Basic
import SfRs.Server.AppState
/-!
# Routing neither loses, duplicates nor misdelivers

The ledger of a run lists, for each handler, the requests that the unicasts and
broadcasts of the run owe it.  `Routed` is the invariant: what was enqueued in the
handler's channel, what pending tasks hold for it and what tasks dropped because its
receiver was gone are together exactly the ledger.
-/

set_option linter.unusedSectionVars false

namespace SfRs.Server

open SfRs.Lib SfRs.Protocol AppState

variable {PeerID κ : Type} [DecidableEq PeerID] [DecidableEq κ]

/-! ## The ledger -/

def SendTask.requestFor (task : SendTask PeerID κ) (h : PeerHandler PeerID) :
    Option (PeerRequest PeerID) :=
  if task.handler = h then some task.payload else none

/-- The requests ever enqueued in the channel of `h`. -/
def enqueued (tr : List (Event PeerID κ)) (h : PeerHandler PeerID) :
    List (PeerRequest PeerID) :=
  tr.filterMap fun
    | .enqueued task => task.requestFor h
    | _ => none

def received (tr : List (Event PeerID κ)) (h : PeerHandler PeerID) :
    List (PeerRequest PeerID) :=
  tr.filterMap fun
    | .received handler request => if handler = h then some request else none
    | _ => none

/-- What the channel of `h` was given: what its receiver took and what is queued. -/
def held (s : AppState PeerID κ) (tr : List (Event PeerID κ)) (h : PeerHandler PeerID) :
    List (PeerRequest PeerID) :=
  received tr h ++ (s.channels h).queue

/-- The requests for `h` that tasks dropped. -/
def dropped (tr : List (Event PeerID κ)) (h : PeerHandler PeerID) :
    List (PeerRequest PeerID) :=
  tr.filterMap fun
    | .dropped task => task.requestFor h
    | _ => none

/-- The requests that tasks hold for `h`. -/
def pending (tasks : List (SendTask PeerID κ)) (h : PeerHandler PeerID) :
    List (PeerRequest PeerID) :=
  tasks.filterMap (·.requestFor h)

/-- The request that an event makes due to `h`: a unicast to the id of `h` whose lookup
found `h`, or a broadcast that collected the id of `h`, does not exclude it and whose
lookup of it found `h`. -/
def owed (tr : List (Event PeerID κ)) (h : PeerHandler PeerID) :
    Event PeerID κ → Option (PeerRequest PeerID)
  | .called k (.handleForward fromPeerId _ (some target) data) =>
      if target = h.peerId ∧ .lookup k h.peerId (some h) ∈ tr then
        some (.forward fromPeerId (some h.peerId) data)
      else none
  | .snapshot k b ids =>
      if h.peerId ∈ ids ∧ b.exclude ≠ some h.peerId ∧ .lookup k h.peerId (some h) ∈ tr then
        some (.forward b.fromPeerId (some h.peerId) b.data)
      else none
  | _ => none

/-- One request for each unicast and each broadcast of the run that reached `h`. -/
def deliveries (tr : List (Event PeerID κ)) (h : PeerHandler PeerID) :
    List (PeerRequest PeerID) :=
  tr.filterMap (owed tr h)

/-- The call whose deliveries an event decides. -/
def Event.origin : Event PeerID κ → Option κ
  | .called k (.handleForward _ _ (some _) _) => some k
  | .snapshot k _ _ => some k
  | _ => none

theorem origin_of_owed {tr : List (Event PeerID κ)} {h : PeerHandler PeerID}
    {e : Event PeerID κ} {k : κ} (he : e.origin ≠ some k) (peerId : PeerID) (found t) :
    owed (tr ++ [.lookup k peerId found, .spawned t]) h e = owed tr h e := by
  unfold owed
  split
  case h_1 k' _ _ _ _ =>
      have hne : k' ≠ k := fun heq => he (by rw [heq]; rfl)
      simp [hne]
  case h_2 k' _ _ =>
      have hne : k' ≠ k := fun heq => he (by rw [heq]; rfl)
      simp [hne]
  case h_3 => rfl

/-- Events without a lookup that finds `h` make nothing due. -/
theorem owed_append {tr es : List (Event PeerID κ)} {h : PeerHandler PeerID}
    (hes : ∀ k peerId, .lookup k peerId (some h) ∉ es) : owed (tr ++ es) h = owed tr h := by
  funext e
  unfold owed
  split <;> simp [hes]

theorem deliveries_append {tr es : List (Event PeerID κ)} {h : PeerHandler PeerID}
    (hes : ∀ k peerId, .lookup k peerId (some h) ∉ es)
    (hnone : ∀ e ∈ es, owed tr h e = none) : deliveries (tr ++ es) h = deliveries tr h := by
  have htail : es.filterMap (owed tr h) = [] := List.filterMap_eq_nil_iff.mpr hnone
  rw [deliveries, owed_append hes, List.filterMap_append, htail, List.append_nil, deliveries]

/-- The lookup of `k` finds `h`: the one event that decides the deliveries of `k` now
owes `h` one request more. -/
theorem deliveries_lookup {tr : List (Event PeerID κ)} {h : PeerHandler PeerID} {k : κ}
    {a : Event PeerID κ} {request : PeerRequest PeerID} {t : SendTask PeerID κ}
    (hone : tr.countP (·.origin = some k) ≤ 1) (ha : a ∈ tr) (horigin : a.origin = some k)
    (hbefore : owed tr h a = none)
    (hafter : owed (tr ++ [.lookup k h.peerId (some h), .spawned t]) h a = some request) :
    (deliveries (tr ++ [.lookup k h.peerId (some h), .spawned t]) h).Perm
      (request :: deliveries tr h) := by
  have hperm := filterMap_perm_of_unique hone ha (by simpa using horigin) hbefore hafter
    fun x _ hx => (origin_of_owed (by simpa using hx) _ _ _).symm
  have htail : List.filterMap (owed (tr ++ [.lookup k h.peerId (some h), .spawned t]) h)
      [.lookup k h.peerId (some h), .spawned t] = [] := rfl
  rwa [deliveries, List.filterMap_append, htail, List.append_nil]

/-! ## What the run says about each call -/

def NoLookup (tr : List (Event PeerID κ)) (k : κ) : Prop :=
  ∀ peerId found, .lookup k peerId found ∉ tr

/-- Where a call is and what the run shows of it: a call decides its deliveries by at
most one event, and it looks a peer up at most once. -/
def CallInv (tr : List (Event PeerID κ)) (k : κ) : Option (Pc PeerID) → Prop
  | some (.sendForward fromPeerId toPeerId data) =>
      tr.countP (·.origin = some k) ≤ 1 ∧ NoLookup tr k ∧ ∃ connectionPeerId,
        .called k (.handleForward fromPeerId connectionPeerId (some toPeerId) data) ∈ tr
  | some (.collect _ _ seen) =>
      tr.countP (·.origin = some k) = 0 ∧ NoLookup tr k ∧ seen.Nodup
  | some (.forEach b ids) =>
      tr.countP (·.origin = some k) ≤ 1 ∧ ∃ done, .snapshot k b (done ++ ids) ∈ tr ∧
        (done ++ ids).Nodup ∧ ∀ peerId found, .lookup k peerId found ∈ tr → peerId ∈ done
  | some (.incrementForwarded _) | some .returned | some (.failed _) =>
      tr.countP (·.origin = some k) ≤ 1
  | _ => tr.countP (·.origin = some k) = 0 ∧ NoLookup tr k

/-- The event is part of what the run shows of the call `k`. -/
def Event.IsOf (k : κ) : Event PeerID κ → Prop
  | .called k' _ | .snapshot k' _ _ | .lookup k' _ _ => k' = k
  | _ => False

theorem countP_append_of_not_isOf {tr es : List (Event PeerID κ)} {k : κ}
    (hes : ∀ e ∈ es, ¬ e.IsOf k) :
    (tr ++ es).countP (·.origin = some k) = tr.countP (·.origin = some k) := by
  have hzero : es.countP (·.origin = some k) = 0 := by
    rw [List.countP_eq_zero]
    intro e he horigin
    refine hes e he ?_
    simp only [Event.origin] at horigin
    split at horigin
    case h_1 | h_2 => simpa [Event.IsOf] using horigin
    case h_3 => simp at horigin
  rw [List.countP_append, hzero, Nat.add_zero]

theorem NoLookup.append {tr es : List (Event PeerID κ)} {k : κ} (h : NoLookup tr k)
    (hes : ∀ e ∈ es, ¬ e.IsOf k) : NoLookup (tr ++ es) k := by
  intro peerId found hmem
  rcases List.mem_append.mp hmem with hmem | hmem
  · exact h peerId found hmem
  · exact hes _ hmem rfl

/-- The steps of other calls leave what is known of a call. -/
theorem CallInv.append {tr es : List (Event PeerID κ)} {k : κ} {pc : Option (Pc PeerID)}
    (h : CallInv tr k pc) (hes : ∀ e ∈ es, ¬ e.IsOf k) : CallInv (tr ++ es) k pc := by
  unfold CallInv at h ⊢
  rw [countP_append_of_not_isOf hes]
  split at h
  case h_1 =>
      obtain ⟨hone, hno, c, hcalled⟩ := h
      exact ⟨hone, hno.append hes, c, List.mem_append_left _ hcalled⟩
  case h_2 =>
      obtain ⟨hzero, hno, hnodup⟩ := h
      exact ⟨hzero, hno.append hes, hnodup⟩
  case h_3 =>
      obtain ⟨hone, done, hsnapshot, hnodup, hlookup⟩ := h
      refine ⟨hone, done, List.mem_append_left _ hsnapshot, hnodup, fun p f hmem => ?_⟩
      rcases List.mem_append.mp hmem with hmem | hmem
      · exact hlookup p f hmem
      · exact absurd rfl (hes _ hmem)
  case h_4 | h_5 | h_6 => exact h
  case h_7 => exact ⟨h.1, h.2.append hes⟩

theorem CallInv.forget {tr : List (Event PeerID κ)} {k : κ} {pc : Option (Pc PeerID)}
    (h : CallInv tr k pc) (peerId : PeerID) : CallInv tr k (pc.map (Pc.forget peerId)) := by
  cases pc with
  | none => exact h
  | some pc => cases pc <;> exact h

theorem CallInv.start {tr : List (Event PeerID κ)} {k : κ} (h : CallInv tr k none)
    (call : Call PeerID) : CallInv (tr ++ [.called k call]) k (some call.start) := by
  obtain ⟨hzero, hno⟩ := h
  have hno' : NoLookup (tr ++ [.called k call]) k := by
    intro peerId found hmem
    rcases List.mem_append.mp hmem with hmem | hmem
    · exact hno peerId found hmem
    · simp at hmem
  cases call with
  | addPeer | removePeer | broadcastForwardExcept =>
      exact ⟨by simpa [List.countP_append, Event.origin] using hzero, hno'⟩
  | handleForward fromPeerId connectionPeerId toPeerId data =>
      cases toPeerId with
      | none => exact ⟨by simpa [List.countP_append, Event.origin] using hzero, hno'⟩
      | some target =>
          refine ⟨?_, hno', connectionPeerId, by simp⟩
          rw [List.countP_append, hzero]
          simp [Event.origin]

theorem CallInv.quiet {tr : List (Event PeerID κ)} {k : κ} {pc pc' : Pc PeerID}
    (h : CallInv tr k (some pc)) (hquiet : Quiet pc pc') : CallInv tr k (some pc') := by
  cases hquiet with
  | found | unnamed | decremented => exact h.1.le.trans (Nat.zero_le 1)
  | incremented | named | forwarded => exact h
  | visited b due seen id hnew =>
      obtain ⟨hzero, hno, hnodup⟩ := h
      refine ⟨hzero, hno, ?_⟩
      rw [List.nodup_append]
      refine ⟨hnodup, List.nodup_singleton id, fun x hx y hy => ?_⟩
      obtain rfl := List.mem_singleton.mp hy
      exact fun heq => hnew (heq ▸ hx)
  | swept b => exact h.1
  | skipped b pid ids =>
      obtain ⟨hone, done, hsnapshot, hnodup, hlookup⟩ := h
      refine ⟨hone, done ++ [pid], by simpa using hsnapshot, by simpa using hnodup, ?_⟩
      exact fun p f hmem => List.mem_append_left _ (hlookup p f hmem)

/-! ## One step -/

/-- For every handler the ledger is settled by its channel, by pending tasks and by
dropped requests. -/
def Balanced (tasks : List (SendTask PeerID κ)) (tr : List (Event PeerID κ)) : Prop :=
  ∀ h, (enqueued tr h + pending tasks h + dropped tr h : Multiset (PeerRequest PeerID)) =
    deliveries tr h

structure Routed (s : AppState PeerID κ) (tr : List (Event PeerID κ)) : Prop where
  entries : ∀ id handler, s.peers.lookup id = some handler → handler.peerId = id
  calls : ∀ k, CallInv tr k (s.calls k)
  balanced : Balanced s.tasks tr

/-- The event moves no request. -/
def Event.MovesNothing : Event PeerID κ → Prop
  | .enqueued _ | .dropped _ | .lookup _ _ (some _) => False
  | _ => True

theorem enqueued_append (tr es : List (Event PeerID κ)) (h : PeerHandler PeerID) :
    enqueued (tr ++ es) h = enqueued tr h ++ enqueued es h := by
  simp [enqueued, List.filterMap_append]

theorem dropped_append (tr es : List (Event PeerID κ)) (h : PeerHandler PeerID) :
    dropped (tr ++ es) h = dropped tr h ++ dropped es h := by
  simp [dropped, List.filterMap_append]

theorem Balanced.append {tasks : List (SendTask PeerID κ)} {tr es : List (Event PeerID κ)}
    (hbalanced : Balanced tasks tr) (hes : ∀ e ∈ es, e.MovesNothing)
    (hnone : ∀ h, ∀ e ∈ es, owed tr h e = none) : Balanced tasks (tr ++ es) := by
  intro h
  have henqueued : enqueued es h = [] := by
    refine List.filterMap_eq_nil_iff.mpr fun e he => ?_
    cases e with
    | enqueued task => exact (hes _ he).elim
    | _ => rfl
  have hdropped : dropped es h = [] := by
    refine List.filterMap_eq_nil_iff.mpr fun e he => ?_
    cases e with
    | dropped task => exact (hes _ he).elim
    | _ => rfl
  have hdeliveries : deliveries (tr ++ es) h = deliveries tr h :=
    deliveries_append (fun k id hmem => hes _ hmem) (hnone h)
  rw [enqueued_append, dropped_append, henqueued, hdropped, hdeliveries]
  simpa using hbalanced h

theorem pending_eraseIdx {tasks : List (SendTask PeerID κ)} {i : Nat}
    {task : SendTask PeerID κ} (htask : tasks[i]? = some task) (h : PeerHandler PeerID) :
    (pending tasks h : Multiset (PeerRequest PeerID)) =
      (task.requestFor h).toList + pending (tasks.eraseIdx i) h := by
  rw [Multiset.coe_add, Multiset.coe_eq_coe]
  exact filterMap_perm_eraseIdx htask

/-- A task that runs moves its request to the channel. -/
theorem Balanced.enqueue {tasks : List (SendTask PeerID κ)} {tr : List (Event PeerID κ)}
    {i : Nat} {task : SendTask PeerID κ} (hbalanced : Balanced tasks tr)
    (htask : tasks[i]? = some task) :
    Balanced (tasks.eraseIdx i) (tr ++ [.enqueued task]) := by
  intro h
  have henqueued : enqueued [.enqueued task] h = (task.requestFor h).toList := by
    cases hreq : task.requestFor h <;> simp [enqueued, hreq]
  have hdropped : dropped [(.enqueued task : Event PeerID κ)] h = [] := rfl
  have hdeliveries : deliveries (tr ++ [.enqueued task]) h = deliveries tr h :=
    deliveries_append (by simp) (by simp [owed])
  rw [hdeliveries, ← hbalanced h, pending_eraseIdx htask, enqueued_append, dropped_append,
    henqueued, hdropped, List.append_nil, ← Multiset.coe_add]
  abel

theorem Balanced.drop {tasks : List (SendTask PeerID κ)} {tr : List (Event PeerID κ)}
    {i : Nat} {task : SendTask PeerID κ} (hbalanced : Balanced tasks tr)
    (htask : tasks[i]? = some task) :
    Balanced (tasks.eraseIdx i) (tr ++ [.dropped task]) := by
  intro h
  have henqueued : enqueued [(.dropped task : Event PeerID κ)] h = [] := rfl
  have hdropped : dropped [.dropped task] h = (task.requestFor h).toList := by
    cases hreq : task.requestFor h <;> simp [dropped, hreq]
  have hdeliveries : deliveries (tr ++ [.dropped task]) h = deliveries tr h :=
    deliveries_append (by simp) (by simp [owed])
  rw [hdeliveries, ← hbalanced h, pending_eraseIdx htask, enqueued_append, dropped_append,
    henqueued, hdropped, List.append_nil, ← Multiset.coe_add]
  abel

/-- A lookup that finds `handler` adds its request to the pending ones and to what is
owed to `handler`. -/
theorem Balanced.spawn {tasks : List (SendTask PeerID κ)} {tr : List (Event PeerID κ)}
    {a : Event PeerID κ} {task : SendTask PeerID κ}
    (hbalanced : Balanced tasks tr)
    (hone : tr.countP (·.origin = some task.caller) ≤ 1) (ha : a ∈ tr)
    (horigin : a.origin = some task.caller)
    (hbefore : owed tr task.handler a = none)
    (hafter : owed (tr ++ [.lookup task.caller task.handler.peerId (some task.handler),
      .spawned task]) task.handler a = some task.payload) :
    Balanced (tasks ++ [task])
      (tr ++ [.lookup task.caller task.handler.peerId (some task.handler),
        .spawned task]) := by
  intro h
  have henqueued : enqueued [.lookup task.caller task.handler.peerId (some task.handler),
      .spawned task] h = [] := rfl
  have hdropped : dropped [.lookup task.caller task.handler.peerId (some task.handler),
      .spawned task] h = [] := rfl
  have hpending : pending (tasks ++ [task]) h =
      pending tasks h ++ (task.requestFor h).toList := by
    cases hreq : task.requestFor h <;> simp [pending, List.filterMap_append, hreq]
  rw [enqueued_append, dropped_append, henqueued, hdropped, hpending, List.append_nil,
    List.append_nil, ← Multiset.coe_add]
  by_cases hh : task.handler = h
  · subst hh
    have hperm := deliveries_lookup hone ha horigin hbefore hafter
    have hrequest : task.requestFor task.handler = some task.payload := by
      simp [SendTask.requestFor]
    rw [Multiset.coe_eq_coe.mpr hperm, ← Multiset.cons_coe, ← hbalanced task.handler,
      ← Multiset.singleton_add, hrequest, Option.toList_some, Multiset.coe_singleton]
    abel
  · have hdeliveries : deliveries (tr ++ [.lookup task.caller task.handler.peerId
        (some task.handler), .spawned task]) h = deliveries tr h :=
      deliveries_append (by simp [Ne.symm hh]) (by simp [owed])
    rw [hdeliveries, ← hbalanced h]
    simp [SendTask.requestFor, hh]

theorem Routed.setCall {s' : AppState PeerID κ} {tr es : List (Event PeerID κ)} {k : κ}
    {pc : Pc PeerID} (hentries : ∀ id handler, s'.peers.lookup id = some handler →
      handler.peerId = id)
    (hothers : ∀ k', k' ≠ k → CallInv tr k' (s'.calls k'))
    (hes : ∀ k', k' ≠ k → ∀ e ∈ es, ¬ e.IsOf k') (hcall : CallInv (tr ++ es) k (some pc))
    (hbalanced : Balanced s'.tasks (tr ++ es)) : Routed (s'.setCall k pc) (tr ++ es) := by
  refine ⟨hentries, fun k' => ?_, hbalanced⟩
  by_cases hk : k' = k
  · subst hk
    simpa using hcall
  · rw [setCall_calls_of_ne _ hk]
    exact (hothers k' hk).append (hes k' hk)

/-- The call `k` looks up `peerId`.  The event `a` of `k` owes nothing to the entry before
the lookup, and owes it this request after it. -/
theorem Routed.sendForward {s : AppState PeerID κ} {tr : List (Event PeerID κ)} {k : κ}
    {fromPeerId peerId : PeerID} {data : PeerEvent PeerID} {pc : Pc PeerID}
    {a : Event PeerID κ} (hrouted : Routed s tr)
    (hone : tr.countP (·.origin = some k) ≤ 1) (ha : a ∈ tr) (horigin : a.origin = some k)
    (hbefore : ∀ handler : PeerHandler PeerID, handler.peerId = peerId →
      owed tr handler a = none)
    (hafter : ∀ (handler : PeerHandler PeerID) task, handler.peerId = peerId →
      owed (tr ++ [.lookup k peerId (some handler), .spawned task]) handler a =
        some (.forward fromPeerId (some peerId) data))
    (hnext : ∀ es : List (Event PeerID κ), es.countP (·.origin = some k) = 0 →
      (∀ id found, .lookup k id found ∈ es → id = peerId) → CallInv (tr ++ es) k (some pc)) :
    Routed ((s.sendForward k fromPeerId peerId data).1.setCall k pc)
      (tr ++ (s.sendForward k fromPeerId peerId data).2) := by
  cases hfound : s.peers.lookup peerId with
  | none =>
      rw [sendForward_of_absent hfound]
      refine Routed.setCall hrouted.entries (fun k' _ => hrouted.calls k') ?_ ?_ ?_
      · intro k' hk' e he
        obtain rfl := List.mem_singleton.mp he
        exact Ne.symm hk'
      · exact hnext _ (by simp [Event.origin]) (by simp)
      · exact hrouted.balanced.append (by simp [Event.MovesNothing]) (by simp [owed])
  | some handler =>
      obtain rfl := hrouted.entries peerId handler hfound
      rw [sendForward_of_found hfound]
      refine Routed.setCall hrouted.entries (fun k' _ => hrouted.calls k') ?_ ?_ ?_
      · intro k' hk' e he
        simp only [List.mem_cons, List.not_mem_nil, or_false] at he
        rcases he with rfl | rfl
        · exact Ne.symm hk'
        · exact id
      · exact hnext _ (by simp [Event.origin]) (by simp)
      · exact hrouted.balanced.spawn hone ha horigin (hbefore handler rfl)
          (hafter handler _ rfl)

/-- The loop of a broadcast looks up the next id of its snapshot. -/
theorem Routed.sendEach {s : AppState PeerID κ} {tr : List (Event PeerID κ)} {k : κ}
    {b : Broadcast PeerID} {pid : PeerID} {ids : List PeerID} (hrouted : Routed s tr)
    (hpc : s.calls k = some (.forEach b (pid :: ids))) (hexclude : b.exclude ≠ some pid) :
    Routed ((s.sendForward k b.fromPeerId pid b.data).1.setCall k (.forEach b ids))
      (tr ++ (s.sendForward k b.fromPeerId pid b.data).2) := by
  have hcall := hrouted.calls k
  rw [hpc] at hcall
  obtain ⟨hone, done, hsnapshot, hnodup, hlookup⟩ := hcall
  have hnew : pid ∉ done := by
    rw [List.nodup_append] at hnodup
    exact fun hmem => hnodup.2.2 pid hmem pid List.mem_cons_self rfl
  refine hrouted.sendForward hone hsnapshot rfl (fun handler hid => ?_)
    (fun handler task hid => ?_) (fun es hzero hes => ?_)
  · have hbefore : .lookup k pid (some handler) ∉ tr :=
      fun hmem => hnew (hlookup _ _ hmem)
    simp [owed, hid, hbefore]
  · simp [owed, hid, hexclude]
  · refine ⟨by rw [List.countP_append, hzero]; exact hone, done ++ [pid],
      by simp [hsnapshot], by simpa using hnodup, fun peerId found hmem => ?_⟩
    rcases List.mem_append.mp hmem with hmem | hmem
    · exact List.mem_append_left _ (hlookup peerId found hmem)
    · simp [hes peerId found hmem]

theorem Routed.sendSingle {s : AppState PeerID κ} {tr : List (Event PeerID κ)} {k : κ}
    {fromPeerId toPeerId : PeerID} {data : PeerEvent PeerID} (hrouted : Routed s tr)
    (hpc : s.calls k = some (.sendForward fromPeerId toPeerId data)) :
    Routed ((s.sendForward k fromPeerId toPeerId data).1.setCall k
        (.incrementForwarded toPeerId))
      (tr ++ (s.sendForward k fromPeerId toPeerId data).2) := by
  have hcall := hrouted.calls k
  rw [hpc] at hcall
  obtain ⟨hone, hno, connectionPeerId, hcalled⟩ := hcall
  refine hrouted.sendForward hone hcalled rfl (fun handler hid => ?_)
    (fun handler task hid => ?_) (fun es hzero _ => ?_)
  · simp [owed, hid, hno _ _]
  · simp [owed, hid]
  · show (tr ++ es).countP (·.origin = some k) ≤ 1
    rw [List.countP_append, hzero]
    exact hone

theorem Routed.advance {s s' : AppState PeerID κ} {tr es : List (Event PeerID κ)} {k : κ}
    {pc : Pc PeerID} (hrouted : Routed s tr) (hpc : s.calls k = some pc)
    (hadvance : Advances s k pc s' es) : Routed s' (tr ++ es) := by
  have hcall := hrouted.calls k
  rw [hpc] at hcall
  have hothers : ∀ k', k' ≠ k → CallInv tr k' (s.calls k') := fun k' _ => hrouted.calls k'
  cases hadvance with
  | quiet hquiet hsame =>
      refine Routed.setCall ?_ ?_ (by simp) ?_ ?_
      · simpa only [hsame.peers] using hrouted.entries
      · simpa only [hsame.calls] using hothers
      · simpa using hcall.quiet hquiet
      · simpa [hsame.tasks] using hrouted.balanced
  | vacant handler =>
      refine Routed.setCall hrouted.entries hothers (by simp) ?_ ?_
      · rw [List.append_nil]
        exact hcall
      · simpa using hrouted.balanced
  | insert handler =>
      refine Routed.setCall (fun id found hfound => ?_) hothers (by simp [Event.IsOf]) ?_ ?_
      · by_cases hid : id = handler.peerId
        · subst hid
          simp only [AList.lookup_insert, Option.some.injEq] at hfound
          rw [← hfound]
        · rw [AList.lookup_insert_ne hid] at hfound
          exact hrouted.entries id found hfound
      · have hinv : CallInv tr k (some (.incrementPeerCount handler)) := hcall
        exact hinv.append (by simp [Event.IsOf])
      · exact hrouted.balanced.append (by simp [Event.MovesNothing]) (by simp [owed])
  | iter b =>
      refine Routed.setCall hrouted.entries hothers (by simp) ?_ ?_
      · obtain ⟨hzero, hno⟩ := hcall
        simpa using ⟨hzero, hno, List.nodup_nil⟩
      · simpa using hrouted.balanced
  | snapshot b due seen =>
      obtain ⟨hzero, hno, hnodup⟩ := hcall
      refine Routed.setCall hrouted.entries hothers ?_ ?_ ?_
      · intro k' hk' e he
        obtain rfl := List.mem_singleton.mp he
        exact Ne.symm hk'
      · refine ⟨?_, [], by simp, by simpa using hnodup, fun peerId found hmem => ?_⟩
        · rw [List.countP_append, hzero]
          simp [Event.origin]
        · simp [hno peerId found] at hmem
      · refine hrouted.balanced.append (by simp [Event.MovesNothing]) fun h e he => ?_
        obtain rfl := List.mem_singleton.mp he
        simp [owed, hno _ _]
  | sendEach b pid ids hexclude => exact hrouted.sendEach hpc hexclude
  | sendSingle => exact hrouted.sendSingle hpc
  | remove handler peerId hfound =>
      refine Routed.setCall (fun id found hid => ?_) (fun k' _ => ?_)
        (by simp [Event.IsOf]) ?_ ?_
      · by_cases hne : id = peerId
        · subst hne
          simp [removeEntry] at hid
        · rw [removeEntry, AList.lookup_erase_ne hne] at hid
          exact hrouted.entries id found hid
      · exact (hrouted.calls k').forget peerId
      · have hinv : CallInv tr k (some .decrementPeerCount) := hcall
        exact hinv.append (by simp [Event.IsOf])
      · exact hrouted.balanced.append (by simp [Event.MovesNothing]) (by simp [owed])
  | removeAbsent peerId =>
      refine Routed.setCall hrouted.entries hothers (by simp) ?_ ?_
      · simpa [CallInv] using hcall.1.le.trans (Nat.zero_le 1)
      · simpa using hrouted.balanced

theorem Routed.step {s s' : AppState PeerID κ} {tr es : List (Event PeerID κ)}
    {a : Action PeerID κ} (hrouted : Routed s tr) (hstep : s.step a = some (s', es)) :
    Routed s' (tr ++ es) := by
  cases steps_of_step hstep with
  | call k call hfresh =>
      have hcall := hrouted.calls k
      rw [hfresh] at hcall
      refine Routed.setCall hrouted.entries (fun k' _ => hrouted.calls k') ?_
        (hcall.start call) ?_
      · intro k' hk' e he
        obtain rfl := List.mem_singleton.mp he
        exact Ne.symm hk'
      · refine hrouted.balanced.append (by simp [Event.MovesNothing]) fun h e he => ?_
        obtain rfl := List.mem_singleton.mp he
        have hno : ∀ peerId found, .lookup k peerId found ∉ tr := hcall.2
        cases call with
        | handleForward _ _ toPeerId => cases toPeerId <;> simp [owed, hno]
        | addPeer | removePeer | broadcastForwardExcept => rfl
  | advance k choice hpc hadvance => exact hrouted.advance hpc hadvance
  | drop i task htask =>
      refine ⟨hrouted.entries, fun k => ?_, hrouted.balanced.drop htask⟩
      exact (hrouted.calls k).append (by simp [Event.IsOf])
  | enqueue i task htask =>
      refine ⟨hrouted.entries, fun k => ?_, hrouted.balanced.enqueue htask⟩
      exact (hrouted.calls k).append (by simp [Event.IsOf])
  | recv handler channel request =>
      refine ⟨hrouted.entries, fun k => ?_, ?_⟩
      · exact (hrouted.calls k).append (by simp [Event.IsOf])
      · exact hrouted.balanced.append (by simp [Event.MovesNothing]) (by simp [owed])
  | close handler =>
      rw [List.append_nil]
      exact ⟨hrouted.entries, hrouted.calls, hrouted.balanced⟩

theorem routed_init : Routed (AppState.init : AppState PeerID κ) [] := by
  refine ⟨?_, ?_, ?_⟩
  · simp [AppState.init]
  · exact fun k => ⟨rfl, by simp [NoLookup]⟩
  · exact fun h => rfl

theorem routed_of_run {as : List (Action PeerID κ)} {s : AppState PeerID κ}
    {tr : List (Event PeerID κ)} (hrun : (appState PeerID κ).Run as s tr) : Routed s tr :=
  Machine.invariant routed_init (fun _ _ _ _ _ hrouted hstep => hrouted.step hstep) hrun

/-! ## The channels -/

/-- The channel of `h` has what was enqueued in it, as far as it was not closed. -/
structure Filled (s : AppState PeerID κ) (tr : List (Event PeerID κ))
    (h : PeerHandler PeerID) : Prop where
  kept : held s tr h <+: enqueued tr h
  opened : (s.channels h).closed = false → held s tr h = enqueued tr h

/-- The event leaves the channels alone. -/
def Event.LeavesChannels : Event PeerID κ → Prop
  | .enqueued _ | .received _ _ => False
  | _ => True

theorem received_append (tr es : List (Event PeerID κ)) (h : PeerHandler PeerID) :
    received (tr ++ es) h = received tr h ++ received es h := by
  simp [received, List.filterMap_append]

theorem Filled.append {s s' : AppState PeerID κ} {tr es : List (Event PeerID κ)}
    {h : PeerHandler PeerID} (hfilled : Filled s tr h) (hchannels : s'.channels = s.channels)
    (hes : ∀ e ∈ es, e.LeavesChannels) : Filled s' (tr ++ es) h := by
  have hreceived : received es h = [] := by
    refine List.filterMap_eq_nil_iff.mpr fun e he => ?_
    cases e with
    | received => exact (hes _ he).elim
    | _ => rfl
  have henqueued : enqueued es h = [] := by
    refine List.filterMap_eq_nil_iff.mpr fun e he => ?_
    cases e with
    | enqueued => exact (hes _ he).elim
    | _ => rfl
  have hheld : held s' (tr ++ es) h = held s tr h := by
    rw [held, received_append, hreceived, List.append_nil, hchannels, held]
  have henq : enqueued (tr ++ es) h = enqueued tr h := by
    rw [enqueued_append, henqueued, List.append_nil]
  constructor
  · rw [hheld, henq]
    exact hfilled.kept
  · rw [hheld, henq, hchannels]
    exact hfilled.opened

theorem channels_of_advances {s s' : AppState PeerID κ} {k : κ} {pc : Pc PeerID}
    {es : List (Event PeerID κ)} (h : Advances s k pc s' es) :
    s'.channels = s.channels ∧ ∀ e ∈ es, e.LeavesChannels := by
  have hsent : ∀ {fromPeerId toPeerId data},
      ∀ e ∈ (s.sendForward k fromPeerId toPeerId data).2, e.LeavesChannels := by
    intro fromPeerId toPeerId data e he
    rcases sendForward_events he with ⟨found, rfl⟩ | ⟨task, rfl⟩ <;> trivial
  cases h with
  | quiet hquiet hsame => exact ⟨hsame.channels, by simp⟩
  | vacant | iter | removeAbsent => exact ⟨rfl, by simp⟩
  | insert | snapshot | remove => exact ⟨rfl, by simp [Event.LeavesChannels]⟩
  | sendEach | sendSingle => exact ⟨sendForward_channels _ _ _ _ _, hsent⟩

theorem Filled.step {s s' : AppState PeerID κ} {tr es : List (Event PeerID κ)}
    {a : Action PeerID κ} {h : PeerHandler PeerID} (hfilled : Filled s tr h)
    (hstep : s.step a = some (s', es)) : Filled s' (tr ++ es) h := by
  cases steps_of_step hstep with
  | call => exact hfilled.append rfl (by simp [Event.LeavesChannels])
  | advance k choice hpc hadvance =>
      obtain ⟨hchannels, hes⟩ := channels_of_advances hadvance
      exact hfilled.append hchannels hes
  | drop => exact hfilled.append rfl (by simp [Event.LeavesChannels])
  | enqueue i task htask hopen =>
      by_cases hh : task.handler = h
      · subst hh
        have hheld := hfilled.opened hopen
        have hheld' : held (s.enqueue i task) (tr ++ [.enqueued task]) task.handler =
            enqueued (tr ++ [.enqueued task]) task.handler := by
          rw [enqueued_append, ← hheld]
          simp [held, received, enqueued, AppState.enqueue, SendTask.requestFor,
            List.filterMap_append]
        exact ⟨hheld' ▸ List.prefix_rfl, fun _ => hheld'⟩
      · have hheld : held (s.enqueue i task) (tr ++ [.enqueued task]) h = held s tr h := by
          simp [held, received, AppState.enqueue, Ne.symm hh, List.filterMap_append]
        have henqueued : enqueued (tr ++ [.enqueued task]) h = enqueued tr h := by
          simp [enqueued, SendTask.requestFor, hh, List.filterMap_append]
        refine ⟨by rw [hheld, henqueued]; exact hfilled.kept, fun hopen' => ?_⟩
        rw [hheld, henqueued]
        exact hfilled.opened (by simpa [AppState.enqueue, Ne.symm hh] using hopen')
  | recv handler channel request hclosed hqueue =>
      have hheld : held (s.setChannel handler channel) (tr ++ [.received handler request]) h =
          held s tr h := by
        by_cases hh : handler = h
        · subst hh
          simp [held, received, setChannel, hqueue, List.filterMap_append]
        · simp [held, received, setChannel, hh, Ne.symm hh, List.filterMap_append]
      have henqueued : enqueued (tr ++ [.received handler request]) h = enqueued tr h := by
        simp [enqueued, List.filterMap_append]
      refine ⟨by rw [hheld, henqueued]; exact hfilled.kept, fun hopen => ?_⟩
      rw [hheld, henqueued]
      refine hfilled.opened ?_
      by_cases hh : h = handler
      · subst hh
        rw [← hclosed]
        simpa [setChannel] using hopen
      · simpa [setChannel, hh] using hopen
  | close handler =>
      rw [List.append_nil]
      by_cases hh : h = handler
      · subst hh
        -- what is still queued is lost, what was received stays
        have hlost : held (s.setChannel h { queue := [], closed := true }) tr h <+:
            held s tr h := by simp [held, setChannel]
        exact ⟨hlost.trans hfilled.kept, fun hopen => absurd hopen (by simp [setChannel])⟩
      · have hchannel : (s.setChannel handler { queue := [], closed := true }).channels h =
            s.channels h := by simp [setChannel, hh]
        have hheld : held (s.setChannel handler { queue := [], closed := true }) tr h =
            held s tr h := by rw [held, hchannel, held]
        constructor
        · rw [hheld]
          exact hfilled.kept
        · rw [hheld, hchannel]
          exact hfilled.opened

theorem filled_of_run {as : List (Action PeerID κ)} {s : AppState PeerID κ}
    {tr : List (Event PeerID κ)} (hrun : (appState PeerID κ).Run as s tr)
    (h : PeerHandler PeerID) : Filled s tr h := by
  induction hrun with
  | nil => exact ⟨List.prefix_rfl, fun _ => rfl⟩
  | snoc _ hstep ih => exact ih.step hstep

/-! ## Every run -/

theorem to_of_mem_deliveries {tr : List (Event PeerID κ)} {h : PeerHandler PeerID}
    {request : PeerRequest PeerID} (hmem : request ∈ deliveries tr h) :
    ∃ fromPeerId data, request = .forward fromPeerId (some h.peerId) data := by
  obtain ⟨e, -, he⟩ := List.mem_filterMap.mp hmem
  unfold owed at he
  split at he
  case h_1 =>
      split at he
      case isTrue => cases he; exact ⟨_, _, rfl⟩
      case isFalse => cases he
  case h_2 =>
      split at he
      case isTrue => cases he; exact ⟨_, _, rfl⟩
      case isFalse => cases he
  case h_3 => cases he

/-- In every run, for every handler: what its channel got, what pending tasks hold for
it and what tasks dropped for it is exactly what the unicasts and broadcasts of the run
owe it, and all of it is addressed to its id.  What the receiver took and what is still
queued is what the channel got, in order and all of it until the channel is closed.  A
task whose receiver is closed changes no channel, no registration and no other task. -/
theorem run_routes {as : List (Action PeerID κ)} {s : AppState PeerID κ}
    {tr : List (Event PeerID κ)} (hrun : (appState PeerID κ).Run as s tr)
    (h : PeerHandler PeerID) :
    (enqueued tr h + pending s.tasks h + dropped tr h : Multiset (PeerRequest PeerID)) =
        deliveries tr h ∧
      (∀ request ∈ enqueued tr h,
        ∃ fromPeerId data, request = .forward fromPeerId (some h.peerId) data) ∧
      held s tr h <+: enqueued tr h ∧
      ((s.channels h).closed = false → held s tr h = enqueued tr h) ∧
      ∀ i task s' es, s.tasks[i]? = some task → (s.channels task.handler).closed →
        s.step (.runTask i) = some (s', es) →
        s'.channels = s.channels ∧ s'.peers = s.peers ∧ s'.calls = s.calls ∧
          s'.tasks = s.tasks.eraseIdx i ∧ es = [.dropped task] := by
  have hbalanced := (routed_of_run hrun).balanced h
  have hfilled := filled_of_run hrun h
  refine ⟨hbalanced, fun request hmem => ?_, hfilled.kept, hfilled.opened,
    fun i task s' es htask hclosed hstep => ?_⟩
  · have hmem' : request ∈ (deliveries tr h : Multiset (PeerRequest PeerID)) := by
      rw [← hbalanced]
      simp [hmem]
    exact to_of_mem_deliveries (by simpa using hmem')
  · simp only [step, runTask, htask, hclosed, if_true, Option.some.injEq,
      Prod.mk.injEq] at hstep
    obtain ⟨rfl, rfl⟩ := hstep
    exact ⟨rfl, rfl, rfl, rfl, rfl⟩

def first : PeerHandler PeerId.PeerID := ⟨.ofByte 1, 0, 32⟩

def second : PeerHandler PeerId.PeerID := ⟨.ofByte 2, 1, 32⟩

def lastOffer : PeerEvent PeerId.PeerID :=
  .webRtcOffer (.ofByte 2) { sdp := "v=0", sdpType := .offer }

/-- Peer `01` joins under the random id `09`, and peer `02` under `08`.  The receiver of
`02` is dropped before it is told of itself, `02` still sends an offer to `01`, which
overtakes the announcement of `02`, and `01` takes the first of its requests. -/
def joinAndSend : List (Action PeerId.PeerID Nat) :=
  [.call 0 (.addPeer first), .advance 0 .go, .advance 0 .go, .advance 0 .go,
    .advance 0 (.random (some (.ofByte 9))), .advance 0 .go, .advance 0 (.visit (.ofByte 1)),
    .advance 0 .stop, .advance 0 .go, .advance 0 .go,
    .call 1 (.addPeer second), .advance 1 .go, .advance 1 .go, .advance 1 .go,
    .advance 1 (.random (some (.ofByte 8))), .advance 1 .go, .advance 1 (.visit (.ofByte 2)),
    .advance 1 (.visit (.ofByte 1)), .advance 1 .stop, .runTask 0, .advance 1 .go,
    .advance 1 .go, .close second, .runTask 0,
    .call 2 (.handleForward (.ofByte 2) (.ofByte 2) (some (.ofByte 1)) lastOffer),
    .advance 2 .go, .runTask 1, .runTask 0, .recv first]

theorem run_routes_joinAndSend :
    ∃ (s : AppState PeerId.PeerID Nat) (tr : List (Event PeerId.PeerID Nat)),
      held s tr first = [.forward (.ofByte 9) (some (.ofByte 1)) (.newPeer (.ofByte 1)),
        .forward (.ofByte 2) (some (.ofByte 1)) lastOffer,
        .forward (.ofByte 8) (some (.ofByte 1)) (.newPeer (.ofByte 2))] ∧
      received tr first = [.forward (.ofByte 9) (some (.ofByte 1)) (.newPeer (.ofByte 1))] ∧
      dropped tr second = [.forward (.ofByte 8) (some (.ofByte 2)) (.newPeer (.ofByte 2))] ∧
      held s tr first = enqueued tr first ∧
      ∀ h ∈ [first, second], (enqueued tr h + pending s.tasks h + dropped tr h :
        Multiset (PeerRequest PeerId.PeerID)) = deliveries tr h := by
  have hrun : (appState PeerId.PeerID Nat).Run joinAndSend _ _ := Machine.run_of_exec rfl
  exact ⟨_, _, by decide, by decide, by decide, (run_routes hrun first).2.2.2.1 rfl,
    fun h _ => (run_routes hrun h).1⟩

end SfRs.Server
