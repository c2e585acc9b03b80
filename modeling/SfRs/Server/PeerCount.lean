import Mathlib.Data.List.AList
import SfRs.Lib.Ledger
import SfRs.Server.Registration
/-!
# The gauge of connected peers

The gauge is adjusted in steps of its own, after the registry.  `countDue` is what the
calls under way still owe it, and `excess` is what remains of the gauge over the
registry once that is paid.  Only an insert over an entry changes the excess, and no
step takes it back.
-/

set_option linter.unusedSectionVars false

namespace SfRs.Server

open SfRs.Lib SfRs.Protocol

section Shared

variable {PeerID κ : Type} [DecidableEq PeerID] [DecidableEq κ]

/-- What a call at a position still owes to the gauge. -/
def Pc.countDue : Pc PeerID → Int
  | .incrementPeerCount _ => 1
  | .decrementPeerCount => -1
  | _ => 0

/-- The calls that a run has started. -/
def callers (tr : List (Event PeerID κ)) : List κ :=
  tr.filterMap fun
    | .called k _ => some k
    | _ => none

namespace AppState

/-- What the position of a call stands for in the account `f`. -/
def due {M : Type} [AddCommMonoid M] (f : Pc PeerID → M) (s : AppState PeerID κ) (k : κ) : M :=
  ((s.calls k).map f).getD 0

def totalDue {M : Type} [AddCommMonoid M] (f : Pc PeerID → M) (s : AppState PeerID κ)
    (tr : List (Event PeerID κ)) : M :=
  ((callers tr).map (s.due f)).sum

def dueOf (s : AppState PeerID κ) (k : κ) : Int := ((s.calls k).map Pc.countDue).getD 0

def countDue (s : AppState PeerID κ) (tr : List (Event PeerID κ)) : Int :=
  ((callers tr).map s.dueOf).sum

/-- By how much the gauge exceeds the registry, once the calls under way have ended. -/
def excess (s : AppState PeerID κ) (tr : List (Event PeerID κ)) : Int :=
  s.peerCount + s.countDue tr - s.peers.keys.length

/-- The step that a call at a position does next replaces an entry. -/
def overwrites (s : AppState PeerID κ) : Pc PeerID → Int
  | .insert handler => if (s.peers.lookup handler.peerId).isSome then 1 else 0
  | _ => 0

end AppState

theorem countDue_forget (pc : Pc PeerID) (peerId : PeerID) :
    (pc.forget peerId).countDue = pc.countDue := by
  cases pc <;> rfl

theorem countDue_start (call : Call PeerID) : call.start.countDue = 0 := by
  cases call with
  | handleForward _ _ toPeerId => cases toPeerId <;> rfl
  | addPeer | removePeer | broadcastForwardExcept => rfl

theorem callers_append (tr es : List (Event PeerID κ)) :
    callers (tr ++ es) = callers tr ++ callers es := by
  simp [callers, List.filterMap_append]

theorem callers_eq_nil {es : List (Event PeerID κ)} (hes : ∀ k call, .called k call ∉ es) :
    callers es = [] := by
  refine List.filterMap_eq_nil_iff.mpr fun e he => ?_
  cases e with
  | called k call => exact absurd he (hes k call)
  | _ => rfl

theorem mem_callers {tr : List (Event PeerID κ)} {k : κ} :
    k ∈ callers tr ↔ ∃ call, .called k call ∈ tr := by
  simp only [callers, List.mem_filterMap]
  constructor
  · rintro ⟨e, he, heq⟩
    cases e with
    | called k' call =>
        obtain rfl : k' = k := Option.some.inj heq
        exact ⟨call, he⟩
    | _ => cases heq
  · rintro ⟨call, he⟩
    exact ⟨_, he, rfl⟩

theorem nodup_callers_step {s s' : AppState PeerID κ} {tr es : List (Event PeerID κ)}
    {a : Action PeerID κ} (htraced : Traced s tr) (hnodup : (callers tr).Nodup)
    (hstep : s.step a = some (s', es)) : (callers (tr ++ es)).Nodup := by
  have hsame : (∀ k call, .called k call ∉ es) → (callers (tr ++ es)).Nodup := by
    intro hes
    rwa [callers_append, callers_eq_nil hes, List.append_nil]
  cases AppState.steps_of_step hstep with
  | call k call hfresh =>
      rw [callers_append]
      refine List.nodup_append.mpr ⟨hnodup, List.nodup_singleton k, fun k' hk' k₂ hk₂ => ?_⟩
      obtain rfl : k₂ = k := List.mem_singleton.mp hk₂
      obtain ⟨call', hcalled⟩ := mem_callers.mp hk'
      rintro rfl
      exact htraced.fresh k' call' hcalled hfresh
  | advance k choice hpc hadvance => exact hsame hadvance.frame.2.2
  | drop | enqueue | recv | close => exact hsame (by simp)

/-- Every call is started once. -/
theorem nodup_callers_of_run {as : List (Action PeerID κ)} {s : AppState PeerID κ}
    {tr : List (Event PeerID κ)} (hrun : (appState PeerID κ).Run as s tr) :
    (callers tr).Nodup := by
  induction hrun with
  | nil => exact List.nodup_nil
  | snoc hrun hstep ih => exact nodup_callers_step (traced_of_run hrun) ih hstep

/-! ## What the calls owe -/

section Due

variable {M : Type} [AddCommMonoid M] {f : Pc PeerID → M} {s s₁ s' : AppState PeerID κ}
  {tr es : List (Event PeerID κ)} {k : κ} {pc : Pc PeerID}

theorem due_removeEntry (hf : ∀ pc peerId, f (Pc.forget peerId pc) = f pc) (peerId : PeerID)
    (k : κ) : (s.removeEntry peerId).due f k = s.due f k := by
  cases hcall : s.calls k <;> simp [AppState.due, AppState.removeEntry, hcall, hf]

/-- The call `k` moves from `pc` to `pc'`, and what the other calls owe stays. -/
theorem totalDue_setCall (pc' : Pc PeerID) (hnodup : (callers tr).Nodup) (hk : k ∈ callers tr)
    (hpc : s.calls k = some pc) (hes : ∀ k call, .called k call ∉ es)
    (hothers : ∀ k', s₁.due f k' = s.due f k') :
    (s₁.setCall k pc').totalDue f (tr ++ es) + f pc = s.totalDue f tr + f pc' := by
  have hsum := sum_map_of_eq_off (g := (s₁.setCall k pc').due f) (f := s.due f) hnodup hk
    fun k' hk' => by
      rw [← hothers k']
      simp [AppState.due, AppState.setCall_calls_of_ne _ hk']
  have hold : s.due f k = f pc := by simp [AppState.due, hpc]
  have hnew : (s₁.setCall k pc').due f k = f pc' := by simp [AppState.due]
  rw [hold, hnew] at hsum
  rw [AppState.totalDue, callers_append, callers_eq_nil hes, List.append_nil]
  exact hsum

/-- A step that starts no call leaves what the calls owe. -/
theorem totalDue_of_same (hcalls : s'.calls = s.calls) (hes : ∀ k call, .called k call ∉ es) :
    s'.totalDue f (tr ++ es) = s.totalDue f tr := by
  have hdue : s'.due f = s.due f := by
    funext k
    rw [AppState.due, AppState.due, hcalls]
  rw [AppState.totalDue, callers_append, callers_eq_nil hes, List.append_nil, hdue,
    AppState.totalDue]

theorem totalDue_start (hf : ∀ call, f (Call.start call) = 0) (htraced : Traced s tr)
    (hfresh : s.calls k = none) (call : Call PeerID) :
    (s.setCall k call.start).totalDue f (tr ++ [.called k call]) = s.totalDue f tr := by
  have hother : ∀ k' ∈ callers tr, (s.setCall k call.start).due f k' = s.due f k' := by
    intro k' hk'
    have hne : k' ≠ k := by
      rintro rfl
      obtain ⟨call', hcalled⟩ := mem_callers.mp hk'
      exact htraced.fresh k' call' hcalled hfresh
    simp [AppState.due, AppState.setCall_calls_of_ne _ hne]
  have hself : (s.setCall k call.start).due f k = 0 := by
    simp [AppState.due, hf]
  have hcallers : callers [(.called k call : Event PeerID κ)] = [k] := rfl
  rw [AppState.totalDue, callers_append, hcallers, List.map_append, List.sum_append,
    List.map_congr_left hother]
  simp [hself, AppState.totalDue]

theorem totalDue_eq_zero (hdue : ∀ k pc, s.calls k = some pc → f pc = 0) :
    s.totalDue f tr = 0 := by
  refine List.sum_eq_zero fun x hx => ?_
  obtain ⟨k, -, rfl⟩ := List.mem_map.mp hx
  cases hpc : s.calls k with
  | none => simp [AppState.due, hpc]
  | some pc => simp [AppState.due, hpc, hdue k pc hpc]

end Due

/-! ## One step of a call -/

section Advance

variable {s s₁ s' : AppState PeerID κ} {tr es : List (Event PeerID κ)} {k : κ}
  {pc pc' : Pc PeerID}

theorem countDue_eq (s : AppState PeerID κ) (tr : List (Event PeerID κ)) :
    s.countDue tr = s.totalDue Pc.countDue tr := rfl

theorem excess_setCall (hnodup : (callers tr).Nodup) (hk : k ∈ callers tr)
    (hpc : s.calls k = some pc) (s₁ : AppState PeerID κ) (pc' : Pc PeerID)
    (es : List (Event PeerID κ)) (hothers : ∀ k', s₁.due Pc.countDue k' = s.due Pc.countDue k')
    (hes : ∀ k call, .called k call ∉ es) :
    (s₁.setCall k pc').excess (tr ++ es) = s.excess tr +
      (s₁.peerCount - s.peerCount) + (pc'.countDue - pc.countDue) -
      (s₁.peers.keys.length - s.peers.keys.length) := by
  have hdue := totalDue_setCall pc' hnodup hk hpc hes hothers
  have hcount : (s₁.setCall k pc').peerCount = s₁.peerCount := rfl
  rw [AppState.excess, AppState.excess, hcount, AppState.setCall_peers, countDue_eq, countDue_eq]
  omega

/-- A step that leaves the registry and the gauge, between positions that owe the same. -/
theorem excess_quiet (hnodup : (callers tr).Nodup) (hk : k ∈ callers tr)
    (hpc : s.calls k = some pc) (s₁ : AppState PeerID κ) (pc' : Pc PeerID)
    (es : List (Event PeerID κ)) (hzero : s.overwrites pc = 0)
    (hdue : pc'.countDue = pc.countDue) (hcalls : s₁.calls = s.calls)
    (hcount : s₁.peerCount = s.peerCount) (hpeers : s₁.peers = s.peers)
    (hes : ∀ k call, .called k call ∉ es) :
    (s₁.setCall k pc').excess (tr ++ es) = s.excess tr + s.overwrites pc := by
  rw [excess_setCall hnodup hk hpc s₁ pc' es (fun k' => by rw [AppState.due, hcalls]; rfl) hes,
    hcount, hpeers, hzero]
  omega

theorem length_keys_insert (peers : AList fun _ : PeerID => PeerHandler PeerID)
    (handler : PeerHandler PeerID) :
    ((peers.insert handler.peerId handler).keys.length : Int) =
      peers.keys.length + 1 - if (peers.lookup handler.peerId).isSome then 1 else 0 := by
  rw [AList.keys_insert, List.length_cons]
  by_cases hmem : handler.peerId ∈ peers.keys
  · have hsome : (peers.lookup handler.peerId).isSome := AList.lookup_isSome.mpr hmem
    have hpos := List.length_pos_of_mem hmem
    rw [List.length_erase_of_mem hmem, hsome, if_pos rfl]
    omega
  · have hnone : ¬ (peers.lookup handler.peerId).isSome := fun h =>
      hmem (AList.lookup_isSome.mp h)
    rw [List.erase_of_not_mem hmem, if_neg hnone]
    omega

theorem length_keys_erase {peers : AList fun _ : PeerID => PeerHandler PeerID}
    {peerId : PeerID} {handler : PeerHandler PeerID}
    (hfound : peers.lookup peerId = some handler) :
    ((peers.erase peerId).keys.length : Int) = peers.keys.length - 1 := by
  have hmem : peerId ∈ peers.keys := AList.lookup_isSome.mp (by rw [hfound]; rfl)
  have hpos := List.length_pos_of_mem hmem
  rw [AList.keys_erase, List.length_erase_of_mem hmem]
  omega

theorem excess_sendForward (hnodup : (callers tr).Nodup) (hk : k ∈ callers tr)
    (hpc : s.calls k = some pc) (pc' : Pc PeerID) (hzero : s.overwrites pc = 0)
    (hdue : pc'.countDue = pc.countDue) (fromPeerId toPeerId : PeerID)
    (data : PeerEvent PeerID) :
    ((s.sendForward k fromPeerId toPeerId data).1.setCall k pc').excess
        (tr ++ (s.sendForward k fromPeerId toPeerId data).2) =
      s.excess tr + s.overwrites pc := by
  refine excess_quiet hnodup hk hpc _ _ _ hzero hdue (by simp) ?_ (by simp) fun k' call hmem => ?_
  · unfold AppState.sendForward AppState.sendToPeer
    split <;> rfl
  · rcases AppState.sendForward_events hmem with ⟨_, h⟩ | ⟨_, h⟩ <;> cases h

/-- A step of a call changes the excess by the entry it replaces. -/
theorem excess_advance {choice : Choice PeerID} (hnodup : (callers tr).Nodup)
    (hk : k ∈ callers tr) (hpc : s.calls k = some pc)
    (hadvance : s.advance k pc choice = some (s', es)) :
    s'.excess (tr ++ es) = s.excess tr + s.overwrites pc := by
  have hquiet := excess_quiet hnodup hk hpc
  have hchange := excess_setCall hnodup hk hpc
  unfold AppState.advance at hadvance
  split at hadvance
  case h_1 =>
      split at hadvance
      case isTrue => cases hadvance; exact hquiet _ _ _ rfl rfl rfl rfl rfl (by simp)
      case isFalse => cases hadvance; exact hquiet _ _ _ rfl rfl rfl rfl rfl (by simp)
  case h_2 handler =>
      cases hadvance
      have hkeys := length_keys_insert s.peers handler
      have hinsert := hchange { s with peers := s.peers.insert handler.peerId handler }
        (.incrementPeerCount handler) [.inserted k handler] (fun _ => rfl) (by simp)
      simp only [AppState.overwrites, Pc.countDue] at hinsert ⊢
      omega
  case h_3 handler =>
      cases hadvance
      have hcount := hchange { s with peerCount := s.peerCount + 1 } (.randomId handler) []
        (fun _ => rfl) (by simp)
      simp only [AppState.overwrites, Pc.countDue] at hcount ⊢
      omega
  case h_4 | h_5 | h_6 | h_9 | h_12 =>
      cases hadvance
      exact hquiet _ _ _ rfl rfl rfl rfl rfl (by simp)
  case h_7 | h_8 =>
      split at hadvance
      case isTrue => cases hadvance; exact hquiet _ _ _ rfl rfl rfl rfl rfl (by simp)
      case isFalse => cases hadvance
  case h_10 b pid ids =>
      split at hadvance
      case isTrue => cases hadvance; exact hquiet _ _ _ rfl rfl rfl rfl rfl (by simp)
      case isFalse =>
          cases hadvance
          exact excess_sendForward hnodup hk hpc (.forEach b ids) rfl rfl _ _ _
  case h_11 fromPeerId toPeerId data =>
      cases hadvance
      exact excess_sendForward hnodup hk hpc (.incrementForwarded toPeerId) rfl rfl _ _ _
  case h_13 peerId =>
      split at hadvance
      case h_1 handler hfound =>
          cases hadvance
          have hkeys := length_keys_erase hfound
          have hremove := hchange (s.removeEntry peerId) .decrementPeerCount
            [.removed k handler] (due_removeEntry countDue_forget peerId) (by simp)
          have hcount : (s.removeEntry peerId).peerCount = s.peerCount := rfl
          have hpeers : (s.removeEntry peerId).peers = s.peers.erase peerId := rfl
          rw [hcount, hpeers] at hremove
          simp only [AppState.overwrites, Pc.countDue] at hremove ⊢
          omega
      case h_2 => cases hadvance; exact hquiet _ _ _ rfl rfl rfl rfl rfl (by simp)
  case h_14 =>
      cases hadvance
      have hcount := hchange { s with peerCount := s.peerCount - 1 } .returned []
        (fun _ => rfl) (by simp)
      simp only [AppState.overwrites, Pc.countDue] at hcount ⊢
      omega
  case h_15 => cases hadvance

end Advance

/-! ## Settled states -/

/-- The call has neither returned nor failed. -/
def AppState.InProgress (s : AppState PeerID κ) (tr : List (Event PeerID κ)) (k : κ)
    (call : Call PeerID) : Prop :=
  .called k call ∈ tr ∧ s.calls k ≠ some .returned ∧ ∀ e, s.calls k ≠ some (.failed e)

/-- No `add_peer` and no `remove_peer` is in progress. -/
def AppState.Settled (s : AppState PeerID κ) (tr : List (Event PeerID κ)) : Prop :=
  ∀ k, (∀ handler, ¬ s.InProgress tr k (.addPeer handler)) ∧
    ∀ peerId, ¬ s.InProgress tr k (.removePeer peerId)

theorem not_inProgress_of_returned {s : AppState PeerID κ} {tr : List (Event PeerID κ)}
    (hcalls : ∀ pc ∈ (callers tr).map s.calls, pc = some .returned) (k : κ)
    (call : Call PeerID) : ¬ s.InProgress tr k call := by
  rintro ⟨hcalled, hreturned, -⟩
  exact hreturned (hcalls _ (List.mem_map_of_mem (mem_callers.mpr ⟨call, hcalled⟩)))

theorem settled_of_returned {s : AppState PeerID κ} {tr : List (Event PeerID κ)}
    (hcalls : ∀ pc ∈ (callers tr).map s.calls, pc = some .returned) : s.Settled tr := by
  have hended := not_inProgress_of_returned hcalls
  exact fun k => ⟨fun handler => hended k _, fun peerId => hended k _⟩

theorem countDue_of_settled {s : AppState PeerID κ} {tr : List (Event PeerID κ)}
    (htraced : Traced s tr) (hsettled : s.Settled tr) (k : κ) (pc : Pc PeerID)
    (hpc : s.calls k = some pc) : pc.countDue = 0 := by
  obtain ⟨call, hcalled, hat⟩ := htraced.at_pc k pc hpc
  cases hat with
  | incrementPeerCount handler =>
      exact absurd ⟨hcalled, by simp [hpc], by simp [hpc]⟩ ((hsettled k).1 handler)
  | decrementPeerCount peerId =>
      exact absurd ⟨hcalled, by simp [hpc], by simp [hpc]⟩ ((hsettled k).2 peerId)
  | _ => rfl

/-- Nothing is owed to the gauge when no call that adjusts it is in progress. -/
theorem excess_of_settled {s : AppState PeerID κ} {tr : List (Event PeerID κ)}
    (htraced : Traced s tr) (hsettled : s.Settled tr) :
    s.excess tr = s.peerCount - s.peers.keys.length := by
  have hdue : s.countDue tr = 0 := totalDue_eq_zero (countDue_of_settled htraced hsettled)
  rw [AppState.excess, hdue, add_zero]

/-- A step without a call's step leaves the excess. -/
theorem excess_of_same (s s' : AppState PeerID κ) (tr es : List (Event PeerID κ))
    (hcalls : s'.calls = s.calls) (hcount : s'.peerCount = s.peerCount)
    (hpeers : s'.peers = s.peers) (hes : ∀ k call, .called k call ∉ es) :
    s'.excess (tr ++ es) = s.excess tr := by
  rw [AppState.excess, AppState.excess, countDue_eq, countDue_eq, totalDue_of_same hcalls hes,
    hcount, hpeers]

theorem excess_start {s : AppState PeerID κ} {tr : List (Event PeerID κ)}
    (htraced : Traced s tr) {k : κ} (hfresh : s.calls k = none) (call : Call PeerID) :
    (s.setCall k call.start).excess (tr ++ [.called k call]) = s.excess tr := by
  have hdue := totalDue_start countDue_start htraced hfresh call
  have hcount : (s.setCall k call.start).peerCount = s.peerCount := rfl
  rw [AppState.excess, AppState.excess, countDue_eq, countDue_eq, hdue, hcount,
    AppState.setCall_peers]

end Shared

/-! ## The server -/

variable {PeerID : Type} [DecidableEq PeerID]

/-- The events of the shared state. -/
def appEvents (tr : List (ServerEvent PeerID)) : List (Event PeerID (CallId PeerID)) :=
  tr.filterMap ServerEvent.app?

theorem overwrites_eq_zero_iff {s : ServerState PeerID} {h : PeerHandler PeerID} {n : Nat}
    {pc : Pc PeerID} {choice : Choice PeerID} (hcurrent : (s.conns h).currentCall = some n)
    (hpc : s.app.calls (h, n) = some pc) :
    s.app.overwrites pc = 0 ↔ InsertsVacant s (.advance h choice) := by
  have hok : InsertsVacant s (.advance h choice) ↔
      ∀ handler, pc = .insert handler → s.app.peers.lookup handler.peerId = none := by
    constructor
    · intro hok handler heq
      exact hok n handler hcurrent (by rw [hpc, heq])
    · intro hvacant m handler hcurrent' hinsert
      obtain rfl : n = m := Option.some.inj (hcurrent.symm.trans hcurrent')
      exact hvacant handler (Option.some.inj (hpc.symm.trans hinsert))
  rw [hok]
  cases pc with
  | insert handler => simp [AppState.overwrites]
  | _ => simp [AppState.overwrites]

theorem overwrites_nonneg {κ : Type} [DecidableEq κ] (s : AppState PeerID κ)
    (pc : Pc PeerID) : 0 ≤ s.overwrites pc := by
  cases pc with
  | insert handler =>
      simp only [AppState.overwrites]
      split <;> decide
  | _ => exact le_rfl

section Step

variable {fromStr : String → Option (PeerRequest PeerID)} {s s' : ServerState PeerID}
  {tr es : List (ServerEvent PeerID)} {l : ServerAction PeerID}

theorem appStep_of_advance {h : PeerHandler PeerID} {choice : Choice PeerID}
    (hstep : s.step fromStr (.advance h choice) = some (s', es)) :
    ∃ n pc, (s.conns h).currentCall = some n ∧ s.app.calls (h, n) = some pc ∧
      s.app.advance (h, n) pc choice = some (s'.app, appEvents es) := by
  simp only [ServerState.step] at hstep
  split at hstep
  case h_1 n hcurrent =>
      simp only [ServerState.perform, AppState.step, Option.map_eq_some_iff,
        Option.bind_eq_some_iff, Prod.mk.injEq] at hstep
      obtain ⟨⟨app, aes⟩, ⟨pc, hpc, hadvance⟩, rfl, rfl⟩ := hstep
      refine ⟨n, pc, hcurrent, hpc, ?_⟩
      rw [appEvents, filterMap_map_app]
      exact hadvance
  case h_2 => cases hstep

/-- Only a step that inserts over an entry changes the excess, and it raises it. -/
theorem excess_serverStep (htraced : Traced s.app (appEvents tr))
    (hnodup : (callers (appEvents tr)).Nodup) (hstep : s.step fromStr l = some (s', es)) :
    s.app.excess (appEvents tr) ≤ s'.app.excess (appEvents (tr ++ es)) ∧
      (s'.app.excess (appEvents (tr ++ es)) = s.app.excess (appEvents tr) ↔
        InsertsVacant s l) := by
  have happend : appEvents (tr ++ es) = appEvents tr ++ appEvents es := List.filterMap_append
  have hsame : s'.app.excess (appEvents tr ++ appEvents es) = s.app.excess (appEvents tr) →
      (∀ h choice, l ≠ .advance h choice) → s.app.excess (appEvents tr) ≤
        s'.app.excess (appEvents (tr ++ es)) ∧
      (s'.app.excess (appEvents (tr ++ es)) = s.app.excess (appEvents tr) ↔
        InsertsVacant s l) := by
    intro heq hl
    rw [happend, heq]
    refine ⟨le_rfl, iff_of_true rfl ?_⟩
    cases l with
    | advance h choice => exact absurd rfl (hl h choice)
    | _ => trivial
  have hquiet := excess_of_same s.app s'.app (appEvents tr) (appEvents es)
  cases serverSteps_of_step hstep with
  | drop _ _ happ =>
      exact hsame (hquiet (by rw [happ]) (by rw [happ]) (by rw [happ])
        (by simp [appEvents, ServerEvent.app?])) (by simp)
  | enqueue _ _ happ =>
      exact hsame (hquiet (by rw [happ]; rfl) (by rw [happ]; rfl) (by rw [happ]; rfl)
        (by simp [appEvents, ServerEvent.app?])) (by simp)
  | @conn h _ _ hconn =>
      cases hconn with
      | @start _ n call conn' frames hl hstarts hfresh happ hconns =>
          refine hsame ?_ ?_
          · have hframes : appEvents (frames ++ [.app (.called (h, n) call)]) =
                [.called (h, n) call] := by
              generalize s.conns h = conn at hstarts
              cases hstarts <;> rfl
            rw [hframes, happ]
            exact excess_start htraced hfresh call
          · rintro g choice rfl
            exact hl
      | @advance choice n pc aes hcurrent hpc =>
          obtain ⟨m, pc', hcurrent', hpc', hadvance⟩ := appStep_of_advance hstep
          have hk : (h, m) ∈ callers (appEvents tr) := by
            obtain ⟨call, hcalled, -⟩ := htraced.at_pc _ pc' hpc'
            exact mem_callers.mpr ⟨call, hcalled⟩
          have hexcess := excess_advance hnodup hk hpc' hadvance
          have hnonneg := overwrites_nonneg s.app pc'
          rw [happend, hexcess, ← overwrites_eq_zero_iff hcurrent' hpc']
          constructor
          · omega
          · omega
      | resume _ happ =>
          exact hsame (hquiet (by rw [happ]) (by rw [happ]) (by rw [happ]) (by simp [appEvents]))
            (by simp)
      | finish _ happ =>
          exact hsame (hquiet (by rw [happ]; rfl) (by rw [happ]; rfl) (by rw [happ]; rfl)
            (by simp [appEvents])) (by simp)
      | loop hl _ _ _ happ _ hes =>
          refine hsame (hquiet (by rw [happ]) (by rw [happ]) (by rw [happ]) ?_) ?_
          · intro k call hmem
            rcases hes _ (mem_filterMap_app.mp hmem) with ⟨_, h⟩ | ⟨_, h⟩ <;> cases h
          · rintro g choice rfl
            exact hl
      | recv _ _ happ =>
          exact hsame (hquiet (by rw [happ]; rfl) (by rw [happ]; rfl) (by rw [happ]; rfl)
            (by simp [appEvents, ServerEvent.app?])) (by simp)

/-- Every entry is that of a live connection. -/
def EntriesLive (s : ServerState PeerID) : Prop :=
  ∀ id h, s.app.peers.lookup id = some h → s.Live h ∧ h.peerId = id

theorem EntriesLive.of_live {s s' : ServerState PeerID} (hentries : EntriesLive s)
    (hpeers : s'.app.peers = s.app.peers)
    (hlive : ∀ id h, s.app.peers.lookup id = some h → s.Live h → s'.Live h) :
    EntriesLive s' := by
  intro id h hlookup
  rw [hpeers] at hlookup
  obtain ⟨hbefore, hid⟩ := hentries id h hlookup
  exact ⟨hlive id h hlookup hbefore, hid⟩

theorem EntriesLive.conn {h : PeerHandler PeerID} (hentries : EntriesLive s)
    (hconn : ConnSteps s s' h l es) (hwaiting : Waiting s h) : EntriesLive s' := by
  have hothers : ∀ g, g ≠ h → (s'.Live g ↔ s.Live g) := fun g hg =>
    live_of_same (hconn.others hg).1 (hconn.others hg).2
  cases hconn.registers hwaiting with
  | same hpeers hlive =>
      refine hentries.of_live hpeers fun id g _ hg => ?_
      by_cases hgh : g = h
      · subst hgh
        exact hlive.mpr hg
      · exact (hothers g hgh).mpr hg
  | insert _ _ hpeers hdead hlive' =>
      intro id g hlookup
      rw [hpeers] at hlookup
      by_cases hid : id = h.peerId
      · subst hid
        obtain rfl : h = g := by simpa using hlookup
        exact ⟨hlive', rfl⟩
      · rw [AList.lookup_insert_ne hid] at hlookup
        obtain ⟨hg, hgid⟩ := hentries id g hlookup
        exact ⟨(hothers g fun heq => hdead (heq ▸ hg)).mpr hg, hgid⟩
  | remove _ hpeers =>
      intro id g hlookup
      rw [hpeers] at hlookup
      by_cases hid : id = h.peerId
      · subst hid
        simp at hlookup
      · rw [AList.lookup_erase_ne hid] at hlookup
        obtain ⟨hg, rfl⟩ := hentries id g hlookup
        exact ⟨(hothers g fun heq => hid (heq ▸ rfl)).mpr hg, rfl⟩
  | absent habsent hpeers =>
      refine hentries.of_live hpeers fun id g hlookup hg => (hothers g ?_).mpr hg
      rintro rfl
      obtain ⟨-, rfl⟩ := hentries id g hlookup
      rw [habsent] at hlookup
      cases hlookup

theorem EntriesLive.step (hentries : EntriesLive s) (hsteps : ServerSteps s s' l es)
    (hwaiting : ∀ h, Waiting s h) : EntriesLive s' := by
  cases hsteps with
  | conn hconn => exact hentries.conn hconn (hwaiting _)
  | drop _ _ happ hconns =>
      exact hentries.of_live (by rw [happ]) fun _ g _ =>
        (live_of_same (by rw [hconns]) (sameCalls_of_eq (by rw [happ]))).mpr
  | enqueue _ _ happ hconns =>
      exact hentries.of_live (by rw [happ]; rfl) fun _ g _ =>
        (live_of_same (by rw [hconns]) (sameCalls_of_eq (by rw [happ]; rfl))).mpr

/-- The call has returned or failed. -/
def Pc.Ended : Pc PeerID → Prop
  | .returned | .failed _ => True
  | _ => False

/-- The calls that their connection does not wait for have ended. -/
def CallsEnded (s : ServerState PeerID) (h : PeerHandler PeerID) : Prop :=
  ∀ n pc, s.app.calls (h, n) = some pc → (s.conns h).currentCall ≠ some n → pc.Ended

theorem ended_forget {pc : Pc PeerID} (peerId : PeerID) (hended : pc.Ended) :
    (pc.forget peerId).Ended := by
  cases pc <;> trivial

theorem CallsEnded.of_same {h : PeerHandler PeerID} (hended : CallsEnded s h)
    (hconns : s'.conns h = s.conns h) (hcalls : SameCalls s s' h) : CallsEnded s' h := by
  intro n pc hpc hcurrent
  rw [hconns] at hcurrent
  rcases hcalls n with hcall | ⟨peerId, hcall⟩
  · exact hended n pc (hcall ▸ hpc) hcurrent
  · rw [hcall, Option.map_eq_some_iff] at hpc
    obtain ⟨pc₀, hpc₀, rfl⟩ := hpc
    exact ended_forget peerId (hended n pc₀ hpc₀ hcurrent)

theorem currentCall_of_loopAt {n : Nat} {conn : ConnState PeerID} (hloop : LoopAt n conn) :
    conn.currentCall = none := by
  cases hloop <;> rfl

theorem CallsEnded.conn {h : PeerHandler PeerID} (hended : CallsEnded s h)
    (hconn : ConnSteps s s' h l es) : CallsEnded s' h := by
  intro m pc hpc hcurrent'
  cases hconn with
  | @start _ n call conn' _ _ hstarts _ happ hconns =>
      rw [hconns, Function.update_self] at hcurrent'
      have hnew : conn'.currentCall = some n ∧ (s.conns h).currentCall = none := by
        generalize s.conns h = conn at hstarts
        cases hstarts with
        | accept | forward => exact ⟨rfl, rfl⟩
        | leave _ hloop => exact ⟨rfl, currentCall_of_loopAt hloop⟩
      have hne : m ≠ n := fun heq => hcurrent' (heq ▸ hnew.1)
      rw [happ, AppState.setCall_calls_of_ne _ (by simp [hne])] at hpc
      exact hended m pc hpc (by simp [hnew.2])
  | @advance _ n _ _ hcurrent _ hadvance hconns =>
      rw [hconns, hcurrent] at hcurrent'
      have hne : (h, m) ≠ (h, n) := fun heq => hcurrent' (by rw [(Prod.mk.inj heq).2])
      have hcurrent₀ : (s.conns h).currentCall ≠ some m := by rwa [hcurrent]
      rcases hadvance.calls_of_ne hne with hcall | ⟨peerId, hcall⟩
      · exact hended m pc (hcall ▸ hpc) hcurrent₀
      · rw [hcall, Option.map_eq_some_iff] at hpc
        obtain ⟨pc₀, hpc₀, rfl⟩ := hpc
        exact ended_forget peerId (hended m pc₀ hpc₀ hcurrent₀)
  | resume hresumes happ =>
      rw [happ] at hpc
      by_cases hcurrent : (s.conns h).currentCall = some m
      · generalize s.conns h = conn at hresumes hcurrent
        cases hresumes with
        | added hcall | dispatched _ hcall =>
            cases hcurrent
            obtain rfl : .returned = pc := Option.some.inj (hcall.symm.trans hpc)
            trivial
      · exact hended m pc hpc hcurrent
  | finish hends happ =>
      have hpc₀ : s.app.calls (h, m) = some pc := by rwa [happ] at hpc
      by_cases hcurrent : (s.conns h).currentCall = some m
      · generalize s.conns h = conn at hends hcurrent
        cases hends with
        | rejected e hcall =>
            cases hcurrent
            obtain rfl : .failed e = pc := Option.some.inj (hcall.symm.trans hpc₀)
            trivial
        | removed _ hcall =>
            cases hcurrent
            obtain rfl : .returned = pc := Option.some.inj (hcall.symm.trans hpc₀)
            trivial
      · exact hended m pc hpc₀ hcurrent
  | loop _ hloop _ _ happ =>
      rw [happ] at hpc
      exact hended m pc hpc (by simp [currentCall_of_loopAt hloop])
  | recv hloop _ happ =>
      have hpc₀ : s.app.calls (h, m) = some pc := by rwa [happ] at hpc
      exact hended m pc hpc₀ (by simp [currentCall_of_loopAt hloop])

theorem CallsEnded.step (hended : ∀ h, CallsEnded s h) (hsteps : ServerSteps s s' l es)
    (g : PeerHandler PeerID) : CallsEnded s' g := by
  cases hsteps with
  | @conn h _ _ hconn =>
      by_cases hg : g = h
      · subst hg
        exact (hended g).conn hconn
      · exact (hended g).of_same (hconn.others hg).1 (hconn.others hg).2
  | drop _ _ happ hconns =>
      exact (hended g).of_same (by rw [hconns]) (sameCalls_of_eq (by rw [happ]))
  | enqueue _ _ happ hconns =>
      exact (hended g).of_same (by rw [hconns]) (sameCalls_of_eq (by rw [happ]; rfl))

end Step

/-! ## Every run -/

variable {fromStr : String → Option (PeerRequest PeerID)} {ls : List (ServerAction PeerID)}
  {s : ServerState PeerID} {tr : List (ServerEvent PeerID)}

theorem waiting_of_run (hrun : (server fromStr).Run ls s tr) (h : PeerHandler PeerID) :
    Waiting s h := by
  induction hrun generalizing h with
  | nil => exact fun n hcurrent => by cases hcurrent
  | snoc _ hstep ih => exact (serverSteps_of_step hstep).waiting ih h

theorem entriesLive_of_run (hrun : (server fromStr).Run ls s tr) : EntriesLive s := by
  induction hrun with
  | nil => exact fun id h hlookup => by simp [server, ServerState.init, AppState.init] at hlookup
  | snoc hrun hstep ih => exact ih.step (serverSteps_of_step hstep) (waiting_of_run hrun)

theorem callsEnded_of_run (hrun : (server fromStr).Run ls s tr) (h : PeerHandler PeerID) :
    CallsEnded s h := by
  induction hrun generalizing h with
  | nil => exact fun n pc hpc => by simp [server, ServerState.init, AppState.init] at hpc
  | snoc _ hstep ih => exact CallsEnded.step ih (serverSteps_of_step hstep) h

/-- The excess is what the inserts over entries have left, and tells whether there
was one. -/
theorem excess_of_run (hrun : (server fromStr).Run ls s tr) :
    0 ≤ s.app.excess (appEvents tr) ∧
      (s.app.excess (appEvents tr) = 0 ↔ (server fromStr).StepsMeet InsertsVacant ls) := by
  induction hrun with
  | nil =>
      refine ⟨le_rfl, iff_of_true rfl fun pre l hpre => ?_⟩
      simp at hpre
  | snoc hrun hstep ih =>
      obtain ⟨as, happ⟩ := server_refines_appState hrun
      obtain ⟨hle, hiff⟩ := excess_serverStep (traced_of_run happ) (nodup_callers_of_run happ) hstep
      rw [Machine.stepsMeet_concat hrun hstep, ← ih.2, ← hiff]
      constructor
      · omega
      · omega

theorem settled_of_closed (hrun : (server fromStr).Run ls s tr)
    (hclosed : ∀ h, s.conns h = .absent ∨ s.conns h = .gone) :
    s.app.Settled (appEvents tr) := by
  obtain ⟨as, happ⟩ := server_refines_appState hrun
  have hended : ∀ k call, ¬ s.app.InProgress (appEvents tr) k call := by
    rintro ⟨h, n⟩ call ⟨hcalled, hreturned, hfailed⟩
    obtain ⟨pc, hpc⟩ := Option.ne_none_iff_exists'.mp ((traced_of_run happ).fresh _ call hcalled)
    have hcurrent : (s.conns h).currentCall ≠ some n := by
      rcases hclosed h with hconn | hconn <;> simp [hconn, ConnState.currentCall]
    have hpcEnded := callsEnded_of_run hrun h n pc hpc hcurrent
    cases pc with
    | returned => exact hreturned hpc
    | failed e => exact hfailed e hpc
    | _ => exact hpcEnded
  exact fun k => ⟨fun handler => hended k _, fun peerId => hended k _⟩

theorem keys_of_closed (hrun : (server fromStr).Run ls s tr)
    (hclosed : ∀ h, s.conns h = .absent ∨ s.conns h = .gone) : s.app.peers.keys = [] := by
  refine List.eq_nil_iff_forall_not_mem.mpr fun id hmem => ?_
  obtain ⟨h, hlookup⟩ := Option.isSome_iff_exists.mp (AList.lookup_isSome.mpr hmem)
  obtain ⟨hlive, -⟩ := entriesLive_of_run hrun id h hlookup
  unfold ServerState.Live at hlive
  rcases hclosed h with hconn | hconn <;> rw [hconn] at hlive <;> exact hlive

/-- At the end of a run in which no `add_peer` or `remove_peer` is in progress the gauge
is the number of entries, and it is zero when all connections have closed, if and only if
no step of the run inserted over an entry. -/
theorem run_peerCount_iff (hrun : (server fromStr).Run ls s tr) :
    (s.app.Settled (appEvents tr) →
      (s.app.peerCount = s.app.peers.keys.length ↔
        (server fromStr).StepsMeet InsertsVacant ls)) ∧
    ((∀ h, s.conns h = .absent ∨ s.conns h = .gone) →
      (s.app.peerCount = 0 ↔ (server fromStr).StepsMeet InsertsVacant ls)) := by
  obtain ⟨as, happ⟩ := server_refines_appState hrun
  have htraced : Traced s.app (appEvents tr) := traced_of_run happ
  obtain ⟨-, hexcess⟩ := excess_of_run hrun
  have hsettled : s.app.Settled (appEvents tr) →
      (s.app.peerCount = s.app.peers.keys.length ↔
        (server fromStr).StepsMeet InsertsVacant ls) := by
    intro hsettled
    rw [← hexcess, excess_of_settled htraced hsettled, sub_eq_zero]
  refine ⟨hsettled, fun hclosed => ?_⟩
  rw [← hsettled (settled_of_closed hrun hclosed), keys_of_closed hrun hclosed]
  rfl

/-- The connection of `01` joins, hears of itself and closes. -/
def leaveRun (h : PeerHandler PeerId.PeerID) : List (ServerAction PeerId.PeerID) :=
  [.accept h, .advance h .go, .advance h .go, .advance h .go,
    .advance h (.random (some (.ofByte 9))), .advance h .go, .advance h (.visit h.peerId),
    .advance h .stop, .advance h .go, .advance h .go, .resume h, .inbound h (some .close),
    .advance h .go, .advance h .go, .resume h]

theorem run_peerCount_iff_leaveRun :
    let h : PeerHandler PeerId.PeerID := ⟨.ofByte 1, 1, 32⟩
    ∃ (s : ServerState PeerId.PeerID) (tr : List (ServerEvent PeerId.PeerID)),
      (server fun _ => none).Run (leaveRun h) s tr ∧ s.conns h = .gone ∧
        s.app.peerCount = 0 ∧ (server fun _ => none).StepsMeet InsertsVacant (leaveRun h) := by
  intro h
  have hexec : ((server fun _ => none).exec (leaveRun h)).map (fun r => (r.1.conns h,
      r.1.app.peerCount, r.1.app.peers.keys.length,
      (callers (appEvents r.2)).map r.1.app.calls)) =
        some (.gone, 0, 0, [some .returned, some .returned]) := by decide +kernel
  obtain ⟨⟨s, tr⟩, hexec, hproj⟩ := Option.map_eq_some_iff.mp hexec
  simp only [Prod.mk.injEq] at hproj
  obtain ⟨hconn, hcount, hkeys, hcalls⟩ := hproj
  have hrun := Machine.run_of_exec hexec
  have hsettled : s.app.Settled (appEvents tr) :=
    settled_of_returned (by simp [hcalls])
  refine ⟨s, tr, hrun, hconn, hcount, ((run_peerCount_iff hrun).1 hsettled).mp ?_⟩
  rw [hcount, hkeys]
  rfl

/-- Two connections with one id are both counted; the registry holds one of them. -/
theorem not_peerCount_race :
    ¬ ∀ (fromStr : String → Option (PeerRequest PeerId.PeerID)) ls s tr,
      (server fromStr).Run ls s tr → s.app.Settled (appEvents tr) →
        s.app.peerCount = s.app.peers.keys.length := by
  intro hall
  let h₁ : PeerHandler PeerId.PeerID := ⟨.ofByte 1, 1, 32⟩
  let h₂ : PeerHandler PeerId.PeerID := ⟨.ofByte 1, 2, 32⟩
  let ls : List (ServerAction PeerId.PeerID) := [.accept h₁, .accept h₂,
    .advance h₁ .go, .advance h₂ .go, .advance h₁ .go, .advance h₂ .go,
    .advance h₁ .go, .advance h₂ .go,
    .advance h₁ (.random (some (.ofByte 9))), .advance h₁ .go, .advance h₁ (.visit h₁.peerId),
    .advance h₁ .stop, .advance h₁ .go, .advance h₁ .go,
    .advance h₂ (.random (some (.ofByte 8))), .advance h₂ .go, .advance h₂ (.visit h₁.peerId),
    .advance h₂ .stop, .advance h₂ .go, .advance h₂ .go]
  have hexec : ((server fun _ => none).exec ls).map (fun r => (r.1.app.peerCount,
      r.1.app.peers.keys.length, (callers (appEvents r.2)).map r.1.app.calls)) =
        some (2, 1, [some .returned, some .returned]) := by decide +kernel
  obtain ⟨⟨s, tr⟩, hrun, hproj⟩ := Option.map_eq_some_iff.mp hexec
  simp only [Prod.mk.injEq] at hproj
  obtain ⟨hcount, hkeys, hcalls⟩ := hproj
  have hexact := hall _ ls s tr (Machine.run_of_exec hrun)
    (settled_of_returned (by simp [hcalls]))
  rw [hcount, hkeys] at hexact
  cases hexact

end SfRs.Server
