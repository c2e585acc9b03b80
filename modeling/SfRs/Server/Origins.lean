import SfRs.Server.Loop
/-!
# Where the requests of a channel come from

Everything enqueued for a peer is the news that a connection has joined, or what a frame
of some connection asks to forward: to this peer, or to everyone.  A unicast is enqueued
at most as often as frames ask for it.
-/

set_option linter.unusedSectionVars false

namespace SfRs.Server

open SfRs.Lib SfRs.Protocol AppState

/-! ## The calls of the shared state -/

section Calls

variable {PeerID κ : Type} [DecidableEq PeerID] [DecidableEq κ]

/-- The unicast that a call is made for. -/
def Event.unicast : Event PeerID κ → Option (PeerRequest PeerID)
  | .called _ (.handleForward fromPeerId _ (some toPeerId) data) =>
      some (.forward fromPeerId (some toPeerId) data)
  | _ => none

def unicastRequests (tr : List (Event PeerID κ)) : List (PeerRequest PeerID) :=
  tr.filterMap Event.unicast

/-- Every snapshot was taken by a call that broadcasts. -/
theorem broadcasts_of_snapshot {as : List (Action PeerID κ)} {s : AppState PeerID κ}
    {tr : List (Event PeerID κ)} (hrun : (appState PeerID κ).Run as s tr) {k : κ}
    {b : Broadcast PeerID} {ids : List PeerID} (hsnapshot : .snapshot k b ids ∈ tr) :
    ∃ call, .called k call ∈ tr ∧ call.Broadcasts b := by
  induction hrun with
  | nil => cases hsnapshot
  | @snoc as s tr a s' es hrun hstep ih =>
      rcases List.mem_append.mp hsnapshot with hold | hnew
      · obtain ⟨call, hcalled, hb⟩ := ih hold
        exact ⟨call, List.mem_append_left _ hcalled, hb⟩
      · cases steps_of_step hstep with
        | call | drop | enqueue | recv | close => simp at hnew
        | advance k' choice hpc hadvance =>
            cases hadvance with
            | quiet | vacant | insert | iter | remove | removeAbsent => simp at hnew
            | sendEach | sendSingle =>
                rcases sendForward_events hnew with ⟨_, h⟩ | ⟨_, h⟩ <;> cases h
            | snapshot b' due seen =>
                obtain ⟨rfl, rfl, rfl⟩ : k = k' ∧ b = b' ∧ ids = seen := by simpa using hnew
                obtain ⟨call, hcalled, hat⟩ := (traced_of_run hrun).at_pc k _ hpc
                cases hat with
                | collect hb => exact ⟨call, List.mem_append_left _ hcalled, hb⟩

theorem owed_eq_some {tr : List (Event PeerID κ)} {h : PeerHandler PeerID} {e : Event PeerID κ}
    {request : PeerRequest PeerID} (howed : owed tr h e = some request) :
    e.unicast = some request ∨ ∃ k b ids, e = .snapshot k b ids ∧
      request = .forward b.fromPeerId (some h.peerId) b.data := by
  unfold owed at howed
  split at howed
  case h_1 k fromPeerId _ target data =>
      split at howed
      case isTrue hfound =>
          cases howed
          exact Or.inl (by rw [Event.unicast, hfound.1])
      case isFalse => cases howed
  case h_2 k b ids =>
      split at howed
      case isTrue => cases howed; exact Or.inr ⟨k, b, ids, rfl, rfl⟩
      case isFalse => cases howed
  case h_3 => cases howed

/-- What no broadcast says is owed at most as often as calls are made for it. -/
theorem count_deliveries_le {tr : List (Event PeerID κ)} {h : PeerHandler PeerID}
    {request : PeerRequest PeerID}
    (hbroadcast : ∀ k b ids, .snapshot k b ids ∈ tr →
      request ≠ .forward b.fromPeerId (some h.peerId) b.data) :
    (deliveries tr h).count request ≤ (unicastRequests tr).count request := by
  rw [deliveries, unicastRequests, List.count_filterMap, List.count_filterMap]
  refine List.countP_mono_left fun e he howed => ?_
  rw [beq_iff_eq] at howed ⊢
  rcases owed_eq_some howed with hunicast | ⟨k, b, ids, rfl, hids⟩
  · exact hunicast
  · exact absurd hids (hbroadcast k b ids he)

theorem count_enqueued_le {as : List (Action PeerID κ)} {s : AppState PeerID κ}
    {tr : List (Event PeerID κ)} (hrun : (appState PeerID κ).Run as s tr)
    (h : PeerHandler PeerID) (request : PeerRequest PeerID) :
    (enqueued tr h).count request ≤ (deliveries tr h).count request := by
  have hbalanced := congrArg (Multiset.count request) ((routed_of_run hrun).balanced h)
  simp only [Multiset.count_add, Multiset.coe_count] at hbalanced
  omega

end Calls

/-! ## The frames behind the calls -/

variable {PeerID : Type} [DecidableEq PeerID]

/-- The connection, or the frame of it, that makes a call. -/
inductive MadeBy (tr : List (ServerEvent PeerID)) : CallId PeerID → Call PeerID → Prop
  | joins (h) : MadeBy tr (h, 0) (.addPeer h)
  | leaves (h n) : MadeBy tr (h, n) (.removePeer h.peerId)
  | forwards {h n fromPeerId toPeerId data}
      (hframe : .frame h n (.forward fromPeerId toPeerId data) ∈ tr) :
      MadeBy tr (h, n) (.handleForward fromPeerId h.peerId toPeerId data)

theorem MadeBy.mono {tr tr' : List (ServerEvent PeerID)} {k : CallId PeerID}
    {call : Call PeerID} (hmade : MadeBy tr k call) (hsub : tr ⊆ tr') : MadeBy tr' k call := by
  cases hmade with
  | joins => exact .joins _
  | leaves => exact .leaves _ _
  | forwards hframe => exact .forwards (hsub hframe)

/-- The requests that frames parsed as, with the connections they came from. -/
def frameRequests (tr : List (ServerEvent PeerID)) :
    List (PeerHandler PeerID × PeerRequest PeerID) :=
  tr.filterMap fun
    | .frame h _ request => some (h, request)
    | _ => none

theorem parsed_eq_entriesOf (tr : List (ServerEvent PeerID)) (h : PeerHandler PeerID) :
    parsed tr h = entriesOf h (frameRequests tr) := by
  rw [parsed, entriesOf, frameRequests, List.filterMap_filterMap]
  refine List.filterMap_congr fun e _ => ?_
  cases e <;> rfl

/-- What the events of one step show of the calls that start in it. -/
structure CallsOf (es : List (ServerEvent PeerID)) : Prop where
  madeBy : ∀ k call, .app (.called k call) ∈ es → MadeBy es k call
  unicasts : ∀ request, (unicastRequests (es.filterMap ServerEvent.app?)).count request ≤
    ((frameRequests es).map Prod.snd).count request

theorem callsOf_quiet {es : List (ServerEvent PeerID)}
    (hes : ∀ k call, .app (.called k call) ∉ es) : CallsOf es := by
  refine ⟨fun k call hmem => absurd hmem (hes k call), fun request => ?_⟩
  have hnone : unicastRequests (es.filterMap ServerEvent.app?) = [] := by
    refine List.filterMap_eq_nil_iff.mpr fun e he => ?_
    cases e with
    | called k call => exact absurd (mem_filterMap_app.mp he) (hes k call)
    | _ => rfl
  rw [hnone]
  exact Nat.zero_le _

theorem callsOf_start {h : PeerHandler PeerID} {conn conn' : ConnState PeerID} {n : Nat}
    {call : Call PeerID} {frames : List (ServerEvent PeerID)}
    (hstarts : Starts h conn n call conn' frames) :
    CallsOf (frames ++ [.app (.called (h, n) call)]) := by
  cases hstarts with
  | accept =>
      refine ⟨fun k call hmem => ?_, fun request => Nat.zero_le _⟩
      obtain ⟨rfl, rfl⟩ : k = (h, 0) ∧ call = .addPeer h := by simpa using hmem
      exact .joins h
  | leave =>
      refine ⟨fun k call hmem => ?_, fun request => Nat.zero_le _⟩
      obtain ⟨rfl, rfl⟩ : k = (h, n) ∧ call = .removePeer h.peerId := by simpa using hmem
      exact .leaves h n
  | forward _ fromPeerId toPeerId data =>
      refine ⟨fun k call hmem => ?_, fun request => ?_⟩
      · obtain ⟨rfl, rfl⟩ : k = (h, n) ∧
            call = .handleForward fromPeerId h.peerId toPeerId data := by simpa using hmem
        exact .forwards (by simp)
      · cases toPeerId with
        | none => exact Nat.zero_le _
        | some target => exact le_rfl

theorem callsOf_of_serverSteps {s s' : ServerState PeerID} {l : ServerAction PeerID}
    {es : List (ServerEvent PeerID)} (hsteps : ServerSteps s s' l es) : CallsOf es := by
  cases hsteps with
  | drop | enqueue => exact callsOf_quiet (by simp)
  | conn hconn =>
      cases hconn with
      | start _ hstarts =>
          generalize s.conns _ = conn at hstarts
          exact callsOf_start hstarts
      | advance _ _ hadvance =>
          refine callsOf_quiet fun k call hmem => ?_
          obtain ⟨e, he, heq⟩ := List.mem_map.mp hmem
          cases heq
          exact hadvance.frame.2.2 k call he
      | resume | finish | recv => exact callsOf_quiet (by simp)
      | loop _ _ _ _ _ _ hes =>
          refine callsOf_quiet fun k call hmem => ?_
          rcases hes _ hmem with ⟨_, heq⟩ | ⟨_, heq⟩ <;> cases heq

theorem CallsOf.append {tr es : List (ServerEvent PeerID)} (htr : CallsOf tr)
    (hes : CallsOf es) : CallsOf (tr ++ es) := by
  constructor
  · intro k call hmem
    rcases List.mem_append.mp hmem with hold | hnew
    · exact (htr.madeBy k call hold).mono (List.subset_append_left tr es)
    · exact (hes.madeBy k call hnew).mono (List.subset_append_right tr es)
  · intro request
    have hold := htr.unicasts request
    have hnew := hes.unicasts request
    simp only [unicastRequests, frameRequests, List.filterMap_append, List.map_append,
      List.count_append] at hold hnew ⊢
    omega

theorem callsOf_of_run {fromStr : String → Option (PeerRequest PeerID)}
    {ls : List (ServerAction PeerID)} {s : ServerState PeerID}
    {tr : List (ServerEvent PeerID)} (hrun : (server fromStr).Run ls s tr) : CallsOf tr := by
  induction hrun with
  | nil => exact callsOf_quiet (by simp)
  | snoc _ hstep ih => exact ih.append (callsOf_of_serverSteps (serverSteps_of_step hstep))

/-! ## Who has joined -/

/-- The connection has called `add_peer`. -/
def Joined (tr : List (ServerEvent PeerID)) (h : PeerHandler PeerID) : Prop :=
  .app (.called (h, 0) (.addPeer h)) ∈ tr

/-- Every connection that was accepted has joined, and so has every one that sent a frame. -/
structure Entered (s : ServerState PeerID) (tr : List (ServerEvent PeerID)) : Prop where
  conns : ∀ h, s.conns h ≠ .absent → Joined tr h
  frames : ∀ h n request, .frame h n request ∈ tr → Joined tr h

theorem Entered.step {s s' : ServerState PeerID} {l : ServerAction PeerID}
    {tr es : List (ServerEvent PeerID)} (hentered : Entered s tr)
    (hsteps : ServerSteps s s' l es) : Entered s' (tr ++ es) := by
  have hold : ∀ {h}, Joined tr h → Joined (tr ++ es) h := fun hmem => List.mem_append_left es hmem
  have hkeep : s'.conns = s.conns → (∀ h n request, .frame h n request ∉ es) →
      Entered s' (tr ++ es) := by
    intro hconns hes
    refine ⟨fun h hh => hold (hentered.conns h (hconns ▸ hh)), fun h n request hmem => ?_⟩
    exact hold (hentered.frames h n request ((List.mem_append.mp hmem).resolve_right (hes _ _ _)))
  -- the connection of the step is not absent, before it or from its start on
  have hmove : ∀ {h conn'}, Joined (tr ++ es) h → s'.conns = Function.update s.conns h conn' →
      (∀ g n request, .frame g n request ∈ es → g = h) → Entered s' (tr ++ es) := by
    intro h conn' hjoined hconns hes
    constructor
    · intro g hg
      by_cases hgh : g = h
      · rw [hgh]
        exact hjoined
      · rw [hconns, Function.update_of_ne hgh] at hg
        exact hold (hentered.conns g hg)
    · intro g n request hmem
      rcases List.mem_append.mp hmem with hmem | hmem
      · exact hold (hentered.frames g n request hmem)
      · rw [hes g n request hmem]
        exact hjoined
  have hloop : ∀ {h n}, LoopAt n (s.conns h) → Joined (tr ++ es) h := by
    intro h n hat
    refine hold (hentered.conns h fun habsent => ?_)
    rw [habsent] at hat
    cases hat
  cases hsteps with
  | drop _ _ _ hconns | enqueue _ _ _ hconns => exact hkeep hconns (by simp)
  | @conn h _ _ hconn =>
      cases hconn with
      | start _ hstarts _ _ hconns =>
          refine hmove ?_ hconns ?_
          · cases hconn : s.conns h with
            | absent =>
                rw [hconn] at hstarts
                cases hstarts with
                | accept => simp [Joined]
                | leave _ hat => cases hat
            | _ => exact hold (hentered.conns h (by simp [hconn]))
          · generalize s.conns h = conn at hstarts
            intro g n request hmem
            cases hstarts with
            | accept | leave => simp at hmem
            | forward =>
                have hframe := (List.mem_append.mp hmem).resolve_right (by simp)
                simp only [List.mem_singleton, ServerEvent.frame.injEq] at hframe
                exact hframe.1
      | advance _ _ _ hconns => exact hkeep hconns (by simp)
      | resume hresumes _ hconns =>
          refine hmove (hold (hentered.conns h fun habsent => ?_)) hconns (by simp)
          rw [habsent] at hresumes
          cases hresumes
      | finish hends _ hconns =>
          refine hmove (hold (hentered.conns h fun habsent => ?_)) hconns (by simp)
          rw [habsent] at hends
          cases hends
      | loop _ hat _ _ _ hconns hes =>
          refine hmove (hloop hat) hconns fun g n request hmem => ?_
          rcases hes _ hmem with ⟨_, heq⟩ | ⟨_, heq⟩ <;> cases heq
          rfl
      | recv hat _ _ hconns => exact hmove (hloop hat) hconns (by simp)

theorem entered_of_run {fromStr : String → Option (PeerRequest PeerID)}
    {ls : List (ServerAction PeerID)} {s : ServerState PeerID}
    {tr : List (ServerEvent PeerID)} (hrun : (server fromStr).Run ls s tr) : Entered s tr := by
  induction hrun with
  | nil => exact ⟨fun h hh => absurd rfl hh, by simp⟩
  | snoc _ hstep ih => exact ih.step (serverSteps_of_step hstep)

/-! ## Every run -/

/-- Where a request for `h` comes from. -/
inductive Origin (tr : List (ServerEvent PeerID)) (h : PeerHandler PeerID) :
    PeerRequest PeerID → Prop
  | joined {g : PeerHandler PeerID} (fromPeerId : PeerID)
      (hjoined : Joined tr g) :
      Origin tr h (.forward fromPeerId (some h.peerId) (.newPeer g.peerId))
  | unicast {g n fromPeerId data}
      (hframe : .frame g n (.forward fromPeerId (some h.peerId) data) ∈ tr) :
      Origin tr h (.forward fromPeerId (some h.peerId) data)
  | broadcast {g : PeerHandler PeerID} {n fromPeerId data}
      (hframe : .frame g n (.forward fromPeerId none data) ∈ tr) :
      Origin tr h (.forward g.peerId (some h.peerId) data)

section Runs

variable {fromStr : String → Option (PeerRequest PeerID)} {ls : List (ServerAction PeerID)}
  {s : ServerState PeerID} {tr : List (ServerEvent PeerID)}

/-- What a broadcast says is news of a connection, or a frame asks for it. -/
theorem asked_of_snapshot (hrun : (server fromStr).Run ls s tr) {k : CallId PeerID}
    {b : Broadcast PeerID} {ids : List PeerID} (hsnapshot : .app (.snapshot k b ids) ∈ tr) :
    (∃ g, Joined tr g ∧ b.data = .newPeer g.peerId) ∨
      ∃ g n fromPeerId, .frame g n (.forward fromPeerId none b.data) ∈ tr ∧
        b.fromPeerId = g.peerId := by
  obtain ⟨as, happ⟩ := server_refines_appState hrun
  obtain ⟨call, hcalled, hb⟩ := broadcasts_of_snapshot happ (mem_filterMap_app.mpr hsnapshot)
  have hmem := mem_filterMap_app.mp hcalled
  have hmade := (callsOf_of_run hrun).madeBy k call hmem
  cases hb with
  | newPeer handler id =>
      cases hmade
      exact Or.inl ⟨handler, hmem, rfl⟩
  | forward fromPeerId connectionPeerId data =>
      cases hmade with
      | forwards hframe => exact Or.inr ⟨_, _, fromPeerId, hframe, rfl⟩
  | except => cases hmade

theorem origin_of_given (hrun : (server fromStr).Run ls s tr) {h : PeerHandler PeerID}
    {request : PeerRequest PeerID} (hgiven : request ∈ given tr h) : Origin tr h request := by
  obtain ⟨as, happ⟩ := server_refines_appState hrun
  have hcount := count_enqueued_le happ h request
  have hdue : request ∈ deliveries (tr.filterMap ServerEvent.app?) h :=
    List.count_pos_iff.mp ((List.count_pos_iff.mpr hgiven).trans_le hcount)
  obtain ⟨fromPeerId, data, rfl⟩ := to_of_mem_deliveries hdue
  obtain ⟨e, he, howed⟩ := List.mem_filterMap.mp hdue
  rcases owed_eq_some howed with hunicast | ⟨k, b, ids, rfl, hids⟩
  · unfold Event.unicast at hunicast
    split at hunicast
    case h_1 k fromPeerId' connectionPeerId toPeerId data' =>
        cases hunicast
        have hmade := (callsOf_of_run hrun).madeBy k _ (mem_filterMap_app.mp he)
        cases hmade with
        | forwards hframe => exact .unicast hframe
    case h_2 => cases hunicast
  · rw [hids]
    rcases asked_of_snapshot hrun (mem_filterMap_app.mp he) with
      ⟨g, hcalled, hdata⟩ | ⟨g, n, asked, hframe, hfrom⟩
    · rw [hdata]
      exact .joined _ hcalled
    · rw [hfrom]
      exact .broadcast hframe

/-- A request that is no news and that no frame broadcasts is enqueued at most as often as
frames ask for it. -/
theorem count_given_le (hrun : (server fromStr).Run ls s tr) (h : PeerHandler PeerID)
    {request : PeerRequest PeerID}
    (hbroadcast : ∀ k b ids, .app (.snapshot k b ids) ∈ tr →
      request ≠ .forward b.fromPeerId (some h.peerId) b.data) :
    (given tr h).count request ≤ ((frameRequests tr).map Prod.snd).count request := by
  obtain ⟨as, happ⟩ := server_refines_appState hrun
  calc
    (given tr h).count request
        ≤ (deliveries (tr.filterMap ServerEvent.app?) h).count request :=
      count_enqueued_le happ h request
    _ ≤ (unicastRequests (tr.filterMap ServerEvent.app?)).count request :=
      count_deliveries_le fun k b ids hmem => hbroadcast k b ids (mem_filterMap_app.mp hmem)
    _ ≤ ((frameRequests tr).map Prod.snd).count request := (callsOf_of_run hrun).unicasts request

end Runs

end SfRs.Server
