import SfRs.Lib.Ledger
import SfRs.Server.Registration
/-!
# The order of forwarded requests

Every request is sent by a task of its own, and tasks run in any order.  The requests of
one connection reach a peer in the order of its frames in exactly the runs in which no
task overtakes one that an earlier frame of the connection spawned for that peer.
-/

set_option linter.unusedSectionVars false

namespace SfRs.Server

open SfRs.Lib SfRs.Protocol

variable {PeerID : Type} [DecidableEq PeerID]

/-- `t₁` forwards an earlier frame of the same connection to the same handler as `t₂`.
Call `0` is the connection's `add_peer`, which forwards no frame. -/
def Earlier (t₁ t₂ : SendTask PeerID (CallId PeerID)) : Prop :=
  t₁.caller.1 = t₂.caller.1 ∧ t₁.handler = t₂.handler ∧ 0 < t₁.caller.2 ∧
    t₁.caller.2 < t₂.caller.2

/-- The handler is registered and its receiver is open. -/
def ServerState.Receiving (s : ServerState PeerID) (h : PeerHandler PeerID) : Prop :=
  (s.app.channels h).closed = false ∧ s.app.peers.lookup h.peerId = some h

/-- What an earlier frame sent to a receiving peer is enqueued before what a later frame
sent to it. -/
def InOrder (s : ServerState PeerID) (tr : List (ServerEvent PeerID)) : Prop :=
  ∀ t₁ t₂, Earlier t₁ t₂ → s.Receiving t₂.handler → .app (.spawned t₁) ∈ tr →
    .app (.enqueued t₂) ∈ tr → [.app (.enqueued t₁), .app (.enqueued t₂)].Sublist tr

/-- The task that runs overtakes none of an earlier frame. -/
def NoOvertaking (s : ServerState PeerID) : ServerAction PeerID → Prop
  | .runTask i => ∀ task, s.app.tasks[i]? = some task → s.Receiving task.handler →
      ∀ t ∈ s.app.tasks, ¬ Earlier t task
  | _ => True

/-- The connection is past its insert, or never inserts. -/
def ServerState.Joined (s : ServerState PeerID) (h : PeerHandler PeerID) : Prop :=
  match s.conns h with
  | .absent => False
  | .adding => ∃ pc, s.app.calls (h, 0) = some pc ∧ pc.Inserted
  | _ => True

/-- A bound on the numbers of the calls a connection has made. -/
def ConnState.next : ConnState PeerID → Option Nat
  | .absent => some 0
  | .adding => some 0
  | .serving n => some n
  | .writing n _ => some n
  | .dispatching n => some n
  | .removing n => some n
  | .gone => none

structure Ordered (s : ServerState PeerID) (tr : List (ServerEvent PeerID)) : Prop where
  waiting : ∀ h, Waiting s h
  entry : ∀ id h, s.app.peers.lookup id = some h → s.Joined h
  enqueued : ∀ t, .app (.enqueued t) ∈ tr → .app (.spawned t) ∈ tr
  tasks : ∀ t ∈ s.app.tasks, .app (.spawned t) ∈ tr ∧ .app (.enqueued t) ∉ tr
  nodup : s.app.tasks.Nodup
  ids : ∀ t, .app (.spawned t) ∈ tr → t.id < s.app.spawned
  target : ∀ t, .app (.spawned t) ∈ tr → s.Joined t.handler
  settled : ∀ t, .app (.spawned t) ∈ tr → (s.app.channels t.handler).closed = false →
    .app (.enqueued t) ∈ tr ∨ t ∈ s.app.tasks
  numbers : ∀ t n, .app (.spawned t) ∈ tr → (s.conns t.caller.1).next = some n →
    t.caller.2 ≤ n
  inOrder : InOrder s tr

/-! ## What a step can change -/

/-- Nothing a step does un-joins a connection, reopens a channel or lowers a call
number, and a handler becomes registered only as its connection joins. -/
structure Moves (s s' : ServerState PeerID) : Prop where
  joined : ∀ h, s.Joined h → s'.Joined h
  next : ∀ h n', (s'.conns h).next = some n' → ∃ n ≤ n', (s.conns h).next = some n
  opened : ∀ h, (s'.app.channels h).closed = false → (s.app.channels h).closed = false
  registered : ∀ id h, s'.app.peers.lookup id = some h →
    s.app.peers.lookup id = some h ∨ ¬ s.Joined h ∧ s'.Joined h

theorem joined_of_same {s s' : ServerState PeerID} {h : PeerHandler PeerID}
    (hconns : s'.conns h = s.conns h) (hcalls : SameCalls s s' h) :
    s'.Joined h ↔ s.Joined h := by
  unfold ServerState.Joined
  rw [hconns]
  split
  case h_1 => rfl
  case h_2 =>
      rcases hcalls 0 with hcall | ⟨peerId, hcall⟩
      · rw [hcall]
      · simp [hcall, Option.map_eq_some_iff, inserted_forget]
  case h_3 => rfl

theorem joined_of_loopAt {s : ServerState PeerID} {h : PeerHandler PeerID} {n : Nat}
    (hloop : LoopAt n (s.conns h)) : s.Joined h := by
  unfold ServerState.Joined
  generalize s.conns h = conn at hloop
  cases hloop <;> trivial

theorem next_of_loopAt {n : Nat} {conn : ConnState PeerID} (hloop : LoopAt n conn) :
    conn.next = some n := by
  cases hloop <;> rfl

/-- Where a connection waits for a call, whether it has joined is read off the call. -/
theorem joined_iff_of_waits {s : ServerState PeerID} {h : PeerHandler PeerID} {n : Nat}
    {call : Call PeerID} {pc : Pc PeerID} (hwaits : WaitsFor h (s.conns h) n call)
    (hpc : s.app.calls (h, n) = some pc) :
    s.Joined h ↔ (call = .addPeer h → pc.Inserted) := by
  unfold ServerState.Joined
  generalize s.conns h = conn at hwaits
  cases hwaits with
  | adding => simp [hpc]
  | dispatching | removing => simp

theorem Moves.of_conn {s s' : ServerState PeerID} {h : PeerHandler PeerID}
    {l : ServerAction PeerID} {es : List (ServerEvent PeerID)} (hconn : ConnSteps s s' h l es)
    (hjoined : s.Joined h → s'.Joined h)
    (hnext : ∀ n', (s'.conns h).next = some n' → ∃ n ≤ n', (s.conns h).next = some n)
    (hopened : ∀ g, (s'.app.channels g).closed = false → (s.app.channels g).closed = false)
    (hregistered : ∀ id g, s'.app.peers.lookup id = some g →
      s.app.peers.lookup id = some g ∨ ¬ s.Joined g ∧ s'.Joined g) : Moves s s' := by
  refine ⟨fun g => ?_, fun g => ?_, hopened, hregistered⟩
  · by_cases hg : g = h
    · rwa [hg]
    · exact (joined_of_same (hconn.others hg).1 (hconn.others hg).2).mpr
  · by_cases hg : g = h
    · rwa [hg]
    · rw [(hconn.others hg).1]
      exact fun n' hn' => ⟨n', le_rfl, hn'⟩

theorem Moves.advance (choice : Choice PeerID) {s s' : ServerState PeerID}
    {h : PeerHandler PeerID} {n : Nat} {pc : Pc PeerID}
    {es : List (Event PeerID (CallId PeerID))} (hwaiting : Waiting s h)
    (hcurrent : (s.conns h).currentCall = some n) (hpc : s.app.calls (h, n) = some pc)
    (hadvance : AppState.Advances s.app (h, n) pc s'.app es) (hconns : s'.conns = s.conns) :
    Moves s s' := by
  obtain ⟨call, pc₀, hwaits, hpc₀, hat⟩ := hwaiting n hcurrent
  obtain rfl : pc = pc₀ := Option.some.inj (hpc.symm.trans hpc₀)
  obtain ⟨pc', hpc', hat'⟩ := hat.advance hadvance
  have hwaits' : WaitsFor h (s'.conns h) n call := by rwa [hconns]
  have hjoined := joined_iff_of_waits hwaits hpc
  have hjoined' := joined_iff_of_waits hwaits' hpc'
  have hconn : ConnSteps s s' h (.advance h choice) (es.map .app) :=
    .advance hcurrent hpc hadvance hconns
  refine Moves.of_conn hconn ?_ ?_ ?_ ?_
  · rw [hjoined, hjoined']
    exact fun hinserted hcall => inserted_of_advance hadvance (hinserted hcall) hpc'
  · rw [hconns]
    exact fun n' hn' => ⟨n', le_rfl, hn'⟩
  · rw [hadvance.frame.1]
    exact fun _ hopen => hopen
  · intro id g hg
    generalize happ : s'.app = app at hadvance hg hpc'
    cases hadvance with
    | quiet _ hsame => exact Or.inl (by simpa [hsame.peers] using hg)
    | vacant | iter | snapshot | removeAbsent => exact Or.inl (by simpa using hg)
    | sendEach | sendSingle => exact Or.inl (by simpa using hg)
    | remove _ peerId =>
        by_cases hid : id = peerId
        · subst hid
          simp [AppState.removeEntry] at hg
        · refine Or.inl ?_
          rwa [AppState.setCall_peers, AppState.removeEntry, AList.lookup_erase_ne hid] at hg
    | insert handler =>
        cases hat with
        | insert =>
            by_cases hid : id = handler.peerId
            · subst hid
              rw [AppState.setCall_peers, AList.lookup_insert, Option.some.injEq] at hg
              subst hg
              rw [AppState.setCall_calls_self, Option.some.injEq] at hpc'
              subst hpc'
              obtain rfl : handler = h := by
                generalize s.conns h = conn at hwaits
                cases hwaits with
                | adding => rfl
              exact Or.inr ⟨fun hj => hjoined.mp hj rfl, hjoined'.mpr fun _ => trivial⟩
            · refine Or.inl ?_
              rwa [AppState.setCall_peers, AList.lookup_insert_ne hid] at hg

theorem ConnSteps.moves {s s' : ServerState PeerID} {h : PeerHandler PeerID}
    {l : ServerAction PeerID} {es : List (ServerEvent PeerID)}
    (hconn : ConnSteps s s' h l es) (hwaiting : Waiting s h) : Moves s s' := by
  have hstep := hconn
  have hsame : s'.app.peers = s.app.peers → ∀ id g, s'.app.peers.lookup id = some g →
      s.app.peers.lookup id = some g ∨ ¬ s.Joined g ∧ s'.Joined g :=
    fun heq id g hg => Or.inl (heq ▸ hg)
  cases hconn with
  | start _ hstarts _ happ hconns =>
      refine Moves.of_conn hstep ?_ ?_ (by simp [happ]) (hsame (by rw [happ]; rfl))
      · unfold ServerState.Joined
        rw [hconns, Function.update_self]
        generalize s.conns h = conn at hstarts
        cases hstarts with
        | accept => exact fun hfalse => hfalse.elim
        | forward | leave => exact fun _ => trivial
      · rw [hconns, Function.update_self]
        generalize s.conns h = conn at hstarts
        intro n' hn'
        cases hstarts with
        | accept => exact ⟨0, Nat.zero_le _, rfl⟩
        | forward n => exact ⟨n', le_rfl, hn'⟩
        | leave n hloop => exact ⟨n', le_rfl, (next_of_loopAt hloop).trans hn'⟩
  | @advance choice _ _ _ hcurrent hpc hadvance hconns =>
      exact Moves.advance choice hwaiting hcurrent hpc hadvance hconns
  | @resume n hresumes happ hconns =>
      refine Moves.of_conn hstep ?_ ?_ (by simp [happ]) (hsame (by rw [happ]))
      · intro _
        unfold ServerState.Joined
        rw [hconns, Function.update_self]
        trivial
      · rw [hconns, Function.update_self]
        generalize s.conns h = conn at hresumes
        intro n' hn'
        obtain rfl : n = n' := Option.some.inj hn'
        cases hresumes with
        | added => exact ⟨0, Nat.zero_le _, rfl⟩
        | dispatched m => exact ⟨m, Nat.le_succ m, rfl⟩
  | finish hends happ hconns =>
      refine Moves.of_conn hstep ?_ ?_ ?_ (hsame (by rw [happ]; rfl))
      · intro _
        unfold ServerState.Joined
        rw [hconns, Function.update_self]
        trivial
      · rw [hconns, Function.update_self]
        intro n' hn'
        cases hn'
      · intro g hg
        by_cases hgh : g = h
        · simp [happ, AppState.setChannel, hgh] at hg
        · simpa [happ, AppState.setChannel, hgh] using hg
  | @loop _ n m conn' _ _ hloop hloop' hle happ hconns =>
      have hafter : LoopAt m (s'.conns h) := by rwa [hconns, Function.update_self]
      refine Moves.of_conn hstep ?_ ?_ (by simp [happ]) (hsame (by rw [happ]))
      · exact fun _ => joined_of_loopAt hafter
      · rw [next_of_loopAt hafter, next_of_loopAt hloop]
        intro n' hn'
        cases hn'
        exact ⟨n, hle, rfl⟩
  | @recv n channel request hloop hclosed happ hconns =>
      have hafter : LoopAt n (s'.conns h) := by
        rw [hconns, Function.update_self]
        exact .writing request
      refine Moves.of_conn hstep ?_ ?_ ?_ (hsame (by rw [happ]; rfl))
      · exact fun _ => joined_of_loopAt hafter
      · rw [next_of_loopAt hafter, next_of_loopAt hloop]
        exact fun n' hn' => ⟨n', le_rfl, hn'⟩
      · intro g hg
        by_cases hgh : g = h
        · subst hgh
          rw [← hclosed]
          simpa [happ, AppState.setChannel] using hg
        · simpa [happ, AppState.setChannel, hgh] using hg

theorem Moves.receiving {s s' : ServerState PeerID} {h : PeerHandler PeerID}
    (hmoves : Moves s s') (hreceiving : s'.Receiving h) : s.Receiving h ∨ ¬ s.Joined h := by
  rcases hmoves.registered _ _ hreceiving.2 with hlookup | ⟨hnot, -⟩
  · exact Or.inl ⟨hmoves.opened h hreceiving.1, hlookup⟩
  · exact Or.inr hnot

/-- A step of a connection spawns nothing, or one task for a registered handler. -/
inductive ConnSpawns (s s' : ServerState PeerID) (h : PeerHandler PeerID) :
    List (ServerEvent PeerID) → Prop
  | none {es} (htasks : s'.app.tasks = s.app.tasks) (hspawned : s'.app.spawned = s.app.spawned)
      (hnew : ∀ t, .app (.spawned t) ∉ es) (henqueued : ∀ t, .app (.enqueued t) ∉ es) :
      ConnSpawns s s' h es
  | one {n toPeerId} {task : SendTask PeerID (CallId PeerID)} (hid : task.id = s.app.spawned)
      (hcurrent : (s.conns h).currentCall = some n) (hcaller : task.caller = (h, n))
      (hfound : s.app.peers.lookup toPeerId = some task.handler)
      (htasks : s'.app.tasks = s.app.tasks ++ [task])
      (hspawned : s'.app.spawned = s.app.spawned + 1) :
      ConnSpawns s s' h
        [.app (.lookup (h, n) toPeerId (some task.handler)), .app (.spawned task)]

theorem ConnSteps.spawns {s s' : ServerState PeerID} {h : PeerHandler PeerID}
    {l : ServerAction PeerID} {es : List (ServerEvent PeerID)}
    (hconn : ConnSteps s s' h l es) (hwaiting : Waiting s h) : ConnSpawns s s' h es := by
  cases hconn with
  | start _ hstarts _ happ =>
      generalize s.conns h = conn at hstarts
      refine .none (by rw [happ]; rfl) (by rw [happ]; rfl) ?_ ?_
      · cases hstarts <;> simp
      · cases hstarts <;> simp
  | advance hcurrent hpc hadvance =>
      obtain ⟨call, pc₀, -, hpc₀, hat⟩ := hwaiting _ hcurrent
      obtain rfl : _ = pc₀ := Option.some.inj (hpc.symm.trans hpc₀)
      have henqueued := hadvance.frame.2.1
      cases hat.spawns hadvance with
      | none htasks hspawned hes =>
          exact .none htasks hspawned (by simpa using hes) (by simpa using henqueued)
      | one hid hcaller _ toPeerId hfound htasks hspawned hes =>
          subst hes
          exact .one hid hcurrent hcaller hfound htasks hspawned
  | resume _ happ => exact .none (by rw [happ]) (by rw [happ]) (by simp) (by simp)
  | finish _ happ => exact .none (by rw [happ]; rfl) (by rw [happ]; rfl) (by simp) (by simp)
  | loop _ _ _ _ happ _ hes =>
      refine .none (by rw [happ]) (by rw [happ]) (fun t hmem => ?_) (fun t hmem => ?_)
      · rcases hes _ hmem with ⟨_, heq⟩ | ⟨_, heq⟩ <;> cases heq
      · rcases hes _ hmem with ⟨_, heq⟩ | ⟨_, heq⟩ <;> cases heq
  | recv _ _ happ => exact .none (by rw [happ]; rfl) (by rw [happ]; rfl) (by simp) (by simp)

/-! ## One step -/

section Step

variable {s s' : ServerState PeerID} {tr es : List (ServerEvent PeerID)}
  {h : PeerHandler PeerID}

theorem Ordered.entry_of_moves (hord : Ordered s tr) (hmoves : Moves s s') :
    ∀ id g, s'.app.peers.lookup id = some g → s'.Joined g := by
  intro id g hg
  rcases hmoves.registered id g hg with hlookup | ⟨-, hjoined⟩
  · exact hmoves.joined g (hord.entry id g hlookup)
  · exact hjoined

theorem Ordered.numbers_of_moves (hord : Ordered s tr) (hmoves : Moves s s')
    {t : SendTask PeerID (CallId PeerID)} {n' : Nat} (hsp : .app (.spawned t) ∈ tr)
    (hn' : (s'.conns t.caller.1).next = some n') : t.caller.2 ≤ n' := by
  obtain ⟨n, hle, hn⟩ := hmoves.next _ n' hn'
  exact (hord.numbers t n hsp hn).trans hle

/-- What was sent in order stays in order. -/
theorem Ordered.inOrder_of_old (hord : Ordered s tr) (hmoves : Moves s s')
    {t₁ t₂ : SendTask PeerID (CallId PeerID)} (hearlier : Earlier t₁ t₂)
    (hreceiving : s'.Receiving t₂.handler) (hsp : .app (.spawned t₁) ∈ tr)
    (henq : .app (.enqueued t₂) ∈ tr) :
    [.app (.enqueued t₁), .app (.enqueued t₂)].Sublist (tr ++ es) := by
  rcases hmoves.receiving hreceiving with hbefore | hnot
  · have hsub := hord.inOrder t₁ t₂ hearlier hbefore hsp henq
    exact hsub.trans (List.sublist_append_left _ _)
  · exact absurd (hearlier.2.1 ▸ hord.target t₁ hsp) hnot

/-- A step that neither spawns nor enqueues. -/
theorem Ordered.frame (hord : Ordered s tr) (hmoves : Moves s s')
    (hwaiting : ∀ h, Waiting s' h) (htasks : s'.app.tasks = s.app.tasks)
    (hspawned : s'.app.spawned = s.app.spawned) (hnew : ∀ t, .app (.spawned t) ∉ es)
    (henqueued : ∀ t, .app (.enqueued t) ∉ es) : Ordered s' (tr ++ es) := by
  have hold : ∀ {t}, .app (.spawned t) ∈ tr ++ es → .app (.spawned t) ∈ tr := fun hmem =>
    (List.mem_append.mp hmem).resolve_right (hnew _)
  have hold' : ∀ {t}, .app (.enqueued t) ∈ tr ++ es → .app (.enqueued t) ∈ tr := fun hmem =>
    (List.mem_append.mp hmem).resolve_right (henqueued _)
  constructor
  · exact hwaiting
  · exact hord.entry_of_moves hmoves
  · exact fun t hmem => List.mem_append_left _ (hord.enqueued t (hold' hmem))
  · intro t hmem
    rw [htasks] at hmem
    obtain ⟨hsp, hnot⟩ := hord.tasks t hmem
    exact ⟨List.mem_append_left _ hsp, fun henq => hnot (hold' henq)⟩
  · rw [htasks]
    exact hord.nodup
  · rw [hspawned]
    exact fun t hmem => hord.ids t (hold hmem)
  · exact fun t hmem => hmoves.joined _ (hord.target t (hold hmem))
  · intro t hmem hopen
    rw [htasks]
    rcases hord.settled t (hold hmem) (hmoves.opened _ hopen) with henq | htask
    · exact Or.inl (List.mem_append_left _ henq)
    · exact Or.inr htask
  · exact fun t n' hmem hn' => hord.numbers_of_moves hmoves (hold hmem) hn'
  · intro t₁ t₂ hearlier hreceiving hsp henq
    exact hord.inOrder_of_old hmoves hearlier hreceiving (hold hsp) (hold' henq)

/-- The current call of `h` spawns a task. -/
theorem Ordered.spawn {n : Nat} {toPeerId : PeerID} {task : SendTask PeerID (CallId PeerID)}
    (hord : Ordered s tr) (hmoves : Moves s s') (hwaiting : ∀ h, Waiting s' h)
    (hid : task.id = s.app.spawned) (hcurrent : (s.conns h).currentCall = some n)
    (hcaller : task.caller = (h, n))
    (hfound : s.app.peers.lookup toPeerId = some task.handler)
    (htasks : s'.app.tasks = s.app.tasks ++ [task])
    (hspawned : s'.app.spawned = s.app.spawned + 1) :
    Ordered s' (tr ++ [.app (.lookup (h, n) toPeerId (some task.handler)),
      .app (.spawned task)]) := by
  have hnext : (s.conns h).next = some n := by
    generalize s.conns h = conn at hcurrent
    cases conn <;> first | exact hcurrent | cases hcurrent
  have hfresh : .app (.spawned task) ∉ tr := fun hmem =>
    absurd (hord.ids task hmem) (by omega)
  have hold : ∀ {t}, .app (.spawned t) ∈ tr ++ [.app (.lookup (h, n) toPeerId
      (some task.handler)), .app (.spawned task)] → .app (.spawned t) ∈ tr ∨ t = task := by
    intro t hmem
    simpa using hmem
  have hold' : ∀ {t}, .app (.enqueued t) ∈ tr ++ [.app (.lookup (h, n) toPeerId
      (some task.handler)), .app (.spawned task)] → .app (.enqueued t) ∈ tr := by
    intro t hmem
    simpa using hmem
  constructor
  · exact hwaiting
  · exact hord.entry_of_moves hmoves
  · exact fun t hmem => List.mem_append_left _ (hord.enqueued t (hold' hmem))
  · intro t hmem
    rw [htasks] at hmem
    rcases List.mem_append.mp hmem with hmem | hmem
    · obtain ⟨hsp, hnot⟩ := hord.tasks t hmem
      exact ⟨List.mem_append_left _ hsp, fun henq => hnot (hold' henq)⟩
    · obtain rfl := List.mem_singleton.mp hmem
      exact ⟨by simp, fun henq => hfresh (hord.enqueued t (hold' henq))⟩
  · rw [htasks]
    refine List.nodup_append.mpr ⟨hord.nodup, List.nodup_singleton task, fun t ht t' ht' => ?_⟩
    obtain rfl := List.mem_singleton.mp ht'
    exact fun heq => hfresh (heq ▸ (hord.tasks t ht).1)
  · intro t hmem
    rw [hspawned]
    rcases hold hmem with hmem | rfl
    · exact Nat.lt_succ_of_lt (hord.ids t hmem)
    · omega
  · intro t hmem
    rcases hold hmem with hmem | rfl
    · exact hmoves.joined _ (hord.target t hmem)
    · exact hmoves.joined _ (hord.entry toPeerId _ hfound)
  · intro t hmem hopen
    rw [htasks]
    rcases hold hmem with hmem | rfl
    · rcases hord.settled t hmem (hmoves.opened _ hopen) with henq | htask
      · exact Or.inl (List.mem_append_left _ henq)
      · exact Or.inr (List.mem_append_left _ htask)
    · exact Or.inr (by simp)
  · intro t n' hmem hn'
    rcases hold hmem with hmem | rfl
    · exact hord.numbers_of_moves hmoves hmem hn'
    · obtain ⟨m, hle, hm⟩ := hmoves.next _ n' hn'
      rw [hcaller] at hm ⊢
      obtain rfl : n = m := Option.some.inj (hnext.symm.trans hm)
      exact hle
  · intro t₁ t₂ hearlier hreceiving hsp henq
    have henq' := hold' henq
    rcases hold hsp with hsp | rfl
    · exact hord.inOrder_of_old hmoves hearlier hreceiving hsp henq'
    · -- the new task comes from the last call so far, so nothing later is enqueued
      obtain ⟨hconn, -, -, hlt⟩ := hearlier
      rw [hcaller] at hconn hlt
      have hle := hord.numbers t₂ n (hord.enqueued t₂ henq') (by rw [← hconn]; exact hnext)
      omega

theorem Ordered.runTask {i : Nat} {task : SendTask PeerID (CallId PeerID)}
    {e : Event PeerID (CallId PeerID)} (hord : Ordered s tr) (hmoves : Moves s s')
    (hwaiting : ∀ h, Waiting s' h) (htask : s.app.tasks[i]? = some task)
    (htasks : s'.app.tasks = s.app.tasks.eraseIdx i)
    (hspawned : s'.app.spawned = s.app.spawned)
    (he : e = .dropped task ∧ (s.app.channels task.handler).closed = true ∨
      e = .enqueued task ∧ (s'.Receiving task.handler →
        ∀ t ∈ s.app.tasks, ¬ Earlier t task)) : Ordered s' (tr ++ [.app e]) := by
  have hold : ∀ {t}, .app (.spawned t) ∈ tr ++ [.app e] → .app (.spawned t) ∈ tr := by
    intro t hmem
    rcases he with ⟨rfl, -⟩ | ⟨rfl, -⟩ <;> simpa using hmem
  have hold' : ∀ {t}, .app (.enqueued t) ∈ tr ++ [.app e] →
      .app (.enqueued t) ∈ tr ∨ t = task := by
    intro t hmem
    rcases he with ⟨rfl, -⟩ | ⟨rfl, -⟩
    · exact Or.inl (by simpa using hmem)
    · simpa using hmem
  obtain ⟨hspawn, -⟩ := hord.tasks task (List.mem_of_getElem? htask)
  constructor
  · exact hwaiting
  · exact hord.entry_of_moves hmoves
  · intro t henq
    rcases hold' henq with henq | rfl
    · exact List.mem_append_left _ (hord.enqueued t henq)
    · exact List.mem_append_left _ hspawn
  · intro t hmem
    rw [htasks] at hmem
    obtain ⟨hsp, hnot⟩ := hord.tasks t (List.mem_of_mem_eraseIdx hmem)
    refine ⟨List.mem_append_left _ hsp, fun henq => ?_⟩
    rcases hold' henq with henq | rfl
    · exact hnot henq
    · exact not_mem_eraseIdx htask hord.nodup hmem
  · rw [htasks]
    exact hord.nodup.sublist (List.eraseIdx_sublist _ _)
  · rw [hspawned]
    exact fun t hmem => hord.ids t (hold hmem)
  · exact fun t hmem => hmoves.joined _ (hord.target t (hold hmem))
  · intro t hmem hopen
    have hopen' := hmoves.opened _ hopen
    rw [htasks]
    rcases hord.settled t (hold hmem) hopen' with henq | hpending
    · exact Or.inl (List.mem_append_left _ henq)
    · by_cases ht : t = task
      · subst ht
        rcases he with ⟨-, hclosed⟩ | ⟨rfl, -⟩
        · rw [hopen'] at hclosed
          cases hclosed
        · exact Or.inl (by simp)
      · exact Or.inr (mem_eraseIdx_of_ne htask hpending ht)
  · exact fun t n' hmem hn' => hord.numbers_of_moves hmoves (hold hmem) hn'
  · intro t₁ t₂ hlt hreceiving hsp henq
    rcases he with ⟨rfl, -⟩ | ⟨rfl, hnone⟩
    · exact hord.inOrder_of_old hmoves hlt hreceiving (hold hsp) (by simpa using henq)
    · rcases hold' henq with henq | rfl
      · exact hord.inOrder_of_old hmoves hlt hreceiving (hold hsp) henq
      · have hopen : (s.app.channels t₁.handler).closed = false := by
          rw [hlt.2.1]
          exact hmoves.opened _ hreceiving.1
        have henq₁ : .app (.enqueued t₁) ∈ tr :=
          (hord.settled t₁ (hold hsp) hopen).resolve_right
            fun hpending => hnone hreceiving t₁ hpending hlt
        exact (List.singleton_sublist.mpr henq₁).append (List.Sublist.refl _)

theorem Ordered.step {l : ServerAction PeerID} (hord : Ordered s tr)
    (hsteps : ServerSteps s s' l es) (hok : NoOvertaking s l) : Ordered s' (tr ++ es) := by
  have hwaiting := hsteps.waiting hord.waiting
  cases hsteps with
  | @conn h _ _ hconn =>
      have hmoves := hconn.moves (hord.waiting h)
      cases hconn.spawns (hord.waiting h) with
      | none htasks hspawned hnew henqueued =>
          exact hord.frame hmoves hwaiting htasks hspawned hnew henqueued
      | one hid hcurrent hcaller hfound htasks hspawned =>
          exact hord.spawn hmoves hwaiting hid hcurrent hcaller hfound htasks hspawned
  | @drop i task htask hclosed happ hconns =>
      have hmoves : Moves s s' := by
        refine ⟨fun g => ?_, fun g n' hn' => ⟨n', le_rfl, by rwa [← hconns]⟩, ?_, ?_⟩
        · exact (joined_of_same (by rw [hconns]) (sameCalls_of_eq (by rw [happ]))).mpr
        · simp [happ]
        · exact fun id g hg => Or.inl (by rwa [happ] at hg)
      exact hord.runTask hmoves hwaiting htask (by rw [happ]) (by rw [happ])
        (Or.inl ⟨rfl, hclosed⟩)
  | @enqueue i task htask hopen happ hconns =>
      have hpeers : s'.app.peers = s.app.peers := by rw [happ]; rfl
      have hopened : ∀ g, (s'.app.channels g).closed = (s.app.channels g).closed := by
        intro g
        by_cases hg : g = task.handler
        · simp [happ, AppState.enqueue, hg]
        · simp [happ, AppState.enqueue, hg]
      have hmoves : Moves s s' := by
        refine ⟨fun g => ?_, fun g n' hn' => ⟨n', le_rfl, by rwa [← hconns]⟩, ?_, ?_⟩
        · exact (joined_of_same (by rw [hconns]) (sameCalls_of_eq (by rw [happ]; rfl))).mpr
        · exact fun g hg => by rwa [← hopened]
        · exact fun id g hg => Or.inl (by rwa [hpeers] at hg)
      refine hord.runTask hmoves hwaiting htask (by rw [happ]; rfl) (by rw [happ]; rfl)
        (Or.inr ⟨rfl, fun hreceiving => hok task htask ?_⟩)
      exact ⟨by rw [← hopened]; exact hreceiving.1, by rw [← hpeers]; exact hreceiving.2⟩

/-- A task that overtakes breaks the order at once. -/
theorem Ordered.break {l : ServerAction PeerID} (hord : Ordered s tr)
    (hsteps : ServerSteps s s' l es) (hnot : ¬ NoOvertaking s l) :
    ¬ InOrder s' (tr ++ es) := by
  intro hinOrder
  cases l with
  | runTask i =>
      refine hnot fun task htask hreceiving t hmem hearlier => ?_
      obtain ⟨hspawn, hpending⟩ := hord.tasks t hmem
      cases hsteps with
      | conn hconn =>
          cases hconn with
          | start hl | loop hl => exact hl
      | drop htask' hclosed =>
          obtain rfl : task = _ := Option.some.inj (htask.symm.trans htask')
          rw [hreceiving.1] at hclosed
          cases hclosed
      | enqueue htask' hopen happ =>
          obtain rfl : task = _ := Option.some.inj (htask.symm.trans htask')
          have hreceiving' : s'.Receiving task.handler := by
            refine ⟨?_, by rw [happ]; exact hreceiving.2⟩
            simpa [happ, AppState.enqueue] using hopen
          have hsub := hinOrder t task hearlier hreceiving' (List.mem_append_left _ hspawn)
            (by simp)
          have henq : .app (.enqueued t) ∈ tr ++ [.app (.enqueued task)] :=
            hsub.subset List.mem_cons_self
          have hne : t ≠ task := fun heq => by
            have hlt := hearlier.2.2.2
            rw [heq] at hlt
            exact Nat.lt_irrefl _ hlt
          exact hpending (by simpa [hne] using henq)
  | _ => exact hnot trivial

end Step

theorem ordered_init : Ordered (ServerState.init : ServerState PeerID) [] := by
  constructor <;> simp [ServerState.init, AppState.init, Waiting, ConnState.currentCall, InOrder]

/-- Requests stay in order throughout a run if and only if no task of the run overtakes a
request of an earlier frame. -/
theorem always_inOrder_iff (fromStr : String → Option (PeerRequest PeerID))
    (ls : List (ServerAction PeerID)) :
    (server fromStr).Always InOrder ls ↔ (server fromStr).StepsMeet NoOvertaking ls :=
  Machine.always_iff_stepsMeet ordered_init
    (fun _ _ _ _ _ hord hok hstep => hord.step (serverSteps_of_step hstep) hok)
    (fun _ _ hord => hord.inOrder)
    (fun _ _ _ _ _ hord hnot hstep => hord.break (serverSteps_of_step hstep) hnot) ls

/-- An offer of peer `01` for peer `02`, as JSON. -/
def offerText : String :=
  "\x7b\"forward\":\x7b\"from_peer_id\":[1,1],\"to_peer_id\":[1,2],\"data\":\x7b" ++
    "\"web_rtc_offer\":\x7b\"peer_id\":[1,2],\"session_description\":" ++
    "\x7b\"sdp\":\"v=0\",\"sdp_type\":\"Offer\"\x7d\x7d\x7d\x7d\x7d"

/-- A candidate of peer `01` for peer `02`, as JSON. -/
def candidateText : String :=
  "\x7b\"forward\":\x7b\"from_peer_id\":[1,1],\"to_peer_id\":[1,2],\"data\":\x7b" ++
    "\"web_rtc_candidate\":\x7b\"peer_id\":[1,2],\"candidate\":\x7b\"candidate\":" ++
    "\"host\",\"sdp_m_line_index\":null,\"sdp_mid\":null\x7d\x7d\x7d\x7d\x7d"

def offerRequest : PeerRequest PeerId.PeerID :=
  .forward (.ofByte 1) (some (.ofByte 2)) (.webRtcOffer (.ofByte 2) ⟨"v=0", .offer⟩)

def candidateRequest : PeerRequest PeerId.PeerID :=
  .forward (.ofByte 1) (some (.ofByte 2))
    (.webRtcCandidate (.ofByte 2) ⟨some "host", none, none⟩)

/-- The parser, on the two frames. -/
def parseOffer (raw : String) : Option (PeerRequest PeerId.PeerID) :=
  if raw = offerText then some offerRequest
  else if raw = candidateText then some candidateRequest
  else none

/-- The task of a candidate runs before that of the offer it follows. -/
theorem not_always_inOrder_candidate :
    ¬ ∀ (fromStr : String → Option (PeerRequest PeerId.PeerID)) ls,
      (server fromStr).Always InOrder ls := by
  intro halways
  let h : PeerHandler PeerId.PeerID := ⟨.ofByte 1, 1, 32⟩
  let g : PeerHandler PeerId.PeerID := ⟨.ofByte 2, 2, 32⟩
  let ls : List (ServerAction PeerId.PeerID) := joinSteps h ++ joinSteps g ++
    [.inbound h (some (.text offerText)), .advance h .go, .advance h .go, .resume h,
      .inbound h (some (.text candidateText)), .advance h .go, .runTask 1]
  let offer : SendTask PeerId.PeerID (CallId PeerId.PeerID) := ⟨0, (h, 1), g, offerRequest⟩
  let candidate : SendTask PeerId.PeerID (CallId PeerId.PeerID) :=
    ⟨1, (h, 2), g, candidateRequest⟩
  have hexec : ((server parseOffer).exec ls).map (fun r =>
      ((r.1.app.channels g).closed, r.1.app.peers.lookup g.peerId,
        decide (.app (.spawned offer) ∈ r.2), decide (.app (.enqueued offer) ∈ r.2),
        decide (.app (.enqueued candidate) ∈ r.2))) =
      some (false, some g, true, false, true) := by decide +kernel
  obtain ⟨⟨s, tr⟩, hrun, hproj⟩ := Option.map_eq_some_iff.mp hexec
  simp only [Prod.mk.injEq, decide_eq_true_eq, decide_eq_false_iff_not] at hproj
  obtain ⟨hopen, hlookup, hspawned, hnot, henqueued⟩ := hproj
  have hsub := halways _ _ _ List.prefix_rfl s tr (Machine.run_of_exec hrun) offer candidate
    ⟨rfl, rfl, by decide, by decide⟩ ⟨hopen, hlookup⟩ hspawned henqueued
  exact hnot (hsub.subset List.mem_cons_self)

end SfRs.Server
