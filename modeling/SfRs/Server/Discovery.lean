import SfRs.Lib.Ledger
import SfRs.PeerId.Random
import SfRs.Server.Calls
import SfRs.Server.PeerCount
import SfRs.Server.Routing
/-!
# Peers discover each other when they join

A run in which peers only join.  A call of `add_peer` collects the ids of the registry
after it has inserted its own, and no entry is ever removed, so it collects and finds
every peer inserted before its own.  `Progress` says so at each position of the call, and
the ledger of `Routing` turns it into what the channels hold.
-/

set_option linter.unusedSectionVars false

namespace SfRs.Server

open SfRs.Lib SfRs.Protocol AppState

variable {PeerID κ : Type} [DecidableEq PeerID] [DecidableEq κ]
  {key : PeerId.PeerID → PeerID} {s s' : AppState PeerID κ} {tr es : List (Event PeerID κ)}
  {k k' : κ} {p q : PeerHandler PeerID} {pc : Pc PeerID}

/-- The actions of a run in which peers only join and no receiver closes.  The registry
identifies ids by `key`, and `PeerID::random` draws from some seed. -/
def Action.Joins (key : PeerId.PeerID → PeerID) : Action PeerID κ → Prop
  | .call _ (.addPeer _) => True
  | .call _ _ => False
  | .advance _ (.random id) =>
      ∃ seed res, PeerId.random 32 seed = .done res ∧ id = res.toOption.map key
  | .advance _ _ | .runTask _ | .recv _ => True
  | .close _ => False

/-- The handlers of the calls of `add_peer`, in the order the calls were made. -/
def joiners (tr : List (Event PeerID κ)) : List (PeerHandler PeerID) :=
  tr.filterMap fun
    | .called _ (.addPeer handler) => some handler
    | _ => none

/-- `q` is inserted, and `p` no later than `q`. -/
def Precedes (tr : List (Event PeerID κ)) (p q : PeerHandler PeerID) : Prop :=
  ∃ k', .inserted k' q ∈ tr ∧ (p = q ∨ ∃ k, [.inserted k p, .inserted k' q].Sublist tr)

/-- The request tells of the peer `peerId` that joined. -/
def announces (peerId : PeerID) : PeerRequest PeerID → Bool
  | .forward _ _ (.newPeer joined) => joined = peerId
  | _ => false

theorem mem_joiners : q ∈ joiners tr ↔ ∃ k, .called k (.addPeer q) ∈ tr := by
  simp only [joiners, List.mem_filterMap]
  constructor
  · rintro ⟨e, he, hq⟩
    split at hq
    case h_1 k _ =>
        cases hq
        exact ⟨k, he⟩
    case h_2 => cases hq
  · rintro ⟨k, he⟩
    exact ⟨_, he, rfl⟩

theorem joiners_append (tr es : List (Event PeerID κ)) :
    joiners (tr ++ es) = joiners tr ++ joiners es := by
  simp [joiners, List.filterMap_append]

/-! ## The order of the inserts -/

/-- Events that do not insert `q` leave what was inserted before it. -/
theorem Precedes.of_append (h : Precedes (tr ++ es) p q) (hes : ∀ k, .inserted k q ∉ es) :
    Precedes tr p q := by
  obtain ⟨k', hq, hp⟩ := h
  refine ⟨k', (List.mem_append.mp hq).resolve_right (hes k'), hp.imp_right ?_⟩
  rintro ⟨k, hsub⟩
  exact ⟨k, pair_sublist_of_append hsub (hes k')⟩

theorem Precedes.inserted (h : Precedes tr p q) :
    (∃ k, .inserted k p ∈ tr) ∧ ∃ k, .inserted k q ∈ tr := by
  obtain ⟨k', hq, rfl | ⟨k, hsub⟩⟩ := h
  · exact ⟨⟨k', hq⟩, k', hq⟩
  · exact ⟨⟨k, hsub.subset List.mem_cons_self⟩, k', hq⟩

/-- Of two inserted peers one is inserted no later than the other. -/
theorem precedes_total (hp : .inserted k p ∈ tr) (hq : .inserted k' q ∈ tr) :
    Precedes tr p q ∨ Precedes tr q p := by
  rcases pair_sublist_total hp hq with heq | hsub | hsub
  · cases heq
    exact Or.inl ⟨k, hp, Or.inl rfl⟩
  · exact Or.inl ⟨k', hq, Or.inr ⟨k, hsub⟩⟩
  · exact Or.inr ⟨k, hp, Or.inr ⟨k', hsub⟩⟩

/-- The calls of `add_peer` are for pairwise distinct ids. -/
def DistinctIds (tr : List (Event PeerID κ)) : Prop :=
  ((joiners tr).map (·.peerId)).Nodup

theorem DistinctIds.of_append (h : DistinctIds (tr ++ es)) : DistinctIds tr := by
  rw [DistinctIds, joiners_append, List.map_append] at h
  exact (List.nodup_append.mp h).1

theorem DistinctIds.unique (h : DistinctIds tr) (hp : .called k (.addPeer p) ∈ tr)
    (hq : .called k' (.addPeer q) ∈ tr) (hid : p.peerId = q.peerId) : k = k' ∧ p = q := by
  rw [DistinctIds, joiners, List.map_filterMap] at h
  have heq := eq_of_filterMap_nodup h hp hq (x := q.peerId) (by simp [hid]) (by simp)
  cases heq
  exact ⟨rfl, rfl⟩

/-! ## What a call has found out -/

/-- The call `k` has collected every peer inserted no later than `q`, and has found those
that are not among the ids `todo`. -/
def Finds (tr : List (Event PeerID κ)) (k : κ) (q : PeerHandler PeerID)
    (todo : List PeerID) : Prop :=
  ∃ b done, (Call.addPeer q).Broadcasts b ∧ .snapshot k b (done ++ todo) ∈ tr ∧
    ∀ p, Precedes tr p q → p.peerId ∈ done ++ todo ∧
      (p.peerId ∈ done → .lookup k p.peerId (some p) ∈ tr)

/-- What holds when the call `k` of `add_peer` for `q` is at a position. -/
def Progress (tr : List (Event PeerID κ)) (k : κ) (q : PeerHandler PeerID) :
    Pc PeerID → Prop
  | .containsKey _ | .insert _ => ∀ k', .inserted k' q ∉ tr
  | .incrementPeerCount _ | .randomId _ | .iter _ => .inserted k q ∈ tr
  | .collect _ due _ => .inserted k q ∈ tr ∧ ∀ p, Precedes tr p q → p.peerId ∈ due
  | .forEach b ids => .inserted k q ∈ tr ∧ b.exclude = none ∧ Finds tr k q ids
  | .returned => .inserted k q ∈ tr ∧ Finds tr k q []
  | _ => False

theorem Finds.append {todo : List PeerID} (h : Finds tr k q todo)
    (hes : ∀ k, .inserted k q ∉ es) : Finds (tr ++ es) k q todo := by
  obtain ⟨b, done, hb, hsnapshot, hfound⟩ := h
  refine ⟨b, done, hb, List.mem_append_left _ hsnapshot, fun p hp => ?_⟩
  obtain ⟨hmem, hlookup⟩ := hfound p (hp.of_append hes)
  exact ⟨hmem, fun hdone => List.mem_append_left _ (hlookup hdone)⟩

/-- Steps that do not insert `q` leave what its call has found out. -/
theorem Progress.append (h : Progress tr k q pc) (hes : ∀ k, .inserted k q ∉ es) :
    Progress (tr ++ es) k q pc := by
  unfold Progress at h ⊢
  split at h
  case h_1 | h_2 =>
      intro k' hmem
      exact (List.mem_append.mp hmem).elim (h k') (hes k')
  case h_3 | h_4 | h_5 => exact List.mem_append_left _ h
  case h_6 => exact ⟨List.mem_append_left _ h.1, fun p hp => h.2 p (hp.of_append hes)⟩
  case h_7 => exact ⟨List.mem_append_left _ h.1, h.2.1, h.2.2.append hes⟩
  case h_8 => exact ⟨List.mem_append_left _ h.1, h.2.append hes⟩
  case h_9 => exact h

/-! ## One step of a run in which peers only join -/

structure Joining (s : AppState PeerID κ) (tr : List (Event PeerID κ)) : Prop where
  adds : ∀ k call, .called k call ∈ tr → ∃ q, call = .addPeer q
  inserted : ∀ k q, .inserted k q ∈ tr →
    .called k (.addPeer q) ∈ tr ∧ s.peers.lookup q.peerId = some q
  entries : ∀ id q, s.peers.lookup id = some q → ∃ k, .inserted k q ∈ tr
  progress : ∀ k q pc, .called k (.addPeer q) ∈ tr → s.calls k = some pc → Progress tr k q pc
  opened : ∀ h, (s.channels h).closed = false
  dropped : ∀ task, .dropped task ∉ tr

/-- The event starts no call, inserts no peer and loses no request. -/
def Event.Keeps : Event PeerID κ → Prop
  | .called _ _ | .inserted _ _ | .dropped _ => False
  | _ => True

theorem Joining.keep (hjoining : Joining s tr) (hpeers : s'.peers = s.peers)
    (hes : ∀ e ∈ es, e.Keeps)
    (hprogress : ∀ k q pc, .called k (.addPeer q) ∈ tr → s'.calls k = some pc →
      Progress (tr ++ es) k q pc)
    (hopened : ∀ h, (s'.channels h).closed = false) : Joining s' (tr ++ es) := by
  have hcalled : ∀ {k call}, .called k call ∈ tr ++ es → .called k call ∈ tr := fun hmem =>
    (List.mem_append.mp hmem).resolve_right fun h => hes _ h
  constructor
  · exact fun k call hmem => hjoining.adds k call (hcalled hmem)
  · intro k q hmem
    have hold := (List.mem_append.mp hmem).resolve_right fun h => hes _ h
    obtain ⟨hcall, hlookup⟩ := hjoining.inserted k q hold
    exact ⟨List.mem_append_left _ hcall, by rwa [hpeers]⟩
  · intro id q hlookup
    rw [hpeers] at hlookup
    obtain ⟨k, hk⟩ := hjoining.entries id q hlookup
    exact ⟨k, List.mem_append_left _ hk⟩
  · exact fun k q pc hmem hpc => hprogress k q pc (hcalled hmem) hpc
  · exact hopened
  · intro task hmem
    exact (List.mem_append.mp hmem).elim (hjoining.dropped task) fun h => hes _ h

/-- The event is one that a call finds out. -/
def Event.Looks : Event PeerID κ → Prop
  | .snapshot _ _ _ | .lookup _ _ _ | .spawned _ => True
  | _ => False

theorem keeps_of_looks (hes : ∀ e ∈ es, e.Looks) : ∀ e ∈ es, e.Keeps := by
  intro e he
  cases e with
  | snapshot | lookup | spawned => trivial
  | _ => exact (hes _ he).elim

/-- A call moves on without touching the registry or the channels. -/
theorem Joining.setCall {s₁ : AppState PeerID κ} (hjoining : Joining s tr)
    (htraced : Traced s tr) (hcall : .called k (.addPeer q) ∈ tr) (hcalls : s₁.calls = s.calls)
    (hpeers : s₁.peers = s.peers) (hchannels : s₁.channels = s.channels)
    (hes : ∀ e ∈ es, e.Looks) (hprogress : Progress (tr ++ es) k q pc) :
    Joining (s₁.setCall k pc) (tr ++ es) := by
  have hkeeps := keeps_of_looks hes
  refine hjoining.keep hpeers hkeeps (fun k' q' pc' hcall' hpc' => ?_) fun h => ?_
  · by_cases hk : k' = k
    · subst hk
      obtain rfl : q' = q := by simpa using htraced.unique k' _ _ hcall' hcall
      obtain rfl : pc = pc' := by simpa using hpc'
      exact hprogress
    · rw [setCall_calls_of_ne _ hk, hcalls] at hpc'
      exact (hjoining.progress k' q' pc' hcall' hpc').append fun k₀ hmem => hkeeps _ hmem
  · rw [setCall_channels, hchannels]
    exact hjoining.opened h

/-- No entry has the id of a peer that is not inserted yet. -/
theorem Joining.vacant (hjoining : Joining s tr) (hrouted : Routed s tr)
    (hdistinct : DistinctIds tr) (hcall : .called k (.addPeer q) ∈ tr)
    (hnot : ∀ k', .inserted k' q ∉ tr) : s.peers.lookup q.peerId = none := by
  by_contra hfound
  obtain ⟨p, hlookup⟩ := Option.ne_none_iff_exists'.mp hfound
  have hid : p.peerId = q.peerId := hrouted.entries q.peerId p hlookup
  obtain ⟨k', hinserted⟩ := hjoining.entries _ p hlookup
  obtain ⟨-, rfl⟩ := hdistinct.unique (hjoining.inserted k' p hinserted).1 hcall hid
  exact hnot k' hinserted

theorem advance_containsKey {choice : Choice PeerID}
    (h : s.advance k (.containsKey q) choice = some (s', es))
    (hvacant : s.peers.lookup q.peerId = none) : s' = s.setCall k (.insert q) ∧ es = [] := by
  cases choice with
  | go =>
      simp only [AppState.advance, hvacant, Option.isSome_none, Bool.false_eq_true, if_false,
        Option.some.injEq, Prod.mk.injEq] at h
      exact ⟨h.1.symm, h.2.symm⟩
  | random | visit | stop => cases h

/-- The random id of the announcement is always drawn. -/
theorem advance_randomId {choice : Choice PeerID}
    (h : s.advance k (.randomId q) choice = some (s', es))
    (hjoins : (Action.advance k choice).Joins key) :
    ∃ b, (Call.addPeer q).Broadcasts b ∧ s' = s.setCall k (.iter b) ∧ es = [] := by
  cases choice with
  | random id =>
      obtain ⟨seed, res, hres, rfl⟩ := hjoins
      obtain ⟨drawn, hdrawn⟩ := PeerId.random_ok seed
      rw [hdrawn] at hres
      cases hres
      cases h
      exact ⟨_, .newPeer q _, rfl, rfl⟩
  | go | visit | stop => cases h

/-- The call `k` inserts `q`. -/
theorem Joining.insert (hjoining : Joining s tr) (htraced : Traced s tr)
    (hdistinct : DistinctIds tr) (hcall : .called k (.addPeer q) ∈ tr)
    (hnot : ∀ k', .inserted k' q ∉ tr) :
    Joining ({ s with peers := s.peers.insert q.peerId q }.setCall k (.incrementPeerCount q))
      (tr ++ [.inserted k q]) := by
  constructor
  · exact fun k' call hmem => hjoining.adds k' call (by simpa using hmem)
  · intro k' q' hmem
    by_cases hold : .inserted k' q' ∈ tr
    · obtain ⟨hcall', hlookup⟩ := hjoining.inserted k' q' hold
      refine ⟨List.mem_append_left _ hcall', ?_⟩
      have hid : q'.peerId ≠ q.peerId := fun heq =>
        hnot k' ((hdistinct.unique hcall' hcall heq).2 ▸ hold)
      rw [setCall_peers, AList.lookup_insert_ne hid]
      exact hlookup
    · obtain ⟨rfl, rfl⟩ : k' = k ∧ q' = q := by simpa [hold] using hmem
      exact ⟨List.mem_append_left _ hcall, AList.lookup_insert _⟩
  · intro id p hlookup
    rw [setCall_peers] at hlookup
    by_cases hid : id = q.peerId
    · subst hid
      obtain rfl : q = p := by simpa using hlookup
      exact ⟨k, by simp⟩
    · rw [AList.lookup_insert_ne hid] at hlookup
      obtain ⟨k', hk'⟩ := hjoining.entries id p hlookup
      exact ⟨k', List.mem_append_left _ hk'⟩
  · intro k' q' pc' hmem hpc'
    have hcall' : .called k' (.addPeer q') ∈ tr := by simpa using hmem
    by_cases hk : k' = k
    · subst hk
      obtain rfl : q' = q := by simpa using htraced.unique k' _ _ hcall' hcall
      obtain rfl : .incrementPeerCount q' = pc' := by simpa using hpc'
      show .inserted k' q' ∈ tr ++ [.inserted k' q']
      simp
    · rw [setCall_calls_of_ne _ hk] at hpc'
      have hne : q' ≠ q := fun heq =>
        hk (hdistinct.unique hcall' hcall (congrArg PeerHandler.peerId heq)).1
      exact (hjoining.progress k' q' pc' hcall' hpc').append (by simp [hne])
  · exact hjoining.opened
  · exact fun task hmem => hjoining.dropped task (by simpa using hmem)

theorem sendForward_looks (s : AppState PeerID κ) (k : κ) (fromPeerId toPeerId : PeerID)
    (data : PeerEvent PeerID) : ∀ e ∈ (s.sendForward k fromPeerId toPeerId data).2, e.Looks := by
  intro e he
  rcases sendForward_events he with ⟨found, rfl⟩ | ⟨task, rfl⟩ <;> trivial

/-- The loop of the broadcast looks up the next id, and finds the peer if it was inserted
no later than `q`. -/
theorem Joining.finds_next (hjoining : Joining s tr) {b : Broadcast PeerID} {pid : PeerID}
    {ids : List PeerID} (hfinds : Finds tr k q (pid :: ids)) :
    Finds (tr ++ (s.sendForward k b.fromPeerId pid b.data).2) k q ids := by
  have hlooks := sendForward_looks s k b.fromPeerId pid b.data
  obtain ⟨b', done, hb, hsnapshot, hfound⟩ := hfinds
  refine ⟨b', done ++ [pid], hb, List.mem_append_left _ (by simpa using hsnapshot),
    fun p hp => ?_⟩
  have hp' := hp.of_append fun k₀ hmem => hlooks _ hmem
  obtain ⟨hmem, hlookup⟩ := hfound p hp'
  refine ⟨by simpa using hmem, fun hdone => ?_⟩
  rcases List.mem_append.mp hdone with hdone | hpid
  · exact List.mem_append_left _ (hlookup hdone)
  · obtain rfl : p.peerId = pid := List.mem_singleton.mp hpid
    obtain ⟨⟨kp, hinserted⟩, -⟩ := hp'.inserted
    obtain ⟨-, hentry⟩ := hjoining.inserted kp p hinserted
    rw [sendForward_of_found hentry]
    simp

theorem exclude_of_broadcasts {b : Broadcast PeerID} (hb : (Call.addPeer q).Broadcasts b) :
    b.exclude = none := by
  cases hb
  rfl

theorem Joining.advance {choice : Choice PeerID} (hjoining : Joining s tr)
    (htraced : Traced s tr) (hrouted : Routed s tr) (hdistinct : DistinctIds tr)
    (hpc : s.calls k = some pc) (hjoins : (Action.advance k choice).Joins key)
    (hstep : s.advance k pc choice = some (s', es)) : Joining s' (tr ++ es) := by
  obtain ⟨call, hcall, hat⟩ := htraced.at_pc k pc hpc
  obtain ⟨q, rfl⟩ := hjoining.adds k call hcall
  have hprogress := hjoining.progress k q pc hcall hpc
  have hinserted : .inserted k q ∈ tr → ∀ {es : List (Event PeerID κ)},
      .inserted k q ∈ tr ++ es := fun h _ => List.mem_append_left _ h
  cases hat with
  | containsKey =>
      have hvacant := hjoining.vacant hrouted hdistinct hcall hprogress
      obtain ⟨rfl, rfl⟩ := advance_containsKey hstep hvacant
      refine hjoining.setCall htraced hcall rfl rfl rfl (by simp) ?_
      rw [List.append_nil]
      exact hprogress
  | insert =>
      cases advances_of_advance hstep with
      | quiet hquiet => cases hquiet
      | insert => exact hjoining.insert htraced hdistinct hcall hprogress
  | incrementPeerCount =>
      cases advances_of_advance hstep with
      | quiet hquiet hsame =>
          cases hquiet with
          | incremented =>
              exact hjoining.setCall htraced hcall hsame.calls hsame.peers hsame.channels
                (by simp) (hinserted hprogress)
  | randomId =>
      obtain ⟨b, hb, rfl, rfl⟩ := advance_randomId hstep hjoins
      exact hjoining.setCall htraced hcall rfl rfl rfl (by simp) (hinserted hprogress)
  | failed => exact absurd hprogress id
  | iter hb =>
      cases advances_of_advance hstep with
      | quiet hquiet => cases hquiet
      | iter b =>
          refine hjoining.setCall htraced hcall rfl rfl rfl (by simp)
            ⟨hinserted hprogress, fun p hp => ?_⟩
          rw [List.append_nil] at hp
          obtain ⟨⟨kp, hp⟩, -⟩ := hp.inserted
          obtain ⟨-, hentry⟩ := hjoining.inserted kp p hp
          exact AList.lookup_isSome.mp (by rw [hentry]; rfl)
  | collect hb due seen =>
      obtain ⟨hq, hdue⟩ := hprogress
      cases advances_of_advance hstep with
      | quiet hquiet hsame =>
          cases hquiet with
          | visited =>
              refine hjoining.setCall htraced hcall hsame.calls hsame.peers hsame.channels
                (by simp) ⟨hinserted hq, fun p hp => ?_⟩
              rw [List.append_nil] at hp
              exact hdue p hp
      | snapshot _ _ _ hall =>
          refine hjoining.setCall htraced hcall rfl rfl rfl (by simp [Event.Looks])
            ⟨hinserted hq, exclude_of_broadcasts hb, _, [], hb, by simp, fun p hp => ?_⟩
          exact ⟨hall (hdue p (hp.of_append (by simp))), by simp⟩
  | forEach hb ids =>
      obtain ⟨hq, hexclude, hfinds⟩ := hprogress
      cases advances_of_advance hstep with
      | quiet hquiet hsame =>
          cases hquiet with
          | swept =>
              refine hjoining.setCall htraced hcall hsame.calls hsame.peers hsame.channels
                (by simp) ⟨hinserted hq, ?_⟩
              rwa [List.append_nil]
          | skipped _ _ _ hskip =>
              rw [hexclude] at hskip
              cases hskip
      | sendEach b pid ids =>
          exact hjoining.setCall htraced hcall (by simp) (by simp) (by simp)
            (sendForward_looks _ _ _ _ _)
            ⟨hinserted hq, hexclude, hjoining.finds_next hfinds⟩
  | returned =>
      cases advances_of_advance hstep with
      | quiet hquiet => cases hquiet

theorem Joining.call (hjoining : Joining s tr) (htraced : Traced s tr)
    (hdistinct : DistinctIds (tr ++ [.called k (.addPeer q)])) (hfresh : s.calls k = none) :
    Joining (s.setCall k (.containsKey q)) (tr ++ [.called k (.addPeer q)]) := by
  have hnew : ∀ call, .called k call ∉ tr := fun call hmem => htraced.fresh k call hmem hfresh
  constructor
  · intro k' call hmem
    rcases List.mem_append.mp hmem with hmem | hmem
    · exact hjoining.adds k' call hmem
    · cases List.mem_singleton.mp hmem
      exact ⟨q, rfl⟩
  · intro k' p hmem
    obtain ⟨hcall, hlookup⟩ := hjoining.inserted k' p (by simpa using hmem)
    exact ⟨List.mem_append_left _ hcall, hlookup⟩
  · intro id p hlookup
    obtain ⟨k', hk'⟩ := hjoining.entries id p hlookup
    exact ⟨k', List.mem_append_left _ hk'⟩
  · intro k' q' pc' hmem hpc'
    by_cases hk : k' = k
    · subst hk
      obtain rfl : q' = q := by simpa [hnew] using hmem
      obtain rfl : .containsKey q' = pc' := by simpa using hpc'
      intro k₀ hinserted
      obtain ⟨hcall, -⟩ := hjoining.inserted k₀ q' (by simpa using hinserted)
      obtain ⟨rfl, -⟩ := hdistinct.unique (List.mem_append_left _ hcall) hmem rfl
      exact hnew _ hcall
    · rw [setCall_calls_of_ne _ hk] at hpc'
      exact (hjoining.progress k' q' pc' (by simpa [hk] using hmem) hpc').append (by simp)
  · exact hjoining.opened
  · exact fun task hmem => hjoining.dropped task (by simpa using hmem)

theorem Joining.step {a : Action PeerID κ} (hjoining : Joining s tr) (htraced : Traced s tr)
    (hrouted : Routed s tr) (hdistinct : DistinctIds (tr ++ es)) (hjoins : a.Joins key)
    (hstep : s.step a = some (s', es)) : Joining s' (tr ++ es) := by
  have hprogress : s'.calls = s.calls → (∀ k q, .inserted k q ∉ es) → ∀ k q pc,
      .called k (.addPeer q) ∈ tr → s'.calls k = some pc → Progress (tr ++ es) k q pc := by
    intro hcalls hes k q pc hcall hpc
    rw [hcalls] at hpc
    exact (hjoining.progress k q pc hcall hpc).append fun k' => hes k' q
  cases a with
  | call k call =>
      cases steps_of_step hstep with
      | call _ _ hfresh =>
          cases call with
          | addPeer q => exact hjoining.call htraced hdistinct hfresh
          | removePeer | handleForward | broadcastForwardExcept => exact absurd hjoins id
  | advance k choice =>
      simp only [AppState.step, Option.bind_eq_some_iff] at hstep
      obtain ⟨pc, hpc, hadvance⟩ := hstep
      exact hjoining.advance htraced hrouted hdistinct.of_append hpc hjoins hadvance
  | runTask i =>
      cases steps_of_step hstep with
      | drop _ task htask hclosed =>
          rw [hjoining.opened] at hclosed
          cases hclosed
      | enqueue _ task htask hopen =>
          refine hjoining.keep rfl (by simp [Event.Keeps]) (hprogress rfl (by simp)) fun h => ?_
          by_cases hh : h = task.handler
          · simpa [enqueue, hh] using hopen
          · simpa [enqueue, hh] using hjoining.opened h
  | recv handler =>
      cases steps_of_step hstep with
      | recv _ channel request hclosed hqueue =>
          refine hjoining.keep rfl (by simp [Event.Keeps]) (hprogress rfl (by simp)) fun h => ?_
          by_cases hh : h = handler
          · subst hh
            simpa [setChannel, hclosed] using hjoining.opened h
          · simpa [setChannel, hh] using hjoining.opened h
  | close => exact absurd hjoins id

theorem joining_of_run {as : List (Action PeerID κ)} (hrun : (appState PeerID κ).Run as s tr)
    (hjoins : ∀ a ∈ as, a.Joins key) (hdistinct : DistinctIds tr) : Joining s tr := by
  induction hrun with
  | nil => constructor <;> simp [appState, AppState.init]
  | snoc hrun hstep ih =>
      have hprev := ih (fun a ha => hjoins a (List.mem_append_left _ ha)) hdistinct.of_append
      exact hprev.step (traced_of_run hrun) (routed_of_run hrun) hdistinct (hjoins _ (by simp))
        hstep

/-! ## When all calls have returned -/

/-- What the peers were told once all of them have joined. -/
structure Discovered (s : AppState PeerID κ) (tr : List (Event PeerID κ)) : Prop where
  registered : ∀ q ∈ joiners tr, s.peers.lookup q.peerId = some q
  atMostOnce : ∀ p peerId, (held s tr p).countP (announces peerId) ≤ 1
  exactlyOnce : ∀ p q, Precedes tr p q → (held s tr p).countP (announces q.peerId) = 1
  oneTold : ∀ p q, s.peers.lookup p.peerId = some p → s.peers.lookup q.peerId = some q →
    (held s tr p).countP (announces q.peerId) = 1 ∨
      (held s tr q).countP (announces p.peerId) = 1
  addressed : ∀ p, ∀ request ∈ held s tr p, ∃ fromPeerId, ∃ q ∈ joiners tr,
    request = .forward fromPeerId (some p.peerId) (.newPeer q.peerId)

theorem CallInv.countP_le {pc : Option (Pc PeerID)} (h : CallInv tr k pc) :
    tr.countP (·.origin = some k) ≤ 1 := by
  unfold CallInv at h
  split at h
  case h_1 | h_3 => exact h.1
  case h_2 | h_7 => exact h.1.le.trans (Nat.zero_le 1)
  case h_4 | h_5 | h_6 => exact h

section Settled

variable (hjoining : Joining s tr) (htraced : Traced s tr) (hrouted : Routed s tr)
  (hreturned : ∀ k call, ¬ s.InProgress tr k call)

include hjoining htraced hreturned

theorem progress_of_settled (hcall : .called k (.addPeer q) ∈ tr) :
    .inserted k q ∈ tr ∧ Finds tr k q [] := by
  obtain ⟨pc, hpc⟩ := Option.ne_none_iff_exists'.mp (htraced.fresh k _ hcall)
  have hprogress := hjoining.progress k q pc hcall hpc
  have hended : pc = .returned ∨ ∃ e, pc = .failed e := by
    by_contra hnot
    simp only [not_or, not_exists] at hnot
    exact hreturned k _ ⟨hcall, by simpa [hpc] using hnot.1, by simpa [hpc] using hnot.2⟩
  rcases hended with rfl | ⟨e, rfl⟩
  · exact hprogress
  · exact absurd hprogress id

include hrouted

/-- The call behind a snapshot, and whom it found. -/
theorem snapshot_of_settled {b : Broadcast PeerID} {ids : List PeerID}
    (hsnapshot : .snapshot k b ids ∈ tr) :
    ∃ q, .called k (.addPeer q) ∈ tr ∧ (Call.addPeer q).Broadcasts b ∧
      ∀ p, Precedes tr p q → p.peerId ∈ ids ∧ .lookup k p.peerId (some p) ∈ tr := by
  have hcallInv := hrouted.calls k
  cases hpc : s.calls k with
  | none =>
      rw [hpc] at hcallInv
      have hno := List.countP_eq_zero.mp hcallInv.1 _ hsnapshot
      simp [Event.origin] at hno
  | some pc =>
      obtain ⟨call, hcall, -⟩ := htraced.at_pc k pc hpc
      obtain ⟨q, rfl⟩ := hjoining.adds k call hcall
      obtain ⟨-, b', done, hb, hsnapshot', hfound⟩ :=
        progress_of_settled hjoining htraced hreturned hcall
      have heq := eq_of_countP_le_one hcallInv.countP_le hsnapshot hsnapshot'
        (by simp [Event.origin]) (by simp [Event.origin])
      cases heq
      refine ⟨q, hcall, hb, fun p hp => ?_⟩
      obtain ⟨hmem, hlookup⟩ := hfound p hp
      exact ⟨hmem, hlookup (by simpa using hmem)⟩

/-- What is owed to `p` is an announcement by the call of a peer that joined. -/
theorem owed_of_settled {e : Event PeerID κ} {request : PeerRequest PeerID} (he : e ∈ tr)
    (howed : owed tr p e = some request) :
    ∃ k q id, e.origin = some k ∧ .called k (.addPeer q) ∈ tr ∧
      request = .forward id (some p.peerId) (.newPeer q.peerId) := by
  unfold owed at howed
  split at howed
  case h_1 k _ _ _ _ =>
      obtain ⟨q, hq⟩ := hjoining.adds k _ he
      cases hq
  case h_2 k b ids =>
      obtain ⟨q, hcall, hb, -⟩ :=
        snapshot_of_settled hjoining htraced hrouted hreturned he
      split at howed
      case isTrue =>
          cases howed
          cases hb
          exact ⟨k, q, _, rfl, hcall, rfl⟩
      case isFalse => cases howed
  case h_3 => cases howed

theorem countP_deliveries_le (hdistinct : DistinctIds tr) (p : PeerHandler PeerID)
    (peerId : PeerID) : (deliveries tr p).countP (announces peerId) ≤ 1 := by
  rcases Nat.eq_zero_or_pos ((deliveries tr p).countP (announces peerId)) with hzero | hpos
  · omega
  · have horigin : ∀ e ∈ tr, ((owed tr p e).map (announces peerId)).getD false →
        ∃ k q, e.origin = some k ∧ .called k (.addPeer q) ∈ tr ∧ q.peerId = peerId := by
      intro e he hannounces
      cases howed : owed tr p e with
      | none => simp [howed] at hannounces
      | some request =>
          obtain ⟨k, q, id, horigin, hcall, rfl⟩ :=
            owed_of_settled hjoining htraced hrouted hreturned he howed
          refine ⟨k, q, horigin, hcall, ?_⟩
          simpa [howed, announces] using hannounces
    rw [deliveries, List.countP_filterMap] at hpos ⊢
    obtain ⟨e, he, hannounces⟩ := List.countP_pos_iff.mp hpos
    obtain ⟨k, q, -, hcall, hid⟩ := horigin e he hannounces
    -- every such event belongs to the call of the one peer with this id
    refine (List.countP_mono_left fun e' he' hannounces' => ?_).trans (hrouted.calls k).countP_le
    obtain ⟨k', q', horigin', hcall', hid'⟩ := horigin e' he' hannounces'
    obtain ⟨rfl, -⟩ := hdistinct.unique hcall' hcall (hid'.trans hid.symm)
    simpa using horigin'

theorem countP_deliveries_pos (hp : Precedes tr p q) :
    0 < (deliveries tr p).countP (announces q.peerId) := by
  obtain ⟨-, k, hinserted⟩ := hp.inserted
  obtain ⟨hcall, -⟩ := hjoining.inserted k q hinserted
  obtain ⟨-, b, done, hb, hsnapshot, hfound⟩ :=
    progress_of_settled hjoining htraced hreturned hcall
  obtain ⟨hmem, hlookup⟩ := hfound p hp
  have hfinds := hlookup (by simpa using hmem)
  rw [deliveries, List.countP_filterMap]
  refine List.countP_pos_iff.mpr ⟨_, hsnapshot, ?_⟩
  have hmem' : p.peerId ∈ done := by simpa using hmem
  cases hb
  simp [owed, hmem', hfinds, announces]

end Settled

/-- In every run in which peers with pairwise distinct ids join, once all calls have
returned and all spawned tasks have run: a channel holds at most one announcement of each
peer, and exactly one of each peer inserted no earlier than its own. -/
theorem run_discovers {as : List (Action PeerID κ)} (hrun : (appState PeerID κ).Run as s tr)
    (hjoins : ∀ a ∈ as, a.Joins key) (hdistinct : DistinctIds tr)
    (hreturned : ∀ k call, ¬ s.InProgress tr k call) (htasks : s.tasks = []) :
    Discovered s tr := by
  have hjoining := joining_of_run hrun hjoins hdistinct
  have htraced := traced_of_run hrun
  have hrouted := routed_of_run hrun
  have hperm : ∀ p, (held s tr p).Perm (deliveries tr p) := by
    intro p
    have hdropped : dropped tr p = [] := by
      refine List.filterMap_eq_nil_iff.mpr fun e he => ?_
      cases e with
      | dropped task => exact absurd he (hjoining.dropped task)
      | _ => rfl
    have hbalanced := hrouted.balanced p
    have hheld : held s tr p = enqueued tr p := (filled_of_run hrun p).opened (hjoining.opened p)
    rw [hheld, ← Multiset.coe_eq_coe, ← hbalanced, htasks, hdropped]
    simp [pending]
  have hle := countP_deliveries_le hjoining htraced hrouted hreturned hdistinct
  have hone : ∀ p q, Precedes tr p q → (held s tr p).countP (announces q.peerId) = 1 := by
    intro p q hp
    have hpos := countP_deliveries_pos hjoining htraced hrouted hreturned hp
    rw [(hperm p).countP_eq]
    exact le_antisymm (hle p q.peerId) hpos
  constructor
  · intro q hq
    obtain ⟨k, hcall⟩ := mem_joiners.mp hq
    have hinserted := (progress_of_settled hjoining htraced hreturned hcall).1
    exact (hjoining.inserted k q hinserted).2
  · intro p peerId
    rw [(hperm p).countP_eq]
    exact hle p peerId
  · exact hone
  · intro p q hp hq
    obtain ⟨k, hk⟩ := hjoining.entries _ p hp
    obtain ⟨k', hk'⟩ := hjoining.entries _ q hq
    exact (precedes_total hk hk').imp (hone p q) (hone q p)
  · intro p request hmem
    obtain ⟨e, he, howed⟩ := List.mem_filterMap.mp ((hperm p).mem_iff.mp hmem)
    obtain ⟨k, q, id, -, hcall, rfl⟩ :=
      owed_of_settled hjoining htraced hrouted hreturned he howed
    exact ⟨id, q, mem_joiners.mpr ⟨k, hcall⟩, rfl⟩

/-- `01` and `02` join, and each is inserted before the other has collected its snapshot.
The ids of the announcements are drawn from the seed zero. -/
def overlapRun (h g : PeerHandler PeerId.PeerID) : List (Action PeerId.PeerID Nat) :=
  let id : PeerId.PeerID := ⟨32, Vector.replicate 32 0⟩
  [.call 0 (.addPeer h), .call 1 (.addPeer g), .advance 0 .go, .advance 0 .go,
    .advance 0 .go, .advance 1 .go, .advance 1 .go, .advance 1 .go,
    .advance 0 (.random (some id)), .advance 0 .go, .advance 0 (.visit h.peerId),
    .advance 0 (.visit g.peerId), .advance 0 .stop, .advance 0 .go, .advance 0 .go,
    .advance 0 .go, .advance 1 (.random (some id)), .advance 1 .go,
    .advance 1 (.visit g.peerId), .advance 1 (.visit h.peerId), .advance 1 .stop,
    .advance 1 .go, .advance 1 .go, .advance 1 .go, .runTask 0, .runTask 0, .runTask 0,
    .runTask 0, .recv h]

theorem run_discovers_overlap :
    let h : PeerHandler PeerId.PeerID := ⟨.ofByte 1, 0, 32⟩
    let g : PeerHandler PeerId.PeerID := ⟨.ofByte 2, 1, 32⟩
    ∃ s tr, (appState PeerId.PeerID Nat).Run (overlapRun h g) s tr ∧ Precedes tr h g ∧
      (held s tr h).countP (announces g.peerId) = 1 := by
  intro h g
  have hdrawn : PeerId.random 32 0 = .done (.ok ⟨32, Vector.replicate 32 0⟩) := by
    decide +kernel
  have hexec : ((appState PeerId.PeerID Nat).exec (overlapRun h g)).map (fun r =>
      (r.1.tasks, (callers r.2).map r.1.calls, decide ((joiners r.2).map (·.peerId)).Nodup,
        decide ([.inserted 0 h, .inserted 1 g].Sublist r.2))) =
      some ([], [some .returned, some .returned], true, true) := by decide +kernel
  obtain ⟨⟨s, tr⟩, hexec, hproj⟩ := Option.map_eq_some_iff.mp hexec
  simp only [Prod.mk.injEq, decide_eq_true_eq] at hproj
  obtain ⟨htasks, hcalls, hdistinct, hsub⟩ := hproj
  have hrun := Machine.run_of_exec hexec
  have hjoins : ∀ a ∈ overlapRun h g, a.Joins fun id => id := by
    simp only [overlapRun, List.forall_mem_cons, Action.Joins, List.not_mem_nil, true_and,
      and_true, false_implies, implies_true]
    exact ⟨⟨0, _, hdrawn, rfl⟩, 0, _, hdrawn, rfl⟩
  have hprecedes : Precedes tr h g := ⟨1, hsub.subset (by simp), Or.inr ⟨0, hsub⟩⟩
  have hdiscovered := run_discovers hrun hjoins hdistinct
    (not_inProgress_of_returned (by simp [hcalls])) htasks
  exact ⟨s, tr, hrun, hprecedes, hdiscovered.exactlyOnce h g hprecedes⟩

end SfRs.Server
