import SfRs.EndToEnd.Provenance
import SfRs.Wasm.Candidates
/-!
# Whom a page knows

A client learns of others from its own script and from what its reader loop reads.  With
the server and the other pages around it, that is: it knows who has joined or whom its
script named, it holds a `Peer` for those its script called and those that have sent it a
description, and it passes on the candidates that the peer has gathered for it.
-/

set_option linter.unusedSectionVars false

namespace SfRs.EndToEnd

open SfRs.Lib SfRs.Protocol SfRs.Server

variable {PeerID : Type} [DecidableEq PeerID]

/-! ## One step of a client -/

/-- The action makes the client hold a `Peer` for `q`. -/
inductive CallsFor (q : PeerID) : Wasm.Action PeerID → Prop
  | script : CallsFor q (.connectToPeer q)
  | description (recipient id d) :
      CallsFor q (.receive (.forward q recipient (.webRtcOffer id d)))

/-- The action makes the client know `q`. -/
inductive Introduces (q : PeerID) : Wasm.Action PeerID → Prop
  | calls {a} (hcalls : CallsFor q a) : Introduces q a
  | news (sender recipient) : Introduces q (.receive (.forward sender recipient (.newPeer q)))

/-- The client gains at most the ids and the `Peer`s that the predicates allow. -/
structure Gains (known peers : PeerID → Prop) (c c' : Wasm.Client PeerID) : Prop where
  known : ∀ q ∈ c'.knownPeerIds, q ∈ c.knownPeerIds ∨ known q
  peers : ∀ q, c'.peers q ≠ none → c.peers q ≠ none ∨ peers q

section Gains

variable {known peers : PeerID → Prop} {c c' : Wasm.Client PeerID} {p : PeerID}

theorem gains_of_eq (hknown : c'.knownPeerIds = c.knownPeerIds) (hpeers : c'.peers = c.peers) :
    Gains known peers c c' :=
  ⟨fun _ hq => Or.inl (hknown ▸ hq), fun _ hq => Or.inl (hpeers ▸ hq)⟩

theorem gains_setPeer {peer : Wasm.Peer} (hpeer : c.peers p = some peer) (peer' : Wasm.Peer)
    (hknown : c'.knownPeerIds = c.knownPeerIds) (hpeers : c'.peers = (c.setPeer p peer').peers) :
    Gains known peers c c' := by
  refine ⟨fun _ hq => Or.inl (hknown ▸ hq), fun q hq => Or.inl ?_⟩
  by_cases hp : q = p
  · rw [hp, hpeer]
    simp
  · simpa [hpeers, Wasm.Client.setPeer, hp] using hq

theorem mem_addKnownPeerId {q : PeerID} (hq : q ∈ (c.addKnownPeerId p).knownPeerIds) :
    q ∈ c.knownPeerIds ∨ q = p := by
  unfold Wasm.Client.addKnownPeerId at hq
  split at hq
  case isTrue => exact Or.inl hq
  case isFalse => simpa using hq

theorem peers_addKnownPeerId : (c.addKnownPeerId p).peers = c.peers := by
  unfold Wasm.Client.addKnownPeerId
  split <;> rfl

theorem gains_getOrCreatePeer {peer : Wasm.Peer} {es : List (Wasm.Event PeerID)}
    (h : c.getOrCreatePeer p = .ok (c', peer, es)) (hknown : known p) (hpeers : peers p) :
    Gains known peers c c' := by
  unfold Wasm.Client.getOrCreatePeer at h
  split at h
  case h_1 =>
      cases h
      exact gains_of_eq rfl rfl
  case h_2 =>
      split at h
      case isFalse => cases h
      case isTrue =>
          cases h
          constructor
          · intro q hq
            rcases mem_addKnownPeerId hq with hold | rfl
            · exact Or.inl hold
            · exact Or.inr hknown
          · intro q hq
            rw [Wasm.Client.addPeer, peers_addKnownPeerId] at hq
            by_cases hp : q = p
            · exact Or.inr (hp ▸ hpeers)
            · exact Or.inl (by simpa [Wasm.Client.setPeer, hp] using hq)

theorem gains_handleOffer {c₁ : Wasm.Client PeerID} (h : Gains known peers c c₁)
    (peer : Wasm.Peer) (d : SessionDescription) :
    Gains known peers c (c₁.handleOffer p peer d) := by
  unfold Wasm.Client.handleOffer
  split
  · exact ⟨h.known, h.peers⟩
  · exact ⟨h.known, h.peers⟩

theorem gains_processPeerRequest (request : PeerRequest PeerID) :
    Gains (Introduces · (.receive request)) (CallsFor · (.receive request)) c
      (c.processPeerRequest request).1 := by
  rcases request with _ | ⟨q, recipient, id | ⟨id, message⟩ | ⟨id, d⟩ | ⟨id, candidate⟩⟩
  case forward.newPeer =>
      refine ⟨fun p hp => ?_, fun p hp => Or.inl ?_⟩
      · rcases mem_addKnownPeerId hp with hold | rfl
        · exact Or.inl hold
        · exact Or.inr (.news _ _)
      · exact peers_addKnownPeerId (c := c) ▸ hp
  case forward.webRtcOffer =>
      show Gains _ _ c (c.handleWebRtcOffer q d).1
      unfold Wasm.Client.handleWebRtcOffer
      split
      case h_1 c₁ peer es hpeer =>
          have hcalls : CallsFor q (.receive (.forward q recipient (.webRtcOffer id d))) :=
            .description _ _ _
          exact gains_handleOffer (gains_getOrCreatePeer hpeer (.calls hcalls) hcalls) peer d
      case h_2 => exact gains_of_eq rfl rfl
  case forward.webRtcCandidate =>
      show Gains _ _ c (c.handleWebRtcCandidate q candidate).1
      unfold Wasm.Client.handleWebRtcCandidate Wasm.Client.handleCandidate
      repeat' split
      all_goals exact gains_of_eq rfl rfl
  all_goals exact gains_of_eq rfl rfl

theorem gains_of_step {host : PeerID} {a : Wasm.Action PeerID} {es : List (Wasm.Event PeerID)}
    (h : c.step host a = some (c', es)) : Gains (Introduces · a) (CallsFor · a) c c' := by
  cases a with
  | connect =>
      simp only [Wasm.Client.step, Wasm.Client.connect] at h
      split at h <;> cases h <;> exact gains_of_eq rfl rfl
  | connectToPeer q =>
      simp only [Wasm.Client.step, Wasm.Client.connectToPeer] at h
      split at h
      case h_1 c₁ peer ces hpeer =>
          cases h
          have hgains : Gains (Introduces · (.connectToPeer q)) (CallsFor · (.connectToPeer q))
              c c₁ := gains_getOrCreatePeer hpeer (.calls .script) .script
          exact ⟨hgains.known, hgains.peers⟩
      case h_2 =>
          cases h
          exact gains_of_eq rfl rfl
  | receive request =>
      simp only [Wasm.Client.step] at h
      split at h
      case isTrue =>
          have hgains := gains_processPeerRequest (c := c) request
          rwa [Option.some.inj h] at hgains
      case isFalse => cases h
  | makeOffer q i settled =>
      simp only [Wasm.Client.step, Wasm.Client.makeOffer] at h
      repeat' split at h
      all_goals cases h
      all_goals first
        | exact gains_of_eq rfl rfl
        | exact gains_setPeer ‹c.peers q = some _› _ rfl rfl
  | handle settled =>
      simp only [Wasm.Client.step, Wasm.Client.handle] at h
      repeat' split at h
      all_goals cases h
      all_goals first
        | exact gains_of_eq rfl rfl
        | exact gains_setPeer ‹c.peers _ = some _› _ rfl rfl
  | gather q candidate =>
      simp only [Wasm.Client.step, Wasm.Client.gather] at h
      repeat' split at h
      all_goals cases h
      all_goals first
        | exact gains_of_eq rfl rfl
        | exact gains_setPeer ‹c.peers q = some _› _ rfl rfl

end Gains

/-! ## Every run -/

variable {codec : Codec PeerID} {w w' : World PeerID} {l : WorldAction PeerID}
  {ls : List (WorldAction PeerID)} {tr es : List (WorldEvent PeerID)} {h : PeerHandler PeerID}

/-- Why the page may hold a `Peer` for `q`. -/
inductive Called (ls : List (WorldAction PeerID)) (tr : List (WorldEvent PeerID))
    (h : PeerHandler PeerID) (q : PeerID) : Prop
  | script (hscript : .client h (.connectToPeer q) ∈ ls)
  | description {recipient id d}
      (hread : .forward q recipient (.webRtcOffer id d) ∈ received tr h)

/-- Why the page may know `q`. -/
inductive Introduced (ls : List (WorldAction PeerID)) (tr : List (WorldEvent PeerID))
    (h : PeerHandler PeerID) (q : PeerID) : Prop
  | called (hcalled : Called ls tr h q)
  | news {sender recipient} (hread : .forward sender recipient (.newPeer q) ∈ received tr h)

theorem mem_received_append {request : PeerRequest PeerID} (hread : request ∈ received tr h) :
    request ∈ received (tr ++ es) h := by
  rw [received_append]
  exact List.mem_append_left _ hread

theorem Called.mono {q : PeerID} (hcalled : Called ls tr h q) :
    Called (ls ++ [l]) (tr ++ es) h q := by
  cases hcalled with
  | script hscript => exact .script (List.mem_append_left _ hscript)
  | description hread => exact .description (mem_received_append hread)

theorem Introduced.mono {q : PeerID} (hintroduced : Introduced ls tr h q) :
    Introduced (ls ++ [l]) (tr ++ es) h q := by
  cases hintroduced with
  | called hcalled => exact .called hcalled.mono
  | news hread => exact .news (mem_received_append hread)

/-- The action comes from the script of the page, or from what it reads. -/
def Brought (l : WorldAction PeerID) (es : List (WorldEvent PeerID)) (h : PeerHandler PeerID)
    (a : Wasm.Action PeerID) : Prop :=
  (l = .client h a ∧ ∀ request, a ≠ .receive request) ∨
    ∃ request ∈ received es h, a = .receive request

theorem called_of_brought {a : Wasm.Action PeerID} {q : PeerID} (hbrought : Brought l es h a)
    (hcalls : CallsFor q a) : Called (ls ++ [l]) (tr ++ es) h q := by
  cases hcalls with
  | script =>
      rcases hbrought with ⟨rfl, -⟩ | ⟨request, -, heq⟩
      · exact .script (List.mem_append_right _ List.mem_cons_self)
      · cases heq
  | description recipient id d =>
      rcases hbrought with ⟨-, hact⟩ | ⟨request, hread, heq⟩
      · exact absurd rfl (hact _)
      · cases heq
        have hnew : .forward q recipient (.webRtcOffer id d) ∈ received (tr ++ es) h := by
          rw [received_append]
          exact List.mem_append_right _ hread
        exact .description hnew

theorem introduced_of_brought {a : Wasm.Action PeerID} {q : PeerID}
    (hbrought : Brought l es h a) (hintroduces : Introduces q a) :
    Introduced (ls ++ [l]) (tr ++ es) h q := by
  cases hintroduces with
  | calls hcalls => exact .called (called_of_brought hbrought hcalls)
  | news sender recipient =>
      rcases hbrought with ⟨-, hact⟩ | ⟨request, hread, heq⟩
      · exact absurd rfl (hact _)
      · cases heq
        have hnew : .forward sender recipient (.newPeer q) ∈ received (tr ++ es) h := by
          rw [received_append]
          exact List.mem_append_right _ hread
        exact .news hnew

/-- The page has been told of all it knows and holds. -/
structure Acquainted (ls : List (WorldAction PeerID)) (w : World PeerID)
    (tr : List (WorldEvent PeerID)) (h : PeerHandler PeerID) : Prop where
  known : ∀ q ∈ (w.tabs h).client.knownPeerIds, Introduced ls tr h q
  peers : ∀ q, (w.tabs h).client.peers q ≠ none → Called ls tr h q

theorem Acquainted.acts {a : Wasm.Action PeerID} {ces : List (Wasm.Event PeerID)}
    (hknows : Acquainted ls w tr h) (hbrought : Brought l es h a)
    (hstep : (w.tabs h).client.step h.peerId a = some ((w'.tabs h).client, ces)) :
    Acquainted (ls ++ [l]) w' (tr ++ es) h := by
  have hgains := gains_of_step hstep
  constructor
  · intro q hq
    rcases hgains.known q hq with hold | hnew
    · exact (hknows.known q hold).mono
    · exact introduced_of_brought hbrought hnew
  · intro q hq
    rcases hgains.peers q hq with hold | hnew
    · exact (hknows.peers q hold).mono
    · exact called_of_brought hbrought hnew

theorem acquainted_of_run (hrun : (world codec).Run ls w tr) (h : PeerHandler PeerID) :
    Acquainted ls w tr h := by
  induction hrun with
  | nil => exact ⟨fun q hq => absurd hq List.not_mem_nil, fun q hq => absurd rfl hq⟩
  | snoc _ hstep ih =>
      cases clientStep_of_step hstep h with
      | acts hl hact hcstep => exact ih.acts (Or.inl ⟨hl, hact⟩) hcstep
      | reads _ hcstep hreceived =>
          exact ih.acts (Or.inr ⟨_, by rw [hreceived]; exact List.mem_cons_self, rfl⟩) hcstep
      | idle hclient =>
          constructor
          · rw [hclient]
            exact fun q hq => (ih.known q hq).mono
          · rw [hclient]
            exact fun q hq => (ih.peers q hq).mono

/-- A description that a page reads was sent to it by the page that it names. -/
theorem sent_of_read_description (hrun : (world codec).Run ls w tr) {q id : PeerID}
    {recipient : Option PeerID} {d : SessionDescription}
    (hread : .forward q recipient (.webRtcOffer id d) ∈ received tr h) :
    ∃ g : PeerHandler PeerID, g.peerId = q ∧ Joined (serverEvents tr) g ∧
      .forward q (some h.peerId) (.webRtcOffer h.peerId d) ∈ sent tr g := by
  have hreads := reads_of_run hrun hread
  generalize hrequest : PeerRequest.forward q recipient (.webRtcOffer id d) = request at hreads
  cases hreads with
  | joined => cases hrequest
  | @sent g data hjoined hsends hsent =>
      cases hrequest
      cases hsends
      exact ⟨g, rfl, hjoined, hsent⟩

/-- What a page reads of new peers is the server's news of a connection. -/
theorem joined_of_read_newPeer (hrun : (world codec).Run ls w tr) {q sender : PeerID}
    {recipient : Option PeerID} (hread : .forward sender recipient (.newPeer q) ∈ received tr h) :
    ∃ g : PeerHandler PeerID, g.peerId = q ∧ Joined (serverEvents tr) g := by
  have hreads := reads_of_run hrun hread
  generalize hrequest : PeerRequest.forward sender recipient (.newPeer q) = request at hreads
  cases hreads with
  | @joined g fromPeerId hjoined =>
      cases hrequest
      exact ⟨g, rfl, hjoined⟩
  | sent _ hsends =>
      cases hrequest
      cases hsends

/-- In every run and for every page: it knows a peer only if its script connected to it or a
connection has joined under that id, and it holds a `Peer` only for those that its script
connected to and those that have sent it a description. -/
theorem run_acquainted (hrun : (world codec).Run ls w tr) (h : PeerHandler PeerID) :
    (∀ q ∈ (w.tabs h).client.knownPeerIds, .client h (.connectToPeer q) ∈ ls ∨
      ∃ g : PeerHandler PeerID, g.peerId = q ∧ Joined (serverEvents tr) g) ∧
    ∀ q, (w.tabs h).client.peers q ≠ none → .client h (.connectToPeer q) ∈ ls ∨
      ∃ (g : PeerHandler PeerID) (d : SessionDescription), g.peerId = q ∧
        .forward q (some h.peerId) (.webRtcOffer h.peerId d) ∈ sent tr g := by
  have hknows := acquainted_of_run hrun h
  constructor
  · intro q hq
    cases hknows.known q hq with
    | called hcalled =>
        cases hcalled with
        | script hscript => exact Or.inl hscript
        | description hread =>
            obtain ⟨g, hg, hjoined, -⟩ := sent_of_read_description hrun hread
            exact Or.inr ⟨g, hg, hjoined⟩
    | news hread => exact Or.inr (joined_of_read_newPeer hrun hread)
  · intro q hq
    cases hknows.peers q hq with
    | script hscript => exact Or.inl hscript
    | description hread =>
        obtain ⟨g, hg, -, hsent⟩ := sent_of_read_description hrun hread
        exact Or.inr ⟨g, _, hg, hsent⟩

/-- The page that reads the news of itself knows itself, and holds no `Peer`. -/
theorem run_acquainted_newsRun : ∃ w tr, (world u16Codec).Run newsRun w tr ∧
    (w.tabs (page 1)).client.knownPeerIds = [1] ∧
    ∃ g : PeerHandler UInt16, g.peerId = 1 ∧ Joined (serverEvents tr) g := by
  have hexec : ((world u16Codec).exec newsRun).map
      (fun r => (r.1.tabs (page 1)).client.knownPeerIds) = some [1] := by decide +kernel
  obtain ⟨⟨w, tr⟩, hrun, hknown⟩ := Option.map_eq_some_iff.mp hexec
  refine ⟨w, tr, Machine.run_of_exec hrun, hknown, ?_⟩
  have hmem : (1 : UInt16) ∈ (w.tabs (page 1)).client.knownPeerIds := by
    rw [hknown]
    exact List.mem_cons_self
  refine ((run_acquainted (Machine.run_of_exec hrun) (page 1)).1 1 hmem).resolve_left ?_
  simp [newsRun, joining, carrying]

end SfRs.EndToEnd
