import SfRs.EndToEnd.Acquaintance
import SfRs.Wasm.Descriptions
import Mathlib.Data.List.Count
/-!
# What a connection is given by the other side

The remote description of a page's connection to a peer, and the candidates that the page
adds to it, come from the page of that peer: the description was sent by it, and each
candidate was gathered by its browser for this page at least as often as it is added here.
-/

set_option linter.unusedSectionVars false

namespace SfRs.EndToEnd

open SfRs.Lib SfRs.Protocol SfRs.Server

variable {PeerID : Type} [DecidableEq PeerID] {codec : Codec PeerID} {w w' : World PeerID}
  {l : WorldAction PeerID} {ls : List (WorldAction PeerID)} {tr es : List (WorldEvent PeerID)}
  {h : PeerHandler PeerID}

/-! ## Candidates -/

/-- The browser of a page of `sender` has gathered the candidate for `recipient`. -/
def WorldAction.gathers (sender recipient : PeerID) (candidate : IceCandidate) :
    WorldAction PeerID → Bool
  | .client g (.gather p candidate') =>
      decide (g.peerId = sender ∧ p = recipient ∧ candidate' = candidate)
  | _ => false

/-- The candidates, other than the end of candidates, that a page reads from `q`. -/
def readCandidates (tr : List (WorldEvent PeerID)) (h : PeerHandler PeerID) (q : PeerID) :
    List IceCandidate :=
  (received tr h).filterMap fun request => Wasm.Action.candidateFrom q (.receive request)

theorem readCandidates_append (q : PeerID) :
    readCandidates (tr ++ es) h q = readCandidates tr h q ++ readCandidates es h q := by
  simp [readCandidates, List.filterMap_append]

theorem added_sublist_of_step (hstep : w.step codec l = some (w', es)) (q : PeerID) :
    (Wasm.added q (clientEvents es h)).Sublist (readCandidates es h q) := by
  cases clientStep_of_step hstep h with
  | @acts a _ hact hcstep =>
      have hnone : a.candidateFrom q = none := by
        unfold Wasm.Action.candidateFrom
        split
        · exact absurd rfl (hact _)
        · rfl
      rw [Wasm.Client.added_eq_nil hcstep hnone]
      exact List.nil_sublist _
  | @reads request _ hcstep hreceived =>
      have hread : readCandidates es h q =
          (Wasm.Action.candidateFrom q (.receive request)).toList := by
        rw [readCandidates, hreceived, List.filterMap_cons]
        cases Wasm.Action.candidateFrom q (.receive request) <;> rfl
      rw [Wasm.Client.added_of_step hcstep, hread]
      exact List.filter_sublist
  | idle _ hes =>
      rw [hes]
      exact List.nil_sublist _

theorem added_sublist_of_run (hrun : (world codec).Run ls w tr) (q : PeerID) :
    (Wasm.added q (clientEvents tr h)).Sublist (readCandidates tr h q) := by
  induction hrun with
  | nil => exact List.Sublist.refl _
  | snoc _ hstep ih =>
      rw [clientEvents_append, Wasm.added_append, readCandidates_append]
      exact ih.append (added_sublist_of_step hstep q)

/-- A candidate that a page reads from `q` was sent to it by a page of `q`. -/
theorem reads_candidate (hrun : (world codec).Run ls w tr) {request : PeerRequest PeerID}
    (hread : request ∈ received tr h) {q : PeerID} {candidate : IceCandidate}
    (hcandidate : Wasm.Action.candidateFrom q (.receive request) = some candidate) :
    request = .forward q (some h.peerId) (.webRtcCandidate h.peerId candidate) := by
  unfold Wasm.Action.candidateFrom at hcandidate
  split at hcandidate
  case h_1 sender recipient id candidate' heq =>
      cases heq
      split at hcandidate <;> cases hcandidate
      rename_i hq
      obtain ⟨rfl, -⟩ := hq
      have hreads := reads_of_run hrun hread
      generalize hrequest : PeerRequest.forward sender recipient
        (.webRtcCandidate id candidate) = request at hreads
      cases hreads with
      | joined => cases hrequest
      | sent _ hsends =>
          cases hrequest
          cases hsends
          rfl
  case h_2 => cases hcandidate

/-- What is no news is read no more often than it was sent. -/
theorem count_received_le (hrun : (world codec).Run ls w tr) (h : PeerHandler PeerID)
    {q p : PeerID} {data : PeerEvent PeerID} (hdata : ∀ id, data ≠ .newPeer id) :
    (received tr h).count (.forward q (some p) data) ≤
      ((sentRequests tr).map Prod.snd).count (.forward q (some p) data) := by
  by_cases hmem : .forward q (some p) data ∈ received tr h
  · have hreads := reads_of_run hrun hmem
    generalize hrequest : PeerRequest.forward q (some p) data = request at hreads
    cases hreads with
    | joined =>
        cases hrequest
        exact absurd rfl (hdata _)
    | sent _ _ _ hcount => exact hcount
  · rw [List.count_eq_zero_of_not_mem hmem]
    exact Nat.zero_le _

/-- An action sends a gathered candidate once, and no other. -/
theorem count_candidate_le {g : PeerHandler PeerID} {c c' : Wasm.Client PeerID}
    {a : Wasm.Action PeerID} {ces : List (Wasm.Event PeerID)} (q p : PeerID)
    (candidate : IceCandidate) (hstep : c.step g.peerId a = some (c', ces)) :
    (ces.filterMap sentRequest).count (.forward q (some p) (.webRtcCandidate p candidate)) ≤
      [WorldAction.client g a].countP (WorldAction.gathers q p candidate) := by
  by_cases hmem : .forward q (some p) (.webRtcCandidate p candidate) ∈ ces.filterMap sentRequest
  · have hsends := allSend_of_step hstep _ hmem
    generalize hrequest : PeerRequest.forward q (some p) (.webRtcCandidate p candidate) =
      request at hsends
    cases hsends with
    | description => cases hrequest
    | candidate =>
        cases hrequest
        have honce : [WorldAction.client g (.gather p candidate)].countP
            (WorldAction.gathers g.peerId p candidate) = 1 := by simp [WorldAction.gathers]
        rw [honce]
        refine List.count_le_length.trans ?_
        simp only [Wasm.Client.step, Wasm.Client.gather] at hstep
        repeat' split at hstep
        all_goals cases hstep
        all_goals simp [sentRequest]
  · rw [List.count_eq_zero_of_not_mem hmem]
    exact Nat.zero_le _

theorem sentRequests_append :
    sentRequests (tr ++ es) = sentRequests tr ++ sentRequests es := by
  simp [sentRequests, List.filterMap_append]

theorem map_snd_sentRequests_client (g : PeerHandler PeerID) (ces : List (Wasm.Event PeerID)) :
    (sentRequests (ces.map (.client g))).map Prod.snd = ces.filterMap sentRequest := by
  rw [sentRequests, List.filterMap_map, List.map_filterMap]
  refine List.filterMap_congr fun e _ => ?_
  cases hrequest : sentRequest e <;> simp [hrequest]

theorem sentRequests_server (ses : List (ServerEvent PeerID)) :
    sentRequests (ses.map .server) = [] := by
  simp [sentRequests, List.filterMap_map]

theorem count_sentRequests_le_of_step (hstep : w.step codec l = some (w', es)) (q p : PeerID)
    (candidate : IceCandidate) :
    ((sentRequests es).map Prod.snd).count
        (.forward q (some p) (.webRtcCandidate p candidate)) ≤
      [l].countP (WorldAction.gathers q p candidate) := by
  cases World.steps_of_step hstep with
  | client _ hcstep =>
      rw [map_snd_sentRequests_client]
      exact count_candidate_le q p candidate hcstep
  | @receive g _ _ request _ ces _ _ hcstep =>
      rw [show sentRequests (.received g request :: ces.map (.client g)) =
        sentRequests (ces.map (.client g)) from rfl, map_snd_sentRequests_client]
      refine (count_candidate_le q p candidate hcstep).trans ?_
      simp [WorldAction.gathers]
  | ignore | stopReading | wrote | stopWriting => exact Nat.zero_le _
  | server | arrive =>
      rw [sentRequests_server]
      exact Nat.zero_le _

theorem count_sentRequests_le_of_run (hrun : (world codec).Run ls w tr) (q p : PeerID)
    (candidate : IceCandidate) :
    ((sentRequests tr).map Prod.snd).count
        (.forward q (some p) (.webRtcCandidate p candidate)) ≤
      ls.countP (WorldAction.gathers q p candidate) := by
  induction hrun with
  | nil => exact Nat.zero_le _
  | snoc _ hstep ih =>
      rw [sentRequests_append, List.map_append, List.count_append, List.countP_append]
      exact Nat.add_le_add ih (count_sentRequests_le_of_step hstep q p candidate)

/-- In every run, every page adds each candidate to its connection to `q` at most as often
as browsers of pages of `q` have gathered it for this page. -/
theorem run_added_le_gathered (hrun : (world codec).Run ls w tr) (h : PeerHandler PeerID)
    (q : PeerID) (candidate : IceCandidate) :
    (Wasm.added q (clientEvents tr h)).count candidate ≤
      ls.countP (WorldAction.gathers q h.peerId candidate) := by
  calc
    (Wasm.added q (clientEvents tr h)).count candidate
        ≤ (readCandidates tr h q).count candidate :=
      (added_sublist_of_run hrun q).count_le candidate
    _ ≤ (received tr h).count
          (.forward q (some h.peerId) (.webRtcCandidate h.peerId candidate)) := by
      rw [readCandidates, List.count_filterMap]
      refine List.countP_mono_left fun request hread hcandidate => ?_
      simpa using reads_candidate hrun hread (by simpa using hcandidate)
    _ ≤ ((sentRequests tr).map Prod.snd).count
          (.forward q (some h.peerId) (.webRtcCandidate h.peerId candidate)) :=
      count_received_le hrun h (by simp)
    _ ≤ ls.countP (WorldAction.gathers q h.peerId candidate) :=
      count_sentRequests_le_of_run hrun q h.peerId candidate

/-- `g` sends what it has queued, and the server carries it to `h`. -/
def relaying (g h : PeerHandler UInt16) : List (WorldAction UInt16) :=
  [.write g true, .arrive g, .server (.advance g .go), .server (.advance g .go),
    .server (.resume g)] ++ carrying 3 h

/-- Page 1 calls page 2, which reads its offer. -/
def callRun : List (WorldAction UInt16) :=
  joining (page 1) [1] ++ joining (page 2) [2, 1] ++
    .client (page 1) (.connectToPeer 2) ::
      List.replicate 3 (.client (page 1) (.makeOffer 2 0 ⟨"offer", false, true⟩)) ++
  relaying (page 1) (page 2)

/-- Page 2 answers, and reads a candidate of page 1. -/
def candidateRun : List (WorldAction UInt16) :=
  callRun ++ List.replicate 4 (.client (page 2) (.handle ⟨"answer", false, true⟩)) ++
    .client (page 1) (.gather 2 Wasm.hostCandidate) :: relaying (page 1) (page 2)

theorem run_added_le_gathered_candidateRun : ∃ w tr, (world u16Codec).Run candidateRun w tr ∧
    (Wasm.added 1 (clientEvents tr (page 2))).count Wasm.hostCandidate ≤ 1 := by
  have hexec : ((world u16Codec).exec candidateRun).isSome := by decide +kernel
  obtain ⟨⟨w, tr⟩, hrun⟩ := Option.isSome_iff_exists.mp hexec
  have hrun := Machine.run_of_exec hrun
  have hgathered : candidateRun.countP (WorldAction.gathers 1 (page 2).peerId Wasm.hostCandidate) =
      1 := by decide
  exact ⟨w, tr, hrun,
    (run_added_le_gathered hrun (page 2) 1 Wasm.hostCandidate).trans hgathered.le⟩

/-! ## Descriptions -/

/-- The page has read the description from `q`. -/
def ReadDescription (tr : List (WorldEvent PeerID)) (h : PeerHandler PeerID) (q : PeerID)
    (d : SessionDescription) : Prop :=
  ∃ request ∈ received tr h, (Wasm.Action.receive request).descriptionFrom q = some d

/-- At some point of the run `d` was the local description of the connection to `p`. -/
def WasLocal (codec : Codec PeerID) (ls : List (WorldAction PeerID)) (g : PeerHandler PeerID)
    (p : PeerID) (d : SessionDescription) : Prop :=
  ∃ pre, pre <+: ls ∧ ∃ w₀ tr₀, (world codec).Run pre w₀ tr₀ ∧
    ((w₀.tabs g).client.conn p).localDescription = some d

theorem ReadDescription.mono {q : PeerID} {d : SessionDescription}
    (hread : ReadDescription tr h q d) : ReadDescription (tr ++ es) h q d := by
  obtain ⟨request, hmem, hd⟩ := hread
  refine ⟨request, ?_, hd⟩
  rw [received_append]
  exact List.mem_append_left _ hmem

theorem WasLocal.mono {g : PeerHandler PeerID} {p : PeerID} {d : SessionDescription}
    (hlocal : WasLocal codec ls g p d) : WasLocal codec (ls ++ [l]) g p d := by
  obtain ⟨pre, hpre, hpoint⟩ := hlocal
  exact ⟨pre, hpre.trans (List.prefix_append ls [l]), hpoint⟩

theorem applies_of_run (hrun : (world codec).Run ls w tr) (h : PeerHandler PeerID) :
    (w.tabs h).client.Applies (ReadDescription tr h) := by
  induction hrun with
  | nil => exact Wasm.Client.applies_new
  | @snoc _ w tr _ w' es _ hstep ih =>
      have hold : (w.tabs h).client.Applies (ReadDescription (tr ++ es) h) :=
        ih.mono fun _ _ hread => hread.mono
      cases clientStep_of_step hstep h with
      | @acts a _ hact hcstep =>
          refine hold.step (fun q d hd => ?_) hcstep
          -- a description comes in a request only
          unfold Wasm.Action.descriptionFrom at hd
          split at hd
          · exact absurd rfl (hact _)
          · cases hd
      | @reads request _ hcstep hreceived =>
          refine hold.step (fun q d hd => ⟨request, ?_, hd⟩) hcstep
          rw [received_append, hreceived]
          exact List.mem_append_right _ List.mem_cons_self
      | idle hclient => rwa [hclient]

theorem descriptions_of_run (hrun : (world codec).Run ls w tr) (g : PeerHandler PeerID) :
    (w.tabs g).client.Sends (WasLocal codec ls g) ∧
      ∀ e ∈ clientEvents tr g, ∀ p d, e.descriptionTo p = some d → WasLocal codec ls g p d := by
  induction hrun with
  | nil => exact ⟨Wasm.Client.sends_new, fun e he => absurd he List.not_mem_nil⟩
  | @snoc ls w tr l w' es hrun hstep ih =>
      obtain ⟨hsends, hsent⟩ := ih
      have hold : (w.tabs g).client.Sends (WasLocal codec (ls ++ [l]) g) :=
        hsends.mono fun _ _ hlocal => hlocal.mono
      have hnow : ∀ p d, ((w'.tabs g).client.conn p).localDescription = some d →
          WasLocal codec (ls ++ [l]) g p d := fun p d hlocal =>
        ⟨ls ++ [l], List.prefix_rfl, w', tr ++ es, hrun.snoc hstep, hlocal⟩
      have hstays : ∀ e ∈ clientEvents tr g, ∀ p d, e.descriptionTo p = some d →
          WasLocal codec (ls ++ [l]) g p d := fun e he p d hto => (hsent e he p d hto).mono
      rw [clientEvents_append]
      cases clientStep_of_step hstep g with
      | acts _ _ hcstep =>
          exact ⟨hold.step hnow hcstep, fun e he => (List.mem_append.mp he).elim (hstays e)
            (hold.sent hcstep e)⟩
      | reads _ hcstep =>
          exact ⟨hold.step hnow hcstep, fun e he => (List.mem_append.mp he).elim (hstays e)
            (hold.sent hcstep e)⟩
      | idle hclient hes =>
          rw [hclient, hes, List.append_nil]
          exact ⟨hold, hstays⟩

/-- In every run, the remote description of a page's connection to `q` was sent to this page
by one of `q`, which had it as the local description of its connection to this page. -/
theorem run_remoteDescription (hrun : (world codec).Run ls w tr) {q : PeerID}
    {d : SessionDescription} (hremote : ((w.tabs h).client.conn q).remoteDescription = some d) :
    ∃ g : PeerHandler PeerID, g.peerId = q ∧
      .forward q (some h.peerId) (.webRtcOffer h.peerId d) ∈ sent tr g ∧
      WasLocal codec ls g h.peerId d := by
  have hholds := Wasm.PeerConnection.holds_of_remoteDescription hremote
  obtain ⟨request, hread, hd⟩ := (applies_of_run hrun h).conn q d hholds
  unfold Wasm.Action.descriptionFrom at hd
  split at hd
  case h_1 sender recipient id d' heq =>
      cases heq
      split at hd <;> cases hd
      rename_i hsender
      subst hsender
      obtain ⟨g, hg, -, hsent⟩ := sent_of_read_description hrun hread
      refine ⟨g, hg, hsent, ?_⟩
      obtain ⟨e, he, hrequest⟩ := List.mem_filterMap.mp hsent
      refine (descriptions_of_run hrun g).2 e he h.peerId d ?_
      cases e with
      | sent request =>
          cases hrequest
          simp [Wasm.Event.descriptionTo]
      | _ => cases hrequest
  case h_2 => cases hd

/-- The offer of page 1 is the remote description of page 2, once it has been set. -/
theorem run_remoteDescription_callRun :
    let settled : WorldAction UInt16 := .client (page 2) (.handle ⟨"", false, true⟩)
    ∃ g : PeerHandler UInt16, g.peerId = 1 ∧
      WasLocal u16Codec (callRun ++ [settled]) g 2 ⟨"offer", .offer⟩ := by
  have hexec : ((world u16Codec).exec
      (callRun ++ [.client (page 2) (.handle ⟨"", false, true⟩)])).map
      (fun r => ((r.1.tabs (page 2)).client.conn 1).remoteDescription) =
        some (some ⟨"offer", .offer⟩) := by decide +kernel
  obtain ⟨⟨w, tr⟩, hrun, hremote⟩ := Option.map_eq_some_iff.mp hexec
  obtain ⟨g, hg, -, hlocal⟩ := run_remoteDescription (Machine.run_of_exec hrun) hremote
  exact ⟨g, hg, hlocal⟩

end SfRs.EndToEnd
