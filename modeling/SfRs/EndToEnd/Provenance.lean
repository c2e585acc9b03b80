import SfRs.EndToEnd.Links
import SfRs.Server.Origins
/-!
# Where the requests that a page reads come from

A page signs its requests with its own identifier, which is the one its connection is
registered under, and sends descriptions and candidates to single peers only.  So although
the server does not check who a request says it is from, among pages that run sf-wasm every
description and candidate that a page reads was sent to it by the page it names, and it is
read at most as often as it was sent.
-/

set_option linter.unusedSectionVars false

namespace SfRs.EndToEnd

open SfRs.Lib SfRs.Protocol SfRs.Server

variable {PeerID : Type} [DecidableEq PeerID]

/-! ## What a page sends -/

/-- The requests of the client `host`. -/
inductive Sends (host : PeerID) : PeerRequest PeerID → Prop
  | description (peerId : PeerID) (d : SessionDescription) :
      Sends host (.forward host (some peerId) (.webRtcOffer peerId d))
  | candidate (peerId : PeerID) (candidate : IceCandidate) :
      Sends host (.forward host (some peerId) (.webRtcCandidate peerId candidate))

/-- The requests of the client `host` in an action: a candidate is sent when it has been
gathered. -/
inductive SendsIn (host : PeerID) : Wasm.Action PeerID → PeerRequest PeerID → Prop
  | description {a} (peerId : PeerID) (d : SessionDescription) :
      SendsIn host a (.forward host (some peerId) (.webRtcOffer peerId d))
  | candidate (peerId : PeerID) (candidate : IceCandidate) :
      SendsIn host (.gather peerId candidate)
        (.forward host (some peerId) (.webRtcCandidate peerId candidate))

theorem SendsIn.sends {host : PeerID} {a : Wasm.Action PeerID} {request : PeerRequest PeerID}
    (h : SendsIn host a request) : Sends host request := by
  cases h with
  | description peerId d => exact .description peerId d
  | candidate peerId candidate => exact .candidate peerId candidate

/-- Whatever the events of the action send, `host` sends. -/
def AllSend (host : PeerID) (a : Wasm.Action PeerID) (es : List (Wasm.Event PeerID)) : Prop :=
  ∀ request ∈ es.filterMap sentRequest, SendsIn host a request

theorem allSend_of_noRequest {host : PeerID} {a : Wasm.Action PeerID}
    {es : List (Wasm.Event PeerID)} (hes : ∀ request, .sent request ∉ es) :
    AllSend host a es := by
  intro request hmem
  obtain ⟨e, he, hrequest⟩ := List.mem_filterMap.mp hmem
  cases e with
  | sent request' => exact absurd he (hes request')
  | _ => cases hrequest

theorem not_sent_of_getOrCreatePeer {c c' : Wasm.Client PeerID} {peerId : PeerID}
    {peer : Wasm.Peer} {es : List (Wasm.Event PeerID)}
    (h : c.getOrCreatePeer peerId = .ok (c', peer, es)) (request : PeerRequest PeerID) :
    .sent request ∉ es := by
  unfold Wasm.Client.getOrCreatePeer at h
  repeat' split at h
  all_goals cases h
  all_goals simp

theorem not_sent_of_processPeerRequest (c : Wasm.Client PeerID)
    (received request : PeerRequest PeerID) :
    .sent request ∉ (c.processPeerRequest received).2 := by
  rcases received with _ | ⟨q, recipient, id | ⟨id, message⟩ | ⟨id, d⟩ | ⟨id, candidate⟩⟩
  case forward.webRtcOffer =>
      show .sent request ∉ (c.handleWebRtcOffer q d).2
      unfold Wasm.Client.handleWebRtcOffer
      split
      case h_1 hpeer => exact not_sent_of_getOrCreatePeer hpeer request
      case h_2 => simp
  case forward.webRtcCandidate =>
      show .sent request ∉ (c.handleWebRtcCandidate q candidate).2
      unfold Wasm.Client.handleWebRtcCandidate Wasm.Client.handleCandidate
      repeat' split
      all_goals simp
  all_goals simp [Wasm.Client.processPeerRequest, Wasm.Client.handlePeerEvent]

theorem allSend_of_step {host : PeerID} {c c' : Wasm.Client PeerID} {a : Wasm.Action PeerID}
    {es : List (Wasm.Event PeerID)} (h : c.step host a = some (c', es)) : AllSend host a es := by
  cases a with
  | connect =>
      refine allSend_of_noRequest fun request => ?_
      simp only [Wasm.Client.step, Wasm.Client.connect] at h
      split at h <;> cases h <;> simp
  | connectToPeer q =>
      refine allSend_of_noRequest fun request => ?_
      simp only [Wasm.Client.step, Wasm.Client.connectToPeer] at h
      split at h
      case h_1 hpeer =>
          cases h
          exact not_sent_of_getOrCreatePeer hpeer request
      case h_2 =>
          cases h
          simp
  | receive received =>
      refine allSend_of_noRequest fun request => ?_
      simp only [Wasm.Client.step] at h
      split at h
      case isTrue =>
          have hnot := not_sent_of_processPeerRequest c received request
          rwa [Option.some.inj h] at hnot
      case isFalse => cases h
  | makeOffer q i settled =>
      simp only [Wasm.Client.step, Wasm.Client.makeOffer] at h
      repeat' split at h
      all_goals cases h
      all_goals intro request hmem
      all_goals simp [sentRequest] at hmem
      subst hmem
      exact .description _ _
  | handle settled =>
      simp only [Wasm.Client.step, Wasm.Client.handle] at h
      repeat' split at h
      all_goals cases h
      all_goals intro request hmem
      all_goals simp [sentRequest] at hmem
      subst hmem
      exact .description _ _
  | gather q candidate =>
      simp only [Wasm.Client.step, Wasm.Client.gather] at h
      repeat' split at h
      all_goals cases h
      all_goals intro request hmem
      all_goals simp [sentRequest] at hmem
      subst hmem
      exact .candidate _ _

/-! ## Every run -/

variable {codec : Codec PeerID} {w w' : World PeerID} {l : WorldAction PeerID}
  {ls : List (WorldAction PeerID)} {tr es : List (WorldEvent PeerID)} {h : PeerHandler PeerID}

theorem sends_of_step (hstep : w.step codec l = some (w', es)) :
    ∀ request ∈ sent es h, Sends h.peerId request := by
  intro request hmem
  cases clientStep_of_step hstep h with
  | acts _ _ hcstep => exact (allSend_of_step hcstep request hmem).sends
  | reads _ hcstep => exact (allSend_of_step hcstep request hmem).sends
  | idle _ hes =>
      rw [sent, hes] at hmem
      cases hmem

theorem sends_of_run (hrun : (world codec).Run ls w tr) :
    ∀ request ∈ sent tr h, Sends h.peerId request := by
  induction hrun with
  | nil => exact fun request hmem => absurd hmem List.not_mem_nil
  | snoc _ hstep ih =>
      intro request hmem
      rw [sent_append, List.mem_append] at hmem
      exact hmem.elim (ih request) (sends_of_step hstep request)

/-- The requests sent, with the pages that sent them. -/
def sentRequests (tr : List (WorldEvent PeerID)) :
    List (PeerHandler PeerID × PeerRequest PeerID) :=
  tr.filterMap fun
    | .client h e => (sentRequest e).map fun request => (h, request)
    | _ => none

theorem sent_eq_entriesOf (tr : List (WorldEvent PeerID)) (h : PeerHandler PeerID) :
    sent tr h = entriesOf h (sentRequests tr) := by
  rw [sent, clientEvents, entriesOf, sentRequests, List.filterMap_filterMap,
    List.filterMap_filterMap]
  refine List.filterMap_congr fun e _ => ?_
  cases e with
  | client g e =>
      by_cases hg : g = h
      · cases hrequest : sentRequest e <;> simp [WorldEvent.clientOf, hg, hrequest]
      · cases hrequest : sentRequest e <;> simp [WorldEvent.clientOf, hg, hrequest]
  | received | server => rfl

/-- What the frames of a page ask for, the page has sent. -/
theorem sent_of_frame (hrun : (world codec).Run ls w tr) {g : PeerHandler PeerID} {n : Nat}
    {request : PeerRequest PeerID} (hframe : .frame g n request ∈ serverEvents tr) :
    request ∈ sent tr g ∧ Sends g.peerId request := by
  have hmem : request ∈ parsed (serverEvents tr) g :=
    List.mem_filterMap.mpr ⟨_, hframe, by simp⟩
  have hsent := (parsed_prefix_sent hrun g).subset hmem
  exact ⟨hsent, sends_of_run hrun request hsent⟩

theorem count_frameRequests_le (hrun : (world codec).Run ls w tr)
    (request : PeerRequest PeerID) :
    ((frameRequests (serverEvents tr)).map Prod.snd).count request ≤
      ((sentRequests tr).map Prod.snd).count request := by
  refine count_map_snd_le (fun g asked => ?_) request
  rw [← parsed_eq_entriesOf, ← sent_eq_entriesOf]
  exact (parsed_prefix_sent hrun g).sublist.count_le asked

/-- What a page may read. -/
inductive Reads (tr : List (WorldEvent PeerID)) (h : PeerHandler PeerID) :
    PeerRequest PeerID → Prop
  | joined {g : PeerHandler PeerID} (fromPeerId : PeerID)
      (hjoined : Joined (serverEvents tr) g) :
      Reads tr h (.forward fromPeerId (some h.peerId) (.newPeer g.peerId))
  | sent {g : PeerHandler PeerID} {data : PeerEvent PeerID}
      (hjoined : Joined (serverEvents tr) g)
      (hsends : Sends g.peerId (.forward g.peerId (some h.peerId) data))
      (hsent : .forward g.peerId (some h.peerId) data ∈ EndToEnd.sent tr g)
      (hcount : (received tr h).count (.forward g.peerId (some h.peerId) data) ≤
        ((sentRequests tr).map Prod.snd).count (.forward g.peerId (some h.peerId) data)) :
      Reads tr h (.forward g.peerId (some h.peerId) data)

/-- No page broadcasts, so what a broadcast says is news. -/
theorem newPeer_of_snapshot (hrun : (world codec).Run ls w tr) {k : CallId PeerID}
    {b : Broadcast PeerID} {ids : List PeerID}
    (hsnapshot : .app (.snapshot k b ids) ∈ serverEvents tr) : ∃ p, b.data = .newPeer p := by
  obtain ⟨ks, hserver⟩ := server_of_run hrun
  rcases asked_of_snapshot hserver hsnapshot with ⟨g, -, hdata⟩ | ⟨g, n, asked, hframe, -⟩
  · exact ⟨_, hdata⟩
  · cases (sent_of_frame hrun hframe).2

theorem reads_of_run (hrun : (world codec).Run ls w tr) {request : PeerRequest PeerID}
    (hmem : request ∈ received tr h) : Reads tr h request := by
  obtain ⟨ks, hserver⟩ := server_of_run hrun
  have hwritten := (received_prefix_written hrun h).trans (written_prefix_given hrun h)
  cases origin_of_given hserver (hwritten.subset hmem) with
  | joined fromPeerId hjoined => exact .joined fromPeerId hjoined
  | broadcast hframe => cases (sent_of_frame hrun hframe).2
  | @unicast g n fromPeerId data hframe =>
      obtain ⟨hsent, hsends⟩ := sent_of_frame hrun hframe
      have hnews : ∀ p, data ≠ .newPeer p := by
        intro p hdata
        subst hdata
        cases hsends
      obtain rfl : fromPeerId = g.peerId := by
        cases hsends <;> rfl
      refine .sent ((entered_of_run hserver).frames g n _ hframe) hsends hsent ?_
      calc
        (received tr h).count (.forward g.peerId (some h.peerId) data)
            ≤ (given (serverEvents tr) h).count (.forward g.peerId (some h.peerId) data) :=
          hwritten.sublist.count_le _
        _ ≤ ((frameRequests (serverEvents tr)).map Prod.snd).count
              (.forward g.peerId (some h.peerId) data) := by
          refine count_given_le hserver h fun k b ids hsnapshot heq => ?_
          obtain ⟨p, hp⟩ := newPeer_of_snapshot hrun hsnapshot
          obtain ⟨-, -, hdata⟩ := PeerRequest.forward.inj heq
          exact hnews p (hdata.trans hp)
        _ ≤ ((sentRequests tr).map Prod.snd).count (.forward g.peerId (some h.peerId) data) :=
          count_frameRequests_le hrun _

/-- In every run and for every page: each request it reads is news of a connection that
joined, or it was sent to this page by the page that it names, and is read at most as often
as it was sent. -/
theorem run_reads (hrun : (world codec).Run ls w tr) (h : PeerHandler PeerID) :
    ∀ request ∈ received tr h, Reads tr h request :=
  fun _ hmem => reads_of_run hrun hmem

theorem run_reads_newsRun : ∃ w tr, (world u16Codec).Run newsRun w tr ∧
    Reads tr (page 1) (.forward 9 (some 1) (.newPeer 1)) := by
  have hexec : ((world u16Codec).exec newsRun).map (fun r => received r.2 (page 1)) =
      some [.forward 9 (some 1) (.newPeer 1)] := by decide +kernel
  obtain ⟨⟨w, tr⟩, hrun, hreceived⟩ := Option.map_eq_some_iff.mp hexec
  refine ⟨w, tr, Machine.run_of_exec hrun, run_reads (Machine.run_of_exec hrun) (page 1) _ ?_⟩
  rw [hreceived]
  exact List.mem_cons_self

end SfRs.EndToEnd
