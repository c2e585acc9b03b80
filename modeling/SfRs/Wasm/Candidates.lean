import SfRs.Wasm.Client
/-!
# What happens to a received candidate

`handle_candidate` wants a remote description and `handle_web_rtc_candidate` a `Peer`;
without them the candidate is refused with an error.  Nothing is kept for later, so the
candidates passed to `add_ice_candidate` are the ones that arrive after the remote
description was set.
-/

set_option linter.unusedSectionVars false

namespace SfRs.Wasm

open SfRs.Lib SfRs.Protocol

variable {PeerID : Type} [DecidableEq PeerID]

/-- The candidate, other than the end of candidates, an action receives from `peerId`. -/
def Action.candidateFrom (peerId : PeerID) : Action PeerID → Option IceCandidate
  | .receive (.forward sender _ (.webRtcCandidate _ candidate)) =>
      if sender = peerId ∧ candidate.isEndOfCandidates = false then some candidate else none
  | _ => none

/-- The candidate, other than the end of candidates, an event passes to the connection
to `peerId`. -/
def Event.candidateFor (peerId : PeerID) : Event PeerID → Option IceCandidate
  | .addedIceCandidate q candidate =>
      if q = peerId ∧ candidate.isEndOfCandidates = false then some candidate else none
  | _ => none

/-- The candidates passed to the connection to `peerId`, in order. -/
def added (peerId : PeerID) (tr : List (Event PeerID)) : List IceCandidate :=
  tr.filterMap (Event.candidateFor peerId)

/-- The `Peer` exists and its remote description is set. -/
def Client.ready (c : Client PeerID) (peerId : PeerID) : Bool :=
  match c.peers peerId with
  | some peer => peer.pc.remoteDescription.isSome
  | none => false

/-- The candidates that arrive from `peerId`, each with the client that handles it. -/
def arrivals (host peerId : PeerID) :
    Client PeerID → List (Action PeerID) → List (Client PeerID × IceCandidate)
  | _, [] => []
  | c, a :: ls =>
      (a.candidateFrom peerId).toList.map (c, ·) ++
        match c.step host a with
        | some (c', _) => arrivals host peerId c' ls
        | none => []

/-- The error that refuses a candidate. -/
def Client.refusal (c : Client PeerID) (peerId : PeerID) : JsError PeerID :=
  match c.peers peerId with
  | some _ => .remoteDescriptionNotSet
  | none => .peerNotFound peerId

@[simp] theorem added_nil (peerId : PeerID) : added peerId [] = [] := rfl

@[simp] theorem added_append (peerId : PeerID) (tr es : List (Event PeerID)) :
    added peerId (tr ++ es) = added peerId tr ++ added peerId es :=
  List.filterMap_append

namespace Client

variable {host peerId : PeerID} {c c' : Client PeerID} {es : List (Event PeerID)}

theorem ready_eq (c : Client PeerID) (peerId : PeerID) :
    c.ready peerId = (c.conn peerId).remoteDescription.isSome := by
  unfold ready
  split
  case h_1 hpeer => rw [conn_of_peers hpeer]
  case h_2 hnone => rw [conn_of_noPeer hnone, PeerConnection.remoteDescription_newDefault]; rfl

/-! ## One step -/

/-- A candidate that finds no remote description leaves the client as it is. -/
theorem handleWebRtcCandidate_of_not_ready {candidate : IceCandidate}
    (h : c.ready peerId = false) :
    c.handleWebRtcCandidate peerId candidate = (c, [.failed (c.refusal peerId)]) := by
  unfold ready at h
  unfold handleWebRtcCandidate handleCandidate refusal
  cases hpeer : c.peers peerId with
  | some peer =>
      have hremote : peer.pc.remoteDescription = none := by simpa [hpeer] using h
      simp [hremote]
  | none => rfl

theorem added_handleWebRtcCandidate (q : PeerID) (candidate : IceCandidate) :
    added peerId (c.handleWebRtcCandidate q candidate).2 =
      if q = peerId ∧ candidate.isEndOfCandidates = false ∧ c.ready q = true then [candidate]
      else [] := by
  cases hready : c.ready q with
  | false =>
      rw [handleWebRtcCandidate_of_not_ready hready]
      simp [added, Event.candidateFor]
  | true =>
      unfold ready at hready
      unfold handleWebRtcCandidate handleCandidate
      split
      case h_1 peer hpeer =>
          have hremote : peer.pc.remoteDescription ≠ none := by
            simpa [hpeer, Option.isSome_iff_ne_none] using hready
          rw [if_neg hremote]
          by_cases hq : q = peerId ∧ candidate.isEndOfCandidates = false
          · split <;> simp [added, Event.candidateFor, hq]
          · split <;> simp [added, Event.candidateFor, hq]
      case h_2 hnone => simp [hnone] at hready

/-- An action that brings no candidate passes none on. -/
theorem added_eq_nil {a : Action PeerID} (h : c.step host a = some (c', es))
    (ha : a.candidateFrom peerId = none) : added peerId es = [] := by
  refine List.filterMap_eq_nil_iff.mpr fun e he => ?_
  cases emits_of_step h e he with
  | failed | notified | sent => rfl
  | added heq =>
      subst heq
      exact ha

/-- A step passes on the candidate it receives, if the connection is ready for it. -/
theorem added_of_step {a : Action PeerID} (h : c.step host a = some (c', es)) :
    added peerId es = (a.candidateFrom peerId).toList.filter fun _ => c.ready peerId := by
  cases ha : a.candidateFrom peerId with
  | none => exact added_eq_nil h ha
  | some candidate =>
      unfold Action.candidateFrom at ha
      split at ha
      case h_1 q recipient id candidate' =>
          split at ha <;> cases ha
          rename_i hq
          obtain ⟨rfl, heoc⟩ := hq
          simp only [step] at h
          split at h
          case isTrue =>
              have hevents : es = (c.handleWebRtcCandidate q candidate).2 := by
                rw [show c.handleWebRtcCandidate q candidate = (c', es) from Option.some.inj h]
              rw [hevents, added_handleWebRtcCandidate]
              cases hready : c.ready q <;> simp [heoc]
          case isFalse => cases h
      case h_2 => cases ha

/-- A change of one connection that keeps its remote description. -/
theorem isSome_update {conns : PeerID → PeerConnection} {q : PeerID} {pc : PeerConnection}
    (hready : (conns peerId).remoteDescription.isSome)
    (hkeep : (conns q).remoteDescription.isSome → pc.remoteDescription.isSome) :
    (Function.update conns q pc peerId).remoteDescription.isSome := by
  by_cases hq : peerId = q
  · subst hq
    rw [Function.update_self]
    exact hkeep hready
  · rwa [Function.update_of_ne hq]

/-- A remote description is never unset. -/
theorem ready_of_step {a : Action PeerID} (h : c.step host a = some (c', es))
    (hready : c.ready peerId = true) : c'.ready peerId = true := by
  rw [ready_eq] at hready ⊢
  cases steps_of_step h with
  | same hsame => rwa [hsame.conn]
  | connectToPeer hsame => rwa [conn_setOffers, hsame.conn]
  | offerReceived _ hsame => rwa [conn_setReader, hsame.conn]
  | offerSkipped _ hsame => rwa [conn_answerOffer, hsame.conn]
  | @offerSet q _ _ _ _ _ hpeer _ hpc =>
      rw [conn_setOffers, conn_setPeer]
      refine isSome_update hready fun hsome => ?_
      rw [conn_of_peers hpeer] at hsome
      exact PeerConnection.isSome_remoteDescription_of_setLocalDescription hpc hsome
  | @remoteSet q _ _ _ _ hpeer _ hpc =>
      rw [conn_answerOffer, conn_setPeer]
      exact isSome_update hready fun _ =>
        PeerConnection.isSome_remoteDescription_of_setRemoteDescription hpc
  | @answerSet q _ _ _ _ hpeer _ hpc =>
      rw [conn_setReader, conn_setPeer]
      refine isSome_update hready fun hsome => ?_
      rw [conn_of_peers hpeer] at hsome
      exact PeerConnection.isSome_remoteDescription_of_setLocalDescription hpc hsome
  | offerCreated | offerFailed | offerSent | candidateReceived | remoteRejected
  | answerCreated | answerSent | handled => exact hready

end Client

/-! ## Whole runs -/

variable {host peerId : PeerID}

theorem arrivals_cons {c c' : Client PeerID} {a : Action PeerID} {es : List (Event PeerID)}
    (h : c.step host a = some (c', es)) (ls : List (Action PeerID)) :
    arrivals host peerId c (a :: ls) =
      (a.candidateFrom peerId).toList.map (c, ·) ++ arrivals host peerId c' ls := by
  rw [arrivals, h]

theorem arrivals_eq_nil {c : Client PeerID} {ls : List (Action PeerID)}
    (h : ∀ a ∈ ls, a.candidateFrom peerId = none) : arrivals host peerId c ls = [] := by
  induction ls generalizing c with
  | nil => rfl
  | cons a ls ih =>
      have hrest : ∀ c', arrivals host peerId c' ls = [] := fun c' =>
        ih fun b hb => h b (List.mem_cons_of_mem a hb)
      rw [arrivals, h a List.mem_cons_self]
      split
      · exact hrest _
      · rfl

/-- The candidates that find a remote description. -/
def timely (host peerId : PeerID) (c : Client PeerID) (ls : List (Action PeerID)) :
    List IceCandidate :=
  ((arrivals host peerId c ls).filter fun r => r.1.ready peerId).map Prod.snd

theorem added_of_execFrom {c s : Client PeerID} {ls : List (Action PeerID)}
    {tr : List (Event PeerID)} (h : (client host).execFrom c ls = some (s, tr)) :
    added peerId tr = timely host peerId c ls := by
  induction ls generalizing c tr with
  | nil =>
      simp only [Machine.execFrom, Option.some.injEq, Prod.mk.injEq] at h
      obtain ⟨-, rfl⟩ := h
      rfl
  | cons a ls ih =>
      simp only [Machine.execFrom, Option.bind_eq_some_iff, Option.map_eq_some_iff] at h
      obtain ⟨⟨c', es⟩, hstep, ⟨s', tr'⟩, hrest, hpair⟩ := h
      simp only [Prod.mk.injEq] at hpair
      obtain ⟨rfl, rfl⟩ := hpair
      rw [added_append, Client.added_of_step hstep, ih hrest]
      simp only [timely, arrivals_cons hstep, List.filter_append, List.map_append]
      congr 1
      cases a.candidateFrom peerId with
      | none => rfl
      | some candidate =>
          simp only [Option.toList_some, List.map_cons, List.map_nil]
          cases hready : c.ready peerId <;> simp [hready]

theorem ready_of_mem_arrivals {c : Client PeerID} {ls : List (Action PeerID)}
    (hready : c.ready peerId = true) :
    ∀ r ∈ arrivals host peerId c ls, r.1.ready peerId = true := by
  induction ls generalizing c with
  | nil => exact fun r hr => absurd hr List.not_mem_nil
  | cons a ls ih =>
      intro r hr
      rw [arrivals, List.mem_append] at hr
      rcases hr with hr | hr
      · obtain ⟨candidate, -, rfl⟩ := List.mem_map.mp hr
        exact hready
      · split at hr
        case h_1 hstep => exact ih (Client.ready_of_step hstep hready) r hr
        case h_2 => exact absurd hr List.not_mem_nil

/-- Once a candidate is timely, all later ones are. -/
theorem arrivals_pairwise (c : Client PeerID) (ls : List (Action PeerID)) :
    (arrivals host peerId c ls).Pairwise fun r r' =>
      r.1.ready peerId = true → r'.1.ready peerId = true := by
  induction ls generalizing c with
  | nil => exact List.Pairwise.nil
  | cons a ls ih =>
      rw [arrivals, List.pairwise_append]
      refine ⟨?_, ?_, ?_⟩
      · cases a.candidateFrom peerId <;> simp
      · split
        · exact ih _
        · exact List.Pairwise.nil
      · intro r hr r' hr' hready
        obtain ⟨candidate, -, rfl⟩ := List.mem_map.mp hr
        split at hr'
        case h_1 hstep =>
            exact ready_of_mem_arrivals (Client.ready_of_step hstep hready) r' hr'
        case h_2 => exact absurd hr' List.not_mem_nil

/-- In every run the candidates passed to the connection are, in order and once each, the
ones that arrive while the `Peer` has a remote description.  They are the later ones: a
candidate that arrives before is refused, and the client is as if it had not come. -/
theorem run_added_eq_timely {ls : List (Action PeerID)} {s : Client PeerID}
    {tr : List (Event PeerID)} (h : (client host).Run ls s tr) :
    added peerId tr = timely host peerId .new ls ∧
      ((arrivals host peerId .new ls).Pairwise fun r r' =>
        r.1.ready peerId = true → r'.1.ready peerId = true) ∧
      ∀ r ∈ arrivals host peerId .new ls, r.1.ready peerId = false →
        r.1.handleWebRtcCandidate peerId r.2 = (r.1, [.failed (r.1.refusal peerId)]) :=
  ⟨added_of_execFrom h.exec_eq, arrivals_pairwise _ _,
    fun _ _ => Client.handleWebRtcCandidate_of_not_ready⟩

/-! ## A candidate before and one after the description -/

def hostCandidate : IceCandidate := ⟨some "candidate:1", some 0, some "0"⟩

def relayCandidate : IceCandidate := ⟨some "candidate:2", some 0, some "0"⟩

/-- A candidate overtakes the offer; another follows once the offer is answered. -/
def overtakingRun : List (Action Bool) :=
  [.connect,
    .receive (.forward true (some false) (.webRtcCandidate false hostCandidate)),
    .receive (.forward true (some false) (.webRtcOffer false ⟨"offer", .offer⟩)),
    .handle ⟨"", false, true⟩, .handle ⟨"answer", false, true⟩, .handle ⟨"", false, true⟩,
    .handle ⟨"", false, true⟩,
    .receive (.forward true (some false) (.webRtcCandidate false relayCandidate))]

theorem run_added_overtakingRun :
    ∃ s tr, (client false).Run overtakingRun s tr ∧ added true tr = [relayCandidate] := by
  have hexec : ((client false).exec overtakingRun).isSome := by decide
  obtain ⟨⟨s, tr⟩, hrun⟩ := Option.isSome_iff_exists.mp hexec
  have hrun := Machine.run_of_exec hrun
  have htimely : timely false true .new overtakingRun = [relayCandidate] := by decide
  exact ⟨s, tr, hrun, (run_added_eq_timely hrun).1.trans htimely⟩

/-- From every reachable state the run can go on, without further candidates from
`peerId`, until each candidate received from it has been passed on exactly once. -/
def CandidatesKept (host peerId : PeerID) : Prop :=
  ∀ ls s tr, (client host).Run ls s tr →
    ∃ ks t es, (∀ a ∈ ks, a.candidateFrom peerId = none) ∧
      (client host).execFrom s ks = some (t, es) ∧
      (added peerId (tr ++ es)).Perm ((arrivals host peerId .new ls).map Prod.snd)

/-- A candidate that arrives before its `Peer` exists is lost, whatever comes after. -/
theorem not_candidatesKept_overtaking : ¬ CandidatesKept false true := by
  intro hkept
  have hexec : ((client false).exec (overtakingRun.take 2)).map
      (fun r => added true r.2) = some [] := by decide
  obtain ⟨⟨s, tr⟩, hrun, hnone⟩ := Option.map_eq_some_iff.mp hexec
  obtain ⟨ks, t, es, hks, hgo, hperm⟩ := hkept _ s tr (Machine.run_of_exec hrun)
  have hadded : added true es = [] := by
    rw [added_of_execFrom hgo, timely, arrivals_eq_nil hks]
    rfl
  have harrived : (arrivals false true .new (overtakingRun.take 2)).map Prod.snd =
      [hostCandidate] := by decide
  rw [added_append, hnone, hadded, harrived] at hperm
  exact absurd hperm.length_eq (by decide)

end SfRs.Wasm
