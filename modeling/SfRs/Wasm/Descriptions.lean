import SfRs.Wasm.Client
/-!
# Where a client's descriptions come from

What a connection holds from the other side the client has received from that peer, and
what the client sends to a peer has been the local description of its connection to it.
-/

set_option linter.unusedSectionVars false

namespace SfRs.Wasm

open SfRs.Lib SfRs.Protocol

namespace PeerConnection

/-- The descriptions of the other side that a connection holds, in use or not. -/
inductive Holds (pc : PeerConnection) (d : SessionDescription) : Prop
  | haveRemoteOffer (h : pc.signalingState = .haveRemoteOffer d)
  | haveRemotePranswer {pendingLocal} (h : pc.signalingState = .haveRemotePranswer pendingLocal d)
  | current {localDescription} (h : pc.current = some ⟨localDescription, d⟩)

variable {pc pc' : PeerConnection} {d r : SessionDescription}

theorem not_holds_newDefault (d : SessionDescription) : ¬ newDefault.Holds d := by
  rintro (h | h | h) <;> cases h

theorem holds_of_remoteDescription (h : pc.remoteDescription = some d) : pc.Holds d := by
  have hcurrent : pc.current.map (·.remoteDescription) = some d → pc.Holds d := by
    intro hmap
    obtain ⟨⟨localDescription, remote⟩, hpc, rfl⟩ := Option.map_eq_some_iff.mp hmap
    exact .current hpc
  unfold remoteDescription at h
  split at h
  case h_1 hstate =>
      cases h
      exact .haveRemoteOffer hstate
  case h_2 hstate =>
      cases h
      exact .haveRemotePranswer hstate
  case h_3 => exact hcurrent h
  case h_4 => exact hcurrent h

theorem holds_of_setLocalDescription (h : pc.setLocalDescription d = .ok pc')
    (hholds : pc'.Holds r) : pc.Holds r := by
  rcases setLocalDescription_ok h with ⟨-, -, rfl⟩ | ⟨remote, hstate, -, rfl⟩
  · rcases hholds with h | h | h
    · cases h
    · cases h
    · exact .current h
  · rcases hholds with h | h | h
    · cases h
    · cases h
    · cases h
      exact .haveRemoteOffer hstate

theorem holds_of_setRemoteDescription {rollsBack : Bool}
    (h : pc.setRemoteDescription rollsBack d = .ok pc') (hholds : pc'.Holds r) :
    pc.Holds r ∨ r = d := by
  unfold setRemoteDescription at h
  repeat' split at h
  all_goals cases h
  -- the new description is in the signaling state or in the current one; else nothing changed
  all_goals rcases hholds with h | h | h
  all_goals first
    | exact Or.inl (.current h)
    | cases h <;> exact Or.inr rfl

theorem localDescription_of_setLocalDescription (h : pc.setLocalDescription d = .ok pc') :
    pc'.localDescription = some d := by
  rcases setLocalDescription_ok h with ⟨-, -, rfl⟩ | ⟨remote, -, -, rfl⟩
  · rfl
  · rfl

end PeerConnection

variable {PeerID : Type} [DecidableEq PeerID]

namespace Client

variable {host : PeerID} {a : Action PeerID} {c c' : Client PeerID} {es : List (Event PeerID)}

/-! ## What is received -/

/-- All that is applied, or to be applied, has been received. -/
structure Applies (received : PeerID → SessionDescription → Prop) (c : Client PeerID) : Prop where
  conn : ∀ q d, (c.conn q).Holds d → received q d
  reader : ∀ q d, c.reader = some (q, .setRemoteDescription d) → received q d

section Applies

variable {received : PeerID → SessionDescription → Prop}

theorem applies_new : (new : Client PeerID).Applies received := by
  constructor
  · exact fun q d hholds => absurd hholds (PeerConnection.not_holds_newDefault d)
  · exact fun q d hreader => by cases hreader

theorem Applies.mono {received' : PeerID → SessionDescription → Prop}
    (happlies : c.Applies received) (hmono : ∀ q d, received q d → received' q d) :
    c.Applies received' :=
  ⟨fun q d hholds => hmono q d (happlies.conn q d hholds),
    fun q d hreader => hmono q d (happlies.reader q d hreader)⟩

theorem Applies.of_same (happlies : c.Applies received) (hsame : c.Same c') :
    c'.Applies received := by
  constructor
  · rw [hsame.conn]
    exact happlies.conn
  · rw [hsame.reader]
    exact happlies.reader

theorem Applies.setOffers (happlies : c.Applies received) (q : PeerID) (tasks : List MakeOffer) :
    (c.setOffers q tasks).Applies received :=
  ⟨happlies.conn, happlies.reader⟩

theorem Applies.setReader (happlies : c.Applies received) {reader : Option (PeerID × Handling)}
    (hreader : ∀ q d, reader = some (q, .setRemoteDescription d) → received q d) :
    (c.setReader reader).Applies received :=
  ⟨happlies.conn, hreader⟩

theorem Applies.answerOffer (happlies : c.Applies received) (q : PeerID) (d : SessionDescription) :
    (c.answerOffer q d).Applies received := by
  refine happlies.setReader fun r e hreader => ?_
  split at hreader <;> cases hreader

theorem Applies.setPeer (happlies : c.Applies received) {q : PeerID} {peer : Peer}
    (hpeer : ∀ d, peer.pc.Holds d → received q d) : (c.setPeer q peer).Applies received := by
  refine ⟨fun r d hholds => ?_, happlies.reader⟩
  rw [conn_setPeer] at hholds
  by_cases hr : r = q
  · subst hr
    rw [Function.update_self] at hholds
    exact hpeer d hholds
  · rw [Function.update_of_ne hr] at hholds
    exact happlies.conn r d hholds

theorem Applies.step (happlies : c.Applies received)
    (hreceived : ∀ q d, a.descriptionFrom q = some d → received q d)
    (h : c.step host a = some (c', es)) : c'.Applies received := by
  cases steps_of_step h with
  | same hsame => exact happlies.of_same hsame
  | connectToPeer hsame => exact (happlies.of_same hsame).setOffers _ _
  | offerCreated | offerFailed | offerSent => exact happlies.setOffers _ _
  | @offerSet q _ _ _ _ _ hpeer _ hpc =>
      refine (happlies.setPeer fun d hholds => happlies.conn q d ?_).setOffers _ _
      rw [conn_of_peers hpeer]
      exact PeerConnection.holds_of_setLocalDescription hpc hholds
  | @offerReceived q _ _ d _ _ _ hsame =>
      refine (happlies.of_same hsame).setReader fun r e hreader => ?_
      cases hreader
      exact hreceived q d (by simp [Action.descriptionFrom])
  | offerSkipped _ hsame => exact (happlies.of_same hsame).answerOffer _ _
  | @remoteSet q _ d _ _ hpeer hreader hpc =>
      refine (happlies.setPeer fun e hholds => ?_).answerOffer _ _
      rcases PeerConnection.holds_of_setRemoteDescription hpc hholds with hold | rfl
      · rw [← conn_of_peers hpeer] at hold
        exact happlies.conn q e hold
      · exact happlies.reader q e hreader
  | @answerSet q _ _ _ _ hpeer _ hpc =>
      refine (happlies.setPeer fun d hholds => happlies.conn q d ?_).setReader (by simp)
      rw [conn_of_peers hpeer]
      exact PeerConnection.holds_of_setLocalDescription hpc hholds
  | candidateReceived | remoteRejected | answerCreated | answerSent | handled =>
      exact happlies.setReader (by simp)

end Applies

/-! ## What is sent -/

/-- All that is to be sent has been a local description. -/
structure Sends (wasLocal : PeerID → SessionDescription → Prop) (c : Client PeerID) : Prop where
  offers : ∀ q d, .sendPeerRequest d ∈ c.offers q → wasLocal q d
  reader : ∀ q d, c.reader = some (q, .sendPeerRequest d) → wasLocal q d

section Sends

variable {wasLocal : PeerID → SessionDescription → Prop}

theorem sends_new : (new : Client PeerID).Sends wasLocal := by
  constructor
  · exact fun q d hmem => absurd hmem List.not_mem_nil
  · exact fun q d hreader => by cases hreader

theorem Sends.mono {wasLocal' : PeerID → SessionDescription → Prop} (hsends : c.Sends wasLocal)
    (hmono : ∀ q d, wasLocal q d → wasLocal' q d) : c.Sends wasLocal' :=
  ⟨fun q d hmem => hmono q d (hsends.offers q d hmem),
    fun q d hreader => hmono q d (hsends.reader q d hreader)⟩

theorem Sends.of_same (hsends : c.Sends wasLocal) (hsame : c.Same c') : c'.Sends wasLocal := by
  constructor
  · rw [hsame.offers]
    exact hsends.offers
  · rw [hsame.reader]
    exact hsends.reader

theorem Sends.setOffers (hsends : c.Sends wasLocal) {q : PeerID} {tasks : List MakeOffer}
    (htasks : ∀ d, .sendPeerRequest d ∈ tasks → wasLocal q d) :
    (c.setOffers q tasks).Sends wasLocal := by
  refine ⟨fun r d hmem => ?_, hsends.reader⟩
  rw [offers_setOffers] at hmem
  by_cases hr : r = q
  · subst hr
    rw [Function.update_self] at hmem
    exact htasks d hmem
  · rw [Function.update_of_ne hr] at hmem
    exact hsends.offers r d hmem

theorem Sends.replaceOffer (hsends : c.Sends wasLocal) {q : PeerID} (i : Nat) {task : MakeOffer}
    (htask : ∀ d, task = .sendPeerRequest d → wasLocal q d) :
    (c.setOffers q ((c.offers q).set i task)).Sends wasLocal := by
  refine hsends.setOffers fun d hmem => ?_
  rcases List.mem_or_eq_of_mem_set hmem with hold | heq
  · exact hsends.offers q d hold
  · exact htask d heq.symm

theorem Sends.eraseOffer (hsends : c.Sends wasLocal) (q : PeerID) (i : Nat) :
    (c.setOffers q ((c.offers q).eraseIdx i)).Sends wasLocal :=
  hsends.setOffers fun d hmem => hsends.offers q d (List.mem_of_mem_eraseIdx hmem)

theorem Sends.setPeer (hsends : c.Sends wasLocal) (q : PeerID) (peer : Peer) :
    (c.setPeer q peer).Sends wasLocal :=
  ⟨hsends.offers, hsends.reader⟩

theorem Sends.setReader (hsends : c.Sends wasLocal) {reader : Option (PeerID × Handling)}
    (hreader : ∀ q d, reader = some (q, .sendPeerRequest d) → wasLocal q d) :
    (c.setReader reader).Sends wasLocal :=
  ⟨hsends.offers, hreader⟩

theorem Sends.answerOffer (hsends : c.Sends wasLocal) (q : PeerID) (d : SessionDescription) :
    (c.answerOffer q d).Sends wasLocal := by
  refine hsends.setReader fun r e hreader => ?_
  split at hreader <;> cases hreader

/-- A description that is set is the local description of the connection in `c'`. -/
theorem Sends.step (hsends : c.Sends wasLocal)
    (hlocal : ∀ q d, (c'.conn q).localDescription = some d → wasLocal q d)
    (h : c.step host a = some (c', es)) : c'.Sends wasLocal := by
  cases steps_of_step h with
  | same hsame => exact hsends.of_same hsame
  | connectToPeer hsame =>
      refine (hsends.of_same hsame).setOffers fun d hmem => hsends.offers _ d ?_
      simpa using hmem
  | offerCreated => exact hsends.replaceOffer _ (by simp)
  | offerFailed | offerSent => exact hsends.eraseOffer _ _
  | @offerSet q i _ d peer pc hpeer htask hpc =>
      refine (hsends.setPeer _ _).replaceOffer _ fun e heq => ?_
      cases heq
      refine hlocal q d ?_
      rw [conn_setOffers, conn_setPeer, Function.update_self]
      exact PeerConnection.localDescription_of_setLocalDescription hpc
  | offerReceived _ hsame => exact (hsends.of_same hsame).setReader (by simp)
  | offerSkipped _ hsame => exact (hsends.of_same hsame).answerOffer _ _
  | remoteSet => exact (hsends.setPeer _ _).answerOffer _ _
  | @answerSet q _ d peer pc hpeer _ hpc =>
      refine (hsends.setPeer _ _).setReader fun r e hreader => ?_
      cases hreader
      refine hlocal q d ?_
      rw [conn_setReader, conn_setPeer, Function.update_self]
      exact PeerConnection.localDescription_of_setLocalDescription hpc
  | candidateReceived | remoteRejected | answerCreated | answerSent | handled =>
      exact hsends.setReader (by simp)

theorem Sends.sent (hsends : c.Sends wasLocal) (h : c.step host a = some (c', es)) :
    ∀ e ∈ es, ∀ q d, e.descriptionTo q = some d → wasLocal q d := by
  have hnone : Silent es → ∀ e ∈ es, ∀ q d, e.descriptionTo q = some d → wasLocal q d := by
    intro hsilent e he q d hto
    rw [hsilent e he q] at hto
    cases hto
  have hone : ∀ {q d}, wasLocal q d →
      ∀ e ∈ [Event.sent (.forward host (some q) (.webRtcOffer q d))],
        ∀ r d', e.descriptionTo r = some d' → wasLocal r d' := by
    intro q d hd e he r d' hto
    rw [List.mem_singleton.mp he] at hto
    simp only [Event.descriptionTo] at hto
    split at hto <;> cases hto
    rename_i hqr
    rwa [← hqr]
  cases steps_of_step h with
  | same _ _ hsilent => exact hnone hsilent
  | connectToPeer _ hsilent => exact hnone hsilent
  | offerSent htask => exact hone (hsends.offers _ _ (List.mem_of_getElem? htask))
  | offerReceived _ _ hsilent => exact hnone hsilent
  | offerSkipped _ _ hsilent => exact hnone hsilent
  | candidateReceived _ hsilent => exact hnone hsilent
  | answerSent hreader => exact hone (hsends.reader _ _ hreader)
  | handled _ _ _ _ _ hsilent => exact hnone hsilent
  | offerCreated | offerSet | offerFailed | remoteSet | remoteRejected | answerCreated
  | answerSet => exact hnone (by simp [Silent, Event.descriptionTo])

end Sends

end Client

end SfRs.Wasm
