import SfRs.EndToEnd.Handshake
import SfRs.Server.Serving
/-!
# What is sent arrives

A page whose socket is up needs nobody else: from wherever a run has come to, its own steps
and those of its connection carry to the server all that its tasks have sent, and to its
client all that the server holds for it.  So a request to a registered peer whose socket is
up as well can always be brought to it.
-/

set_option linter.unusedSectionVars false

namespace SfRs.EndToEnd

open SfRs.Lib SfRs.Protocol SfRs.Server

variable {PeerID : Type} [DecidableEq PeerID]

/-! ## One client -/

section Client

variable {host q : PeerID} {c c' : Wasm.Client PeerID} {a : Wasm.Action PeerID}
  {es : List (Wasm.Event PeerID)} {request : PeerRequest PeerID}

theorem sent_getOrCreatePeer {peer : Wasm.Peer}
    (h : c.getOrCreatePeer q = .ok (c', peer, es)) : es.filterMap sentRequest = [] := by
  unfold Wasm.Client.getOrCreatePeer at h
  repeat' split at h
  all_goals cases h
  all_goals rfl

theorem sent_processPeerRequest (c : Wasm.Client PeerID) (request : PeerRequest PeerID) :
    (c.processPeerRequest request).2.filterMap sentRequest = [] := by
  rcases request with _ | ⟨q, recipient, id | ⟨id, message⟩ | ⟨id, d⟩ | ⟨id, candidate⟩⟩
  case forward.webRtcOffer =>
      show (c.handleWebRtcOffer q d).2.filterMap sentRequest = []
      unfold Wasm.Client.handleWebRtcOffer
      split
      case h_1 hpeer => exact sent_getOrCreatePeer hpeer
      case h_2 => rfl
  case forward.webRtcCandidate =>
      show (c.handleWebRtcCandidate q candidate).2.filterMap sentRequest = []
      unfold Wasm.Client.handleWebRtcCandidate Wasm.Client.handleCandidate
      repeat' split
      all_goals rfl
  all_goals rfl

/-- A client sends each request to one peer, in its own name. -/
theorem unicast_of_step (h : c.step host a = some (c', es)) :
    ∀ request ∈ es.filterMap sentRequest, ∃ target data,
      request = .forward host (some target) data := by
  cases a with
  | connect =>
      simp only [Wasm.Client.step, Wasm.Client.connect] at h
      split at h <;> cases h
      all_goals simp [sentRequest]
  | connectToPeer q =>
      simp only [Wasm.Client.step, Wasm.Client.connectToPeer] at h
      split at h
      case h_1 hpeer =>
          cases h
          simp [sent_getOrCreatePeer hpeer]
      case h_2 =>
          cases h
          simp [sentRequest]
  | receive request =>
      simp only [Wasm.Client.step] at h
      split at h
      case isTrue =>
          have hsent := sent_processPeerRequest c request
          rw [Option.some.inj h] at hsent
          simp [hsent]
      case isFalse => cases h
  | makeOffer q i settled =>
      simp only [Wasm.Client.step, Wasm.Client.makeOffer] at h
      repeat' split at h
      all_goals cases h
      all_goals simp [sentRequest]
  | handle settled =>
      simp only [Wasm.Client.step, Wasm.Client.handle] at h
      repeat' split at h
      all_goals cases h
      all_goals simp [sentRequest]
  | gather q candidate =>
      simp only [Wasm.Client.step, Wasm.Client.gather] at h
      repeat' split at h
      all_goals cases h
      all_goals simp [sentRequest]

/-- The peer that a handler works on is there. -/
def Held (c : Wasm.Client PeerID) : Prop :=
  ∀ q handling, c.reader = some (q, handling) → c.peers q ≠ none

theorem held_of_reader (hreader : c.reader = none) : Held c := by
  intro q handling h
  rw [hreader] at h
  cases h

theorem held_setReader {handling : Wasm.Handling} (hpeer : c.peers q ≠ none) :
    Held (c.setReader (some (q, handling))) := by
  intro p handling' h
  cases h
  exact hpeer

theorem Held.mono (hheld : Held c) (hreader : c'.reader = c.reader)
    (hpeers : ∀ p, c.peers p ≠ none → c'.peers p ≠ none) : Held c' :=
  fun p handling h => hpeers p (hheld p handling (hreader ▸ h))

theorem setPeer_ne_none {peer : Wasm.Peer} (p : PeerID) (hp : c.peers p ≠ none) :
    (c.setPeer q peer).peers p ≠ none := by
  by_cases hq : p = q
  · simp [Wasm.Client.setPeer, hq]
  · simpa [Wasm.Client.setPeer, hq] using hp

theorem setPeer_self_ne_none {peer : Wasm.Peer} : (c.setPeer q peer).peers q ≠ none := by
  simp [Wasm.Client.setPeer]

theorem peers_getOrCreatePeer {peer : Wasm.Peer} (h : c.getOrCreatePeer q = .ok (c', peer, es)) :
    c'.ws = c.ws ∧ c'.reader = c.reader ∧ c'.peers q ≠ none ∧
      ∀ p, c.peers p ≠ none → c'.peers p ≠ none := by
  unfold Wasm.Client.getOrCreatePeer at h
  split at h
  case h_1 hpeer =>
      cases h
      exact ⟨rfl, rfl, by simp [hpeer], fun _ hp => hp⟩
  case h_2 =>
      split at h
      case isFalse => cases h
      case isTrue =>
          cases h
          have hpeers : (c.addPeer q .new).peers = (c.setPeer q .new).peers :=
            peers_addKnownPeerId
          refine ⟨?_, ?_, hpeers ▸ setPeer_self_ne_none, fun p hp => hpeers ▸ setPeer_ne_none p hp⟩
          · unfold Wasm.Client.addPeer Wasm.Client.addKnownPeerId
            split <;> rfl
          · unfold Wasm.Client.addPeer Wasm.Client.addKnownPeerId
            split <;> rfl

theorem held_handleOffer {peer : Wasm.Peer} (d : SessionDescription) (hpeer : c.peers q ≠ none) :
    Held (c.handleOffer q peer d) := by
  unfold Wasm.Client.handleOffer Wasm.Client.answerOffer
  repeat' split
  all_goals first
    | exact held_setReader hpeer
    | exact held_of_reader rfl

/-- A handler starts with the connection to its peer. -/
theorem held_processPeerRequest (hreader : c.reader = none) (request : PeerRequest PeerID) :
    (c.processPeerRequest request).1.ws = c.ws ∧ Held (c.processPeerRequest request).1 := by
  have hsame : Held c := held_of_reader hreader
  rcases request with _ | ⟨q, recipient, id | ⟨id, message⟩ | ⟨id, d⟩ | ⟨id, candidate⟩⟩
  case forward.newPeer =>
      show (c.addKnownPeerId id).ws = c.ws ∧ Held (c.addKnownPeerId id)
      unfold Wasm.Client.addKnownPeerId
      split
      · exact ⟨rfl, hsame⟩
      · exact ⟨rfl, held_of_reader hreader⟩
  case forward.webRtcOffer =>
      show (c.handleWebRtcOffer q d).1.ws = c.ws ∧ Held (c.handleWebRtcOffer q d).1
      unfold Wasm.Client.handleWebRtcOffer
      split
      case h_1 c₁ peer es hpeer =>
          obtain ⟨hws, -, hq, -⟩ := peers_getOrCreatePeer hpeer
          refine ⟨?_, held_handleOffer d hq⟩
          rw [← hws]
          unfold Wasm.Client.handleOffer Wasm.Client.answerOffer
          split <;> rfl
      case h_2 => exact ⟨rfl, hsame⟩
  case forward.webRtcCandidate =>
      show (c.handleWebRtcCandidate q candidate).1.ws = c.ws ∧
        Held (c.handleWebRtcCandidate q candidate).1
      unfold Wasm.Client.handleWebRtcCandidate Wasm.Client.handleCandidate
      split
      case h_1 peer hpeer =>
          split
          case isTrue => exact ⟨rfl, hsame⟩
          case isFalse =>
              split
              case h_1 => exact ⟨rfl, held_setReader (by simp [hpeer])⟩
              case h_2 => exact ⟨rfl, hsame⟩
      case h_2 => exact ⟨rfl, hsame⟩
  all_goals exact ⟨rfl, hsame⟩

/-- How many promises a handler has still to await, at most. -/
def promises : Wasm.Handling → Nat
  | .setRemoteDescription _ => 4
  | .createAnswer => 3
  | .setLocalDescription _ => 2
  | .sendPeerRequest _ | .addIceCandidate => 1

/-- The promise that a handler awaits can settle, and the handler goes on or ends. -/
theorem exists_handle (hheld : Held c) {handling : Wasm.Handling}
    (hreader : c.reader = some (q, handling)) (host : PeerID) (settled : Wasm.Settled) :
    ∃ c' es, c.handle host settled = some (c', es) ∧ c'.ws = c.ws ∧ Held c' ∧
      ∀ p handling', c'.reader = some (p, handling') → promises handling' < promises handling := by
  obtain ⟨peer, hpeer⟩ := Option.ne_none_iff_exists'.mp (hheld q handling hreader)
  have hq : c.peers q ≠ none := by simp [hpeer]
  have hdone : ∀ es, c.handle host settled = some (c.setReader none, es) → ∃ c' es,
      c.handle host settled = some (c', es) ∧ c'.ws = c.ws ∧ Held c' ∧
        ∀ p handling', c'.reader = some (p, handling') → promises handling' < promises handling :=
    fun es hstep => ⟨_, es, hstep, rfl, held_of_reader rfl, fun _ _ h => by cases h⟩
  cases handling with
  | setRemoteDescription offer =>
      cases hset : peer.pc.setRemoteDescription settled.rollsBack offer with
      | ok pc =>
          refine ⟨(c.setPeer q { peer with pc := pc }).answerOffer q offer, [], ?_, rfl, ?_, ?_⟩
          · simp [Wasm.Client.handle, hreader, hpeer, hset]
          · unfold Wasm.Client.answerOffer
            split
            · exact held_setReader setPeer_self_ne_none
            · exact held_of_reader rfl
          · intro p handling' h
            unfold Wasm.Client.answerOffer at h
            split at h
            · cases h
              simp [promises]
            · cases h
      | error e => exact hdone _ (by simp [Wasm.Client.handle, hreader, hpeer, hset]; rfl)
  | createAnswer =>
      cases hcreate : peer.pc.createAnswer settled.sdp with
      | ok d =>
          refine
            ⟨c.setReader (some (q, .setLocalDescription d)), [], ?_, rfl, held_setReader hq, ?_⟩
          · simp [Wasm.Client.handle, hreader, hpeer, hcreate]
          · intro p handling' h
            cases h
            simp [promises]
      | error e => exact hdone _ (by simp [Wasm.Client.handle, hreader, hpeer, hcreate]; rfl)
  | setLocalDescription d =>
      cases hset : peer.pc.setLocalDescription d with
      | ok pc =>
          refine ⟨(c.setPeer q { peer with pc := pc }).setReader (some (q, .sendPeerRequest d)), [],
            ?_, rfl, held_setReader setPeer_self_ne_none, ?_⟩
          · simp [Wasm.Client.handle, hreader, hpeer, hset]
          · intro p handling' h
            cases h
            simp [promises]
      | error e => exact hdone _ (by simp [Wasm.Client.handle, hreader, hpeer, hset]; rfl)
  | sendPeerRequest d => exact hdone _ (by simp [Wasm.Client.handle, hreader, hpeer]; rfl)
  | addIceCandidate => exact hdone _ (by simp [Wasm.Client.handle, hreader, hpeer]; rfl)

/-- The socket is never given up, and no handler loses its peer. -/
theorem held_of_step (hheld : Held c) (h : c.step host a = some (c', es)) :
    (c.ws = true → c'.ws = true) ∧ Held c' := by
  cases a with
  | connect =>
      simp only [Wasm.Client.step, Wasm.Client.connect] at h
      split at h <;> cases h
      · exact ⟨id, hheld⟩
      · exact ⟨fun _ => rfl, hheld⟩
  | connectToPeer q =>
      simp only [Wasm.Client.step, Wasm.Client.connectToPeer] at h
      split at h
      case h_1 hpeer =>
          cases h
          obtain ⟨hws, hreader, -, hpeers⟩ := peers_getOrCreatePeer hpeer
          exact ⟨fun h => hws.trans h, hheld.mono hreader hpeers⟩
      case h_2 =>
          cases h
          exact ⟨id, hheld⟩
  | receive request =>
      simp only [Wasm.Client.step] at h
      split at h
      case isTrue hready =>
          have hnext := held_processPeerRequest hready.2 request
          rw [Option.some.inj h] at hnext
          exact ⟨fun h => hnext.1.trans h, hnext.2⟩
      case isFalse => cases h
  | makeOffer q i settled =>
      simp only [Wasm.Client.step, Wasm.Client.makeOffer] at h
      repeat' split at h
      all_goals cases h
      all_goals first
        | exact ⟨id, hheld⟩
        | exact ⟨id, hheld.mono rfl fun p hp => setPeer_ne_none p hp⟩
  | handle settled =>
      cases hreader : c.reader with
      | none => simp [Wasm.Client.step, Wasm.Client.handle, hreader] at h
      | some reader =>
          obtain ⟨c₁, es₁, hstep, hws, hnext, -⟩ := exists_handle hheld hreader host settled
          cases hstep.symm.trans h
          exact ⟨fun h => hws.trans h, hnext⟩
  | gather q candidate =>
      simp only [Wasm.Client.step, Wasm.Client.gather] at h
      repeat' split at h
      all_goals cases h
      all_goals first
        | exact ⟨id, hheld⟩
        | exact ⟨id, hheld.mono rfl fun p hp => setPeer_ne_none p hp⟩

end Client

/-! ## Steps of one page -/

/-- The steps of the page `h` and of its connection in which nothing fails, and those of
send tasks. -/
def WorldAction.Of (h : PeerHandler PeerID) : WorldAction PeerID → Prop
  | .client g (.handle _) | .write g true | .read g | .arrive g => g = h
  | .server a => a.Of h
  | _ => False

/-- Steps of `h` lead from `w` to `w'`, and leave everything of the others as it is. -/
structure Proceeds (codec : Codec PeerID) (h : PeerHandler PeerID) (w w' : World PeerID)
    (es : List (WorldEvent PeerID)) : Prop where
  leads : (world codec).Leads (WorldAction.Of h) w w' es
  peers : w'.server.app.peers = w.server.app.peers
  conns : ∀ g, g ≠ h → w'.server.conns g = w.server.conns g
  channels : ∀ g, g ≠ h → w'.server.app.channels g = w.server.app.channels g
  tabs : ∀ g, g ≠ h → w'.tabs g = w.tabs g
  up : ∀ g, g ≠ h → w'.up g = w.up g
  down : ∀ g, g ≠ h → w'.down g = w.down g
  reading : (w'.tabs h).reading = (w.tabs h).reading
  writing : (w'.tabs h).writing = (w.tabs h).writing

section Steps

variable {codec : Codec PeerID} {w w' w'' : World PeerID} {l : WorldAction PeerID}
  {ls : List (WorldAction PeerID)} {tr es es' : List (WorldEvent PeerID)} {h : PeerHandler PeerID}

theorem Proceeds.refl (w : World PeerID) : Proceeds codec h w w [] :=
  ⟨.refl w, rfl, fun _ _ => rfl, fun _ _ => rfl, fun _ _ => rfl, fun _ _ => rfl, fun _ _ => rfl,
    rfl, rfl⟩

theorem Proceeds.trans (hw : Proceeds codec h w w' es) (hw' : Proceeds codec h w' w'' es') :
    Proceeds codec h w w'' (es ++ es') where
  leads := hw.leads.trans hw'.leads
  peers := hw'.peers.trans hw.peers
  conns g hg := (hw'.conns g hg).trans (hw.conns g hg)
  channels g hg := (hw'.channels g hg).trans (hw.channels g hg)
  tabs g hg := (hw'.tabs g hg).trans (hw.tabs g hg)
  up g hg := (hw'.up g hg).trans (hw.up g hg)
  down g hg := (hw'.down g hg).trans (hw.down g hg)
  reading := hw'.reading.trans hw.reading
  writing := hw'.writing.trans hw.writing

/-- A step of the page, without the server. -/
theorem proceeds_of_page (hl : l.Of h) (hstep : w.step codec l = some (w', es))
    (hserver : w'.server = w.server) (htabs : ∀ g, g ≠ h → w'.tabs g = w.tabs g)
    (hup : ∀ g, g ≠ h → w'.up g = w.up g) (hdown : ∀ g, g ≠ h → w'.down g = w.down g)
    (hreading : (w'.tabs h).reading = (w.tabs h).reading)
    (hwriting : (w'.tabs h).writing = (w.tabs h).writing) : Proceeds codec h w w' es :=
  ⟨Machine.leads_step hl hstep, by rw [hserver], fun _ _ => by rw [hserver],
    fun _ _ => by rw [hserver], htabs, hup, hdown, hreading, hwriting⟩

/-! ### The server -/

theorem serve_nil (w : World PeerID) : w.serve codec w.server [] = w := by
  simp [World.serve, written]

theorem serve_serve (w : World PeerID) (s s' : ServerState PeerID)
    (ses ses' : List (ServerEvent PeerID)) :
    (w.serve codec s ses).serve codec s' ses' = w.serve codec s' (ses ++ ses') := by
  simp [World.serve, written_append, List.append_assoc]

theorem execFrom_server {as : List (ServerAction PeerID)} {s : ServerState PeerID}
    {ses : List (ServerEvent PeerID)} (hof : ∀ a ∈ as, a.Of h)
    (hexec : (server codec.fromStr).execFrom w.server as = some (s, ses)) :
    (world codec).execFrom w (as.map .server) = some (w.serve codec s ses, ses.map .server) := by
  induction as generalizing w ses with
  | nil =>
      cases hexec
      rw [serve_nil]
      rfl
  | cons a as ih =>
      simp only [Machine.execFrom, Option.bind_eq_some_iff, Option.map_eq_some_iff] at hexec
      obtain ⟨⟨s₁, ses₁⟩, hstep, ⟨s₂, ses₂⟩, hrest, hpair⟩ := hexec
      cases hpair
      have hadmits : w.admits a = true := by
        have ha := hof a List.mem_cons_self
        unfold World.admits
        split
        · exact ha.elim
        · exact ha.elim
        · rfl
      have hfirst : (world codec).step w (.server a) =
          some (w.serve codec s₁ ses₁, ses₁.map .server) := by
        have hs : w.server.step codec.fromStr a = some (s₁, ses₁) := hstep
        simp [world, World.step, hadmits, hs]
      have hrest' := ih (w := w.serve codec s₁ ses₁)
        (fun b hb => hof b (List.mem_cons_of_mem a hb)) hrest
      rw [serve_serve] at hrest'
      simp [Machine.execFrom, hfirst, hrest']

/-- What the connection of a page does by itself. -/
theorem proceeds_of_goesOn {s : ServerState PeerID} {ses : List (ServerEvent PeerID)}
    (hgo : GoesOn codec.fromStr h w.server s ses) :
    Proceeds codec h w (w.serve codec s ses) (ses.map .server) where
  leads := by
    obtain ⟨as, hof, hexec⟩ := hgo.leads
    refine ⟨as.map .server, fun l hl => ?_, execFrom_server hof hexec⟩
    obtain ⟨a, ha, rfl⟩ := List.mem_map.mp hl
    exact hof a ha
  peers := hgo.peers
  conns := hgo.conns
  channels := hgo.channels
  tabs _ _ := rfl
  up _ _ := rfl
  down g hg := by simp [World.serve, hgo.unwritten g hg]
  reading := rfl
  writing := rfl

/-! ### What the page reads -/

/-- A step in which the client of the page goes on. -/
theorem proceeds_of_perform (hl : l.Of h) {w₀ : World PeerID} {c : Wasm.Client PeerID}
    {ces : List (Wasm.Event PeerID)}
    (hstep : w.step codec l = some (w₀.setTab h ((w.tabs h).perform codec c ces), es))
    (hserver : w₀.server = w.server) (htabs : w₀.tabs = w.tabs) (hup : w₀.up = w.up)
    (hdown : ∀ g, g ≠ h → w₀.down g = w.down g) :
    Proceeds codec h w (w₀.setTab h ((w.tabs h).perform codec c ces)) es := by
  refine proceeds_of_page hl hstep hserver (fun g hg => ?_) (fun g _ => congrFun hup g) hdown ?_ ?_
  · simp [World.setTab, hg, htabs]
  · simp [World.setTab, Tab.perform]
  · simp [World.setTab, Tab.perform]

variable (codec) in
/-- The handler that runs comes to its end. -/
theorem exists_idle (hheld : Held (w.tabs h).client) :
    ∃ w' es, Proceeds codec h w w' es ∧ w'.server = w.server ∧ w'.down = w.down ∧
      (w'.tabs h).client.ws = (w.tabs h).client.ws ∧ (w'.tabs h).client.reader = none ∧
      serverEvents es = [] := by
  induction hleft : ((w.tabs h).client.reader.map fun r => promises r.2).getD 0 using
    Nat.strong_induction_on generalizing w with
  | _ n ih =>
      cases hreader : (w.tabs h).client.reader with
      | none => exact ⟨w, [], .refl w, rfl, rfl, rfl, hreader, rfl⟩
      | some reader =>
          obtain ⟨q, handling⟩ := reader
          obtain ⟨c, ces, hhandle, hws, hheld', hlt⟩ :=
            exists_handle hheld hreader h.peerId ⟨"", false, true⟩
          let w₁ := w.setTab h ((w.tabs h).perform codec c ces)
          have hclient : (w₁.tabs h).client = c := by simp [w₁, World.setTab, Tab.perform]
          have hstep : w.step codec (.client h (.handle ⟨"", false, true⟩)) =
              some (w₁, ces.map (.client h)) := by
            simp only [World.step, Wasm.Client.step, hhandle, Option.map_some, w₁]
          have hof : WorldAction.Of h (.client h (.handle ⟨"", false, true⟩)) := rfl
          have hfirst : Proceeds codec h w w₁ (ces.map (.client h)) :=
            proceeds_of_perform hof hstep rfl rfl rfl fun _ _ => rfl
          have hless : ((w₁.tabs h).client.reader.map fun r => promises r.2).getD 0 < n := by
            rw [← hleft, hreader, hclient]
            cases hreader' : c.reader with
            | none => cases handling <;> simp [promises]
            | some reader' => exact hlt reader'.1 reader'.2 hreader'
          obtain ⟨w', es, hrest, hserver, hdown, hws', hidle, hes⟩ :=
            ih _ hless (hclient ▸ hheld') rfl
          exact ⟨w', _, hfirst.trans hrest, hserver, hdown, hws'.trans (hclient ▸ hws), hidle,
            by simp [hes]⟩

/-- The reader loop reads all that is on its way, and its last handler ends. -/
theorem exists_read {requests : List (PeerRequest PeerID)}
    (hdown : w.down h = requests.map fun request => .text (codec.write request))
    (hheld : Held (w.tabs h).client) (hws : (w.tabs h).client.ws = true)
    (hreading : (w.tabs h).reading = true) :
    ∃ w' es, Proceeds codec h w w' es ∧ w'.server = w.server ∧ w'.down h = [] ∧
      (w'.tabs h).client.reader = none ∧ serverEvents es = [] := by
  induction requests generalizing w with
  | nil =>
      obtain ⟨w', es, hproceeds, hserver, hdown', -, hreader, hes⟩ := exists_idle codec hheld
      exact ⟨w', es, hproceeds, hserver, by rw [hdown', hdown]; rfl, hreader, hes⟩
  | cons request requests ih =>
      obtain ⟨w₁, es₁, hfirst, hserver₁, hdown₁, hws₁, hreader₁, hes₁⟩ :=
        exists_idle codec hheld
      have hws₁ := hws₁.trans hws
      have hreading₁ := hfirst.reading.trans hreading
      have hdown₁ : w₁.down h = .text (codec.write request) ::
          requests.map fun request => .text (codec.write request) := by rw [hdown₁, hdown]; rfl
      obtain ⟨hws₂, hheld₂⟩ := held_processPeerRequest hreader₁ request
      let r := (w₁.tabs h).client.processPeerRequest request
      let w₂ := (w₁.setDown h (requests.map fun request => .text (codec.write request))).setTab h
        ((w₁.tabs h).perform codec r.1 r.2)
      have hstep : w₁.step codec (.read h) =
          some (w₂, .received h request :: r.2.map (.client h)) := by
        have hidle : (w₁.tabs h).idle = true := by simp [Tab.idle, hreading₁, hreader₁]
        have hreceive : (w₁.tabs h).client.step h.peerId (.receive request) = some r := by
          simp [Wasm.Client.step, hws₁, hreader₁, r]
        simp only [World.step, hidle, if_true, hdown₁, World.handleIncomingText,
          codec.fromStr_write]
        rw [show (w₁.setDown h (requests.map fun request => .text (codec.write request))).tabs =
          w₁.tabs from rfl, hreceive]
        rfl
      have hclient : (w₂.tabs h).client = r.1 := by simp [w₂, World.setTab, Tab.perform]
      have hof : WorldAction.Of h (.read h) := rfl
      have hsecond : Proceeds codec h w₁ w₂ (.received h request :: r.2.map (.client h)) :=
        proceeds_of_perform hof hstep rfl rfl rfl fun g hg => by simp [World.setDown, hg]
      obtain ⟨w', es, hrest, hserver, hempty, hreader, hes⟩ := ih (w := w₂)
        (by simp [w₂, World.setTab, World.setDown]) (hclient ▸ hheld₂)
        (by rw [hclient]; exact hws₂.trans hws₁) (hsecond.reading.trans hreading₁)
      exact ⟨w', _, (hfirst.trans hsecond).trans hrest, hserver.trans hserver₁, hempty, hreader,
        by simp [hes₁, hes]⟩

/-! ### What the page writes -/

variable (codec) in
/-- The writer loop writes all that is queued. -/
theorem exists_written (hwriting : (w.tabs h).writing = true) :
    ∃ w', Proceeds codec h w w' [] ∧ w'.server = w.server ∧ w'.down = w.down ∧
      (w'.tabs h).client = (w.tabs h).client ∧ (w'.tabs h).outbox = [] := by
  induction houtbox : (w.tabs h).outbox generalizing w with
  | nil => exact ⟨w, .refl w, rfl, rfl, rfl, houtbox⟩
  | cons text outbox ih =>
      let w₁ := (w.setTab h { w.tabs h with outbox := outbox }).setUp h (w.up h ++ [text])
      have hstep : w.step codec (.write h true) = some (w₁, []) := by
        simp only [World.step, hwriting, houtbox, if_true, w₁]
      have hof : WorldAction.Of h (.write h true) := rfl
      have hfirst : Proceeds codec h w w₁ [] := by
        refine proceeds_of_page hof hstep rfl (fun g hg => ?_) (fun g hg => ?_)
          (fun _ _ => rfl) ?_ ?_
        · simp [w₁, World.setTab, World.setUp, hg]
        · simp [w₁, World.setTab, World.setUp, hg]
        · simp [w₁, World.setTab, World.setUp]
        · simp [w₁, World.setTab, World.setUp]
      have hclient₁ : (w₁.tabs h).client = (w.tabs h).client := by
        simp [w₁, World.setTab, World.setUp]
      obtain ⟨w', hrest, hserver, hdown, hclient, hempty⟩ := ih (w := w₁)
        (hfirst.writing.trans hwriting) (by simp [w₁, World.setTab, World.setUp])
      exact ⟨w', hfirst.trans hrest, hserver, hdown, hclient.trans hclient₁, hempty⟩

/-! ### What the server reads of the page -/

/-- The next request is read, and its call returns.  When its recipient is registered, a send
task holds the request for it. -/
theorem exists_forwarded {target : PeerID} {data : PeerEvent PeerID} {up : List String} {n : Nat}
    (hup : w.up h = codec.write (.forward h.peerId (some target) data) :: up)
    (hconn : w.server.conns h = .serving n) (hfresh : w.server.app.calls (h, n) = none) :
    ∃ w' es, Proceeds codec h w w' es ∧ w'.tabs = w.tabs ∧ sent es h = [] ∧
      w'.down h = w.down h ∧ w'.server.app.channels = w.server.app.channels ∧
      w.server.app.tasks ⊆ w'.server.app.tasks ∧ w'.up h = up ∧
      w'.server.conns h = .serving (n + 1) ∧
      ∀ g, w.server.app.peers.lookup target = some g → ∃ task ∈ w'.server.app.tasks,
        task.handler = g ∧ task.payload = .forward h.peerId (some target) data := by
  let call := Call.handleForward h.peerId h.peerId (some target) data
  let s₁ := { w.server.incrementReceived h.peerId with
    app := w.server.app.setCall (h, n) call.start }.setConn h (.dispatching n)
  let ses₁ : List (ServerEvent PeerID) :=
    [.frame h n (.forward h.peerId (some target) data), .app (.called (h, n) call)]
  let w₁ := (w.setUp h up).serve codec s₁ ses₁
  have hwritten : ∀ g, written ses₁ g = [] := fun g => by simp [ses₁, written]
  have hstep : w.step codec (.arrive h) = some (w₁, ses₁.map .server) := by
    have hs : w.server.step codec.fromStr (.inbound h (some (.text
        (codec.write (.forward h.peerId (some target) data))))) = some (s₁, ses₁) :=
      step_forward (codec.fromStr_write _) hconn hfresh
    simp only [World.step, hup, hs, Option.map_some, w₁]
  have hof : WorldAction.Of h (.arrive h) := rfl
  have hfirst : Proceeds codec h w w₁ (ses₁.map .server) := by
    refine ⟨Machine.leads_step hof hstep, rfl, fun g hg => ?_, fun _ _ => rfl, fun _ _ => rfl,
      fun g hg => ?_, fun g _ => ?_, rfl, rfl⟩
    · simp [w₁, s₁, World.serve, ServerState.setConn, ServerState.incrementReceived, hg]
    · simp [w₁, World.serve, World.setUp, hg]
    · simp [w₁, World.serve, World.setUp, hwritten]
  have hdispatching : s₁.conns h = .dispatching n := by simp [s₁, ServerState.setConn]
  have hcall : s₁.app.calls (h, n) = some (.sendForward h.peerId target data) :=
    AppState.setCall_calls_self _ _ _
  obtain ⟨s₂, ses₂, hrelayed, htask⟩ := exists_relayed_sending codec.fromStr hdispatching hcall
  have hsecond : Proceeds codec h w₁ (w₁.serve codec s₂ ses₂) (ses₂.map .server) :=
    proceeds_of_goesOn hrelayed.goesOn
  refine ⟨_, _, hfirst.trans hsecond, rfl, by simp, ?_, hrelayed.channels, hrelayed.tasks, ?_,
    hrelayed.serving, htask⟩
  · simp [w₁, World.serve, World.setUp, hwritten, hrelayed.unwritten]
  · simp [w₁, World.serve, World.setUp]

/-- The server reads all that is on its way. -/
theorem exists_arrived {requests : List (PeerRequest PeerID)} (hrun : (world codec).Run ls w tr)
    (hup : w.up h = requests.map codec.write)
    (hrequests : ∀ request ∈ requests, ∃ target data,
      request = .forward h.peerId (some target) data) {n : Nat}
    (hconn : w.server.conns h = .serving n) :
    ∃ w' es m, Proceeds codec h w w' es ∧ w'.tabs = w.tabs ∧ sent es h = [] ∧
      w'.down h = w.down h ∧ w'.server.app.channels = w.server.app.channels ∧
      w.server.app.tasks ⊆ w'.server.app.tasks ∧ w'.up h = [] ∧
      w'.server.conns h = .serving m ∧
      ∀ target data g, .forward h.peerId (some target) data ∈ requests →
        w.server.app.peers.lookup target = some g → ∃ task ∈ w'.server.app.tasks,
          task.handler = g ∧ task.payload = .forward h.peerId (some target) data := by
  induction requests generalizing ls w tr n with
  | nil =>
      exact ⟨w, [], n, .refl w, rfl, rfl, rfl, rfl, List.Subset.refl _, hup, hconn, by simp⟩
  | cons request requests ih =>
      obtain ⟨target, data, rfl⟩ := hrequests request List.mem_cons_self
      obtain ⟨ks, hserver⟩ := server_of_run hrun
      have hfresh : w.server.app.calls (h, n) = none :=
        (ready_of_run hserver h).fresh n n (by rw [hconn]; rfl) le_rfl
      obtain ⟨w₁, es₁, hfirst, htabs, hes₁, hdown, hchannels, htasks, hup₁, hconn₁, htask⟩ :=
        exists_forwarded hup hconn hfresh
      obtain ⟨ls₁, -, hrun₁⟩ := hrun.leads hfirst.leads
      obtain ⟨w', es, m, hrest, htabs', hes, hdown', hchannels', htasks', hup', hconn', htask'⟩ :=
        ih hrun₁ hup₁ (fun request hmem => hrequests request (List.mem_cons_of_mem _ hmem)) hconn₁
      refine ⟨w', _, m, hfirst.trans hrest, htabs'.trans htabs, by simp [hes₁, hes],
        hdown'.trans hdown, hchannels'.trans hchannels, fun task hmem => htasks' (htasks hmem),
        hup', hconn', fun target' data' g hmem hfound => ?_⟩
      rcases List.mem_cons.mp hmem with heq | hmem
      · cases heq
        obtain ⟨task, hmem, heq⟩ := htask g hfound
        exact ⟨task, htasks' hmem, heq⟩
      · exact htask' target' data' g hmem (hfirst.peers ▸ hfound)

end Steps

/-! ## Every run -/

section Runs

variable {codec : Codec PeerID} {w w' : World PeerID} {l : WorldAction PeerID}
  {ls : List (WorldAction PeerID)} {tr es : List (WorldEvent PeerID)} {h : PeerHandler PeerID}

theorem held_of_run (hrun : (world codec).Run ls w tr) (h : PeerHandler PeerID) :
    Held (w.tabs h).client := by
  induction hrun with
  | nil => exact held_of_reader rfl
  | snoc _ hstep ih =>
      cases clientStep_of_step hstep h with
      | acts _ _ hcstep => exact (held_of_step ih hcstep).2
      | reads _ hcstep => exact (held_of_step ih hcstep).2
      | idle hclient => exact hclient ▸ ih

theorem unicast_of_run (hrun : (world codec).Run ls w tr) (h : PeerHandler PeerID) :
    ∀ request ∈ sent tr h, ∃ target data, request = .forward h.peerId (some target) data := by
  induction hrun with
  | nil => simp [sent, clientEvents]
  | @snoc ls w tr l w' es _ hstep ih =>
      have hnew : ∀ request ∈ sent es h, ∃ target data,
          request = .forward h.peerId (some target) data := by
        cases clientStep_of_step hstep h with
        | acts _ _ hcstep => exact unicast_of_step hcstep
        | reads _ hcstep => exact unicast_of_step hcstep
        | idle _ hes => simp [sent, hes]
      intro request hmem
      rw [sent_append] at hmem
      exact (List.mem_append.mp hmem).elim (ih request) (hnew request)

/-- The socket of a page is never given up. -/
theorem ws_of_step (hrun : (world codec).Run ls w tr) (hstep : w.step codec l = some (w', es))
    (hws : (w.tabs h).client.ws = true) : (w'.tabs h).client.ws = true := by
  cases clientStep_of_step hstep h with
  | acts _ _ hcstep => exact (held_of_step (held_of_run hrun h) hcstep).1 hws
  | reads _ hcstep => exact (held_of_step (held_of_run hrun h) hcstep).1 hws
  | idle hclient => rwa [hclient]

/-- A page whose connection the server has accepted has opened its socket. -/
theorem ws_of_run (hrun : (world codec).Run ls w tr) (hconn : w.server.conns h ≠ .absent) :
    (w.tabs h).client.ws = true := by
  induction hrun with
  | nil => exact absurd rfl hconn
  | @snoc ls w tr l w' es hrun hstep ih =>
      by_cases habsent : w.server.conns h = .absent
      · cases World.steps_of_step hstep with
        | @server a s ses hadmits hs =>
            have haccept : a = .accept h := by
              by_contra ha
              exact hconn (absent_of_step hs habsent ha)
            subst haccept
            exact hadmits
        | arrive _ hs => exact absurd (absent_of_step hs habsent (by simp)) hconn
        | client | receive | ignore | stopReading | wrote | stopWriting =>
            exact absurd habsent hconn
      · exact ws_of_step hrun hstep (ih habsent)

/-- The socket of the page is up: both of its loops run, and so does that of the server. -/
structure World.Up (w : World PeerID) (h : PeerHandler PeerID) : Prop where
  reading : (w.tabs h).reading = true
  writing : (w.tabs h).writing = true
  served : ∃ n, LoopAt n (w.server.conns h) ∨ w.server.conns h = .dispatching n

theorem World.Up.of_ne {g : PeerHandler PeerID} (hup : w.Up g) (hg : g ≠ h)
    (hproceeds : Proceeds codec h w w' es) : w'.Up g := by
  refine ⟨?_, ?_, ?_⟩
  · rw [hproceeds.tabs g hg]
    exact hup.reading
  · rw [hproceeds.tabs g hg]
    exact hup.writing
  · rw [hproceeds.conns g hg]
    exact hup.served

/-- What the tasks of the page have sent and the server has not read. -/
def unread (tr : List (WorldEvent PeerID)) (h : PeerHandler PeerID) : List (PeerRequest PeerID) :=
  (sent tr h).drop (parsed (serverEvents tr) h).length

/-- All that the page has sent is with the server and acted on, and its client has acted on
all that was held for it. -/
structure Settles (w : World PeerID) (tr : List (WorldEvent PeerID)) (w' : World PeerID)
    (es : List (WorldEvent PeerID)) (h : PeerHandler PeerID) : Prop where
  up : w'.Up h
  idle : (w'.tabs h).client.reader = none
  parsed : parsed (serverEvents (tr ++ es)) h = sent (tr ++ es) h
  read : received (tr ++ es) h = given (serverEvents (tr ++ es)) h
  taken : ∀ task ∈ w.server.app.tasks, task.handler = h → task.payload ∈ received es h
  kept : ∀ task ∈ w.server.app.tasks, task.handler ≠ h → task ∈ w'.server.app.tasks
  forwarded : ∀ target data g, .forward h.peerId (some target) data ∈ unread tr h ++ sent es h →
    w.server.app.peers.lookup target = some g → ∃ task ∈ w'.server.app.tasks,
      task.handler = g ∧ task.payload = .forward h.peerId (some target) data

theorem parsed_subset_sent (hrun : (world codec).Run ls w tr) :
    ∀ request ∈ parsed (serverEvents tr) h, request ∈ sent tr h := by
  obtain ⟨⟨coming, queued, dropped, hup⟩, -⟩ := linked_of_run hrun h
  intro request hmem
  rw [hup.total]
  simp [hmem]

/-- The connection takes what the send tasks hold for it, and writes all that its channel
was given. -/
theorem exists_served (hrun : (world codec).Run ls w tr) (hup : w.Up h) :
    ∃ s ses n, GoesOn codec.fromStr h w.server s ses ∧ s.conns h = .serving n ∧
      (s.app.channels h).queue = [] ∧
      (∀ task ∈ w.server.app.tasks, task.handler ≠ h → task ∈ s.app.tasks) ∧
      ∀ task ∈ w.server.app.tasks, task.handler = h → .app (.enqueued task) ∈ ses := by
  obtain ⟨ks, hserver⟩ := server_of_run hrun
  obtain ⟨n, hconn⟩ := hup.served
  obtain ⟨hlive, hpresent⟩ : w.server.conns h ≠ .gone ∧ w.server.conns h ≠ .absent := by
    generalize w.server.conns h = conn at hconn
    rcases hconn with hloop | rfl
    · cases hloop <;> simp
    · simp
  have hparsed : ∀ request ∈ parsed (serverEvents tr) h, ∃ fromPeerId target data,
      request = .forward fromPeerId (some target) data :=
    fun request hmem => ⟨h.peerId, unicast_of_run hrun h request (parsed_subset_sent hrun _ hmem)⟩
  obtain ⟨s₁, ses₁, m, hgo₁, hconn₁, htasks₁, hclosed₁⟩ := exists_serving hserver hconn hparsed
  have hopen : (s₁.app.channels h).closed = false :=
    hclosed₁.trans ((ready_of_run hserver h).opened hlive)
  have hcap : 0 < h.sender.capacity := by
    rw [capacity_of_run hserver hpresent]
    decide
  obtain ⟨s₂, ses₂, hgo₂, hconn₂, hqueue, hothers, hown⟩ :=
    exists_taken codec.fromStr hconn₁ hopen hcap
  refine ⟨s₂, _, m, hgo₁.trans hgo₂, hconn₂, hqueue, fun task hmem => hothers task (htasks₁ hmem),
    fun task hmem hh => List.mem_append_right _ (hown task (htasks₁ hmem) hh)⟩

theorem mem_given {task : SendTask PeerID (CallId PeerID)} {ses : List (ServerEvent PeerID)}
    (hmem : .app (.enqueued task) ∈ ses) (hh : task.handler = h) : task.payload ∈ given ses h := by
  refine List.mem_filterMap.mpr ⟨.enqueued task, mem_filterMap_app.mpr hmem, ?_⟩
  simp [SendTask.requestFor, hh]

/-- What the way up holds is what has been sent and not read. -/
theorem unread_eq {coming queued : List (PeerRequest PeerID)}
    (hup : Upward codec w tr h coming queued []) : unread tr h = coming ++ queued := by
  rw [unread, hup.total, List.append_assoc, List.append_assoc, List.drop_left, List.append_nil]

theorem unread_append (hrun : (world codec).Run ls w tr)
    (hes : parsed (serverEvents es) h = []) : unread (tr ++ es) h = unread tr h ++ sent es h := by
  have hle := (parsed_prefix_sent hrun h).length_le
  rw [unread, unread, serverEvents_append, parsed_append, hes, List.append_nil, sent_append,
    List.drop_append_of_le_length hle]

/-- When all that was enqueued has been read, so has what was enqueued last. -/
theorem given_subset_received (hrun : (world codec).Run ls w tr)
    (hall : received (tr ++ es) h = given (serverEvents (tr ++ es)) h) :
    given (serverEvents es) h ⊆ received es h := by
  obtain ⟨rest, hrest⟩ := (received_prefix_written hrun h).trans (written_prefix_given hrun h)
  rw [received_append, serverEvents_append, given_append, ← hrest, List.append_assoc] at hall
  rw [List.append_cancel_left hall]
  exact List.subset_append_right _ _

/-- Where nothing is on its way, all has arrived. -/
theorem all_of_empty (hrun : (world codec).Run ls w tr) {n : Nat}
    (hconn : w.server.conns h = .serving n) (hqueue : (w.server.app.channels h).queue = [])
    (hwriting : (w.tabs h).writing = true) (houtbox : (w.tabs h).outbox = [])
    (hup : w.up h = []) (hdown : w.down h = []) :
    parsed (serverEvents tr) h = sent tr h ∧ received tr h = given (serverEvents tr) h := by
  obtain ⟨⟨coming, queued, dropped, hlinkUp⟩, incoming, hlinkDown⟩ := linked_of_run hrun h
  constructor
  · obtain rfl : coming = [] := by simpa [hlinkUp.up] using hup
    obtain rfl : queued = [] := by simpa [hlinkUp.outbox] using houtbox
    rw [hlinkUp.total, hlinkUp.dropped hwriting]
    simp
  · obtain rfl : incoming = [] := by simpa [hlinkDown.down] using hdown
    obtain ⟨ks, hserver⟩ := server_of_run hrun
    have htexts := map_given_eq_map_written hserver codec.write hconn hqueue
    have hgiven : given (serverEvents tr) h = written (serverEvents tr) h := by
      have hread := congrArg (List.filterMap codec.fromStr) htexts
      simpa [List.filterMap_map, Function.comp_def, codec.fromStr_write] using hread
    rw [hgiven, hlinkDown.total, List.append_nil]

/-- All that is held for the page is brought to it, and what its tasks have sent is on its
way. -/
theorem exists_brought (hrun : (world codec).Run ls w tr) (hup : w.Up h) :
    ∃ w' es n, Proceeds codec h w w' es ∧ w'.server.conns h = .serving n ∧
      (w'.server.app.channels h).queue = [] ∧ w'.down h = [] ∧ (w'.tabs h).outbox = [] ∧
      (w'.tabs h).client.reader = none ∧ parsed (serverEvents es) h = [] ∧
      (∀ task ∈ w.server.app.tasks, task.handler ≠ h → task ∈ w'.server.app.tasks) ∧
      ∀ task ∈ w.server.app.tasks, task.handler = h → task.payload ∈ given (serverEvents es) h := by
  obtain ⟨s, ses, n, hgo, hconn, hqueue, hothers, hown⟩ := exists_served hrun hup
  have hproceeds₁ : Proceeds codec h w (w.serve codec s ses) (ses.map .server) :=
    proceeds_of_goesOn hgo
  obtain ⟨ls₁, -, hrun₁⟩ := hrun.leads hproceeds₁.leads
  obtain ⟨-, coming, hdown⟩ := linked_of_run hrun₁ h
  have hpresent : (w.serve codec s ses).server.conns h ≠ .absent := by simp [World.serve, hconn]
  obtain ⟨w₂, es₂, hproceeds₂, hserver₂, hdown₂, hreader₂, hes₂⟩ := exists_read hdown.down
    (held_of_run hrun₁ h) (ws_of_run hrun₁ hpresent) hup.reading
  have hwriting₂ : (w₂.tabs h).writing = true := hproceeds₂.writing.trans hup.writing
  -- the handlers of what was read may have queued requests
  obtain ⟨w₃, hproceeds₃, hserver₃, hdown₃, hclient₃, houtbox₃⟩ := exists_written codec hwriting₂
  have hserver : w₃.server = s := by rw [hserver₃, hserver₂]; rfl
  have hes : serverEvents (ses.map .server ++ es₂ ++ []) = ses := by
    simp only [serverEvents_append, serverEvents_server, hes₂, List.append_nil]
  refine ⟨w₃, _, n, (hproceeds₁.trans hproceeds₂).trans hproceeds₃, ?_⟩
  rw [hserver, hes]
  exact ⟨hconn, hqueue, by rw [hdown₃, hdown₂], houtbox₃, hclient₃ ▸ hreader₂, hgo.unparsed,
    hothers, fun task hmem hh => mem_given (hown task hmem hh) hh⟩

theorem exists_settled (hrun : (world codec).Run ls w tr) (hup : w.Up h) :
    ∃ w' es, Proceeds codec h w w' es ∧ Settles w tr w' es h := by
  obtain ⟨w₁, es₁, n, hproceeds₁, hconn₁, hqueue₁, hdown₁, houtbox₁, hreader₁, hparsed₁, hothers,
    hown⟩ := exists_brought hrun hup
  obtain ⟨ls₁, -, hrun₁⟩ := hrun.leads hproceeds₁.leads
  have hwriting₁ : (w₁.tabs h).writing = true := hproceeds₁.writing.trans hup.writing
  obtain ⟨⟨coming, queued, dropped, hlink⟩, -⟩ := linked_of_run hrun₁ h
  obtain rfl : queued = [] := by simpa [houtbox₁] using hlink.outbox
  obtain rfl : dropped = [] := hlink.dropped hwriting₁
  have hunread : unread (tr ++ es₁) h = coming := by rw [unread_eq hlink, List.append_nil]
  have hunicast : ∀ request ∈ coming, ∃ target data,
      request = .forward h.peerId (some target) data := by
    intro request hmem
    rw [← hunread] at hmem
    exact unicast_of_run hrun₁ h request (List.mem_of_mem_drop hmem)
  obtain ⟨w₂, es₂, m, hproceeds₂, htabs, hsent₂, hdown, hchannels, htasks, hup₂, hconn₂,
    hforwarded⟩ := exists_arrived hrun₁ hlink.up hunicast hconn₁
  have hproceeds := hproceeds₁.trans hproceeds₂
  obtain ⟨ls', -, hrun'⟩ := hrun.leads hproceeds.leads
  have hwriting : (w₂.tabs h).writing = true := hproceeds.writing.trans hup.writing
  obtain ⟨hparsed, hread⟩ := all_of_empty hrun' hconn₂ (by rw [hchannels, hqueue₁]) hwriting
    (by rw [htabs, houtbox₁]) hup₂ (by rw [hdown, hdown₁])
  refine ⟨w₂, _, hproceeds, ?_⟩
  constructor
  · exact ⟨hproceeds.reading.trans hup.reading, hwriting, m, by rw [hconn₂]; exact .inl .serving⟩
  · rw [htabs, hreader₁]
  · exact hparsed
  · exact hread
  · intro task hmem hh
    refine given_subset_received hrun hread ?_
    rw [serverEvents_append, given_append]
    exact List.mem_append_left _ (hown task hmem hh)
  · exact fun task hmem hh => htasks (hothers task hmem hh)
  · intro target data g hmem hfound
    refine hforwarded target data g ?_ (hproceeds₁.peers ▸ hfound)
    rwa [← hunread, unread_append hrun hparsed₁, ← List.append_nil (sent es₁ h), ← hsent₂,
      ← sent_append]

/-- From wherever a run has come to, a page whose socket is up can go on by its own steps and
those of its connection, while the others stand still, until all that its tasks have sent is
acted on and all that was held or enqueued for it is read. -/
theorem run_settles (hrun : (world codec).Run ls w tr) (hup : w.Up h) :
    ∃ ks w' es, (∀ l ∈ ks, l.Of h) ∧ (world codec).Run (ls ++ ks) w' (tr ++ es) ∧
      Proceeds codec h w w' es ∧ Settles w tr w' es h := by
  obtain ⟨w', es, hproceeds, hsettles⟩ := exists_settled hrun hup
  obtain ⟨ks, hks, hrun'⟩ := hrun.leads hproceeds.leads
  exact ⟨ks, w', es, hks, hrun', hproceeds, hsettles⟩

/-- Two pages have joined, and the first has sent an offer to the second; no socket has
carried it yet. -/
def offeredRun : List (WorldAction UInt16) :=
  joining (page 1) [1] ++ joining (page 2) [2, 1] ++
    .client (page 1) (.connectToPeer 2) ::
      List.replicate 3 (.client (page 1) (.makeOffer 2 0 ⟨"offer", false, true⟩))

theorem exists_offeredRun : ∃ w tr, (world u16Codec).Run offeredRun w tr ∧
    w.Up (page 1) ∧ w.Up (page 2) ∧ w.server.app.peers.lookup 2 = some (page 2) ∧
    unread tr (page 1) = [.forward 1 (some 2) (.webRtcOffer 2 ⟨"offer", .offer⟩)] := by
  have hexec : ((world u16Codec).exec offeredRun).map (fun r =>
      ([page 1, page 2].map fun h =>
        ((r.1.tabs h).reading, (r.1.tabs h).writing, r.1.server.conns h),
        r.1.server.app.peers.lookup 2, unread r.2 (page 1))) =
      some ([(true, true, .serving 1), (true, true, .serving 1)], some (page 2),
        [.forward 1 (some 2) (.webRtcOffer 2 ⟨"offer", .offer⟩)]) := by
    decide +kernel
  obtain ⟨⟨w, tr⟩, hexec, heq⟩ := Option.map_eq_some_iff.mp hexec
  simp only [List.map_cons, List.map_nil, Prod.mk.injEq, List.cons.injEq] at heq
  obtain ⟨⟨⟨hreading₁, hwriting₁, hconn₁⟩, ⟨hreading₂, hwriting₂, hconn₂⟩, -⟩, hregistered,
    hunread⟩ := heq
  refine ⟨w, tr, Machine.run_of_exec hexec, ⟨hreading₁, hwriting₁, 1, ?_⟩,
    ⟨hreading₂, hwriting₂, 1, ?_⟩, hregistered, hunread⟩
  · rw [hconn₁]
    exact .inl .serving
  · rw [hconn₂]
    exact .inl .serving

theorem run_settles_offeredRun : ∃ w tr ks w' es, (world u16Codec).Run offeredRun w tr ∧
    (world u16Codec).Run (offeredRun ++ ks) w' (tr ++ es) ∧ unread tr (page 1) ≠ [] ∧
    parsed (serverEvents (tr ++ es)) (page 1) = sent (tr ++ es) (page 1) := by
  obtain ⟨w, tr, hrun, hup, -, -, hunread⟩ := exists_offeredRun
  obtain ⟨ks, w', es, -, hrun', -, hsettles⟩ := run_settles hrun hup
  exact ⟨w, tr, ks, w', es, hrun, hrun', by simp [hunread], hsettles.parsed⟩

/-- What a page has sent to a registered peer whose socket is up can be brought to it, by
steps of the two of them only. -/
theorem run_reaches {g : PeerHandler PeerID} (hrun : (world codec).Run ls w tr) (hg : w.Up g)
    (hh : w.Up h) (hregistered : w.server.app.peers.lookup h.peerId = some h) :
    ∃ ks w' es, (∀ l ∈ ks, l.Of g ∨ l.Of h) ∧ (world codec).Run (ls ++ ks) w' (tr ++ es) ∧
      ∀ data, .forward g.peerId (some h.peerId) data ∈ unread tr g →
        .forward g.peerId (some h.peerId) data ∈ received es h := by
  obtain ⟨w₁, es₁, hproceeds₁, hsettles₁⟩ := exists_settled hrun hg
  obtain ⟨ks₁, hks₁, hrun₁⟩ := hrun.leads hproceeds₁.leads
  have hh₁ : w₁.Up h := by
    by_cases heq : h = g
    · exact heq ▸ hsettles₁.up
    · exact hh.of_ne heq hproceeds₁
  obtain ⟨w₂, es₂, hproceeds₂, hsettles₂⟩ := exists_settled hrun₁ hh₁
  obtain ⟨ks₂, hks₂, hrun₂⟩ := hrun₁.leads hproceeds₂.leads
  refine ⟨ks₁ ++ ks₂, w₂, es₁ ++ es₂, fun l hl => ?_, by simpa using hrun₂, fun data hsent => ?_⟩
  · exact (List.mem_append.mp hl).imp (hks₁ l) (hks₂ l)
  · obtain ⟨task, hmem, hhandler, hpayload⟩ :=
      hsettles₁.forwarded h.peerId data h (List.mem_append_left _ hsent) hregistered
    rw [received_append, ← hpayload]
    exact List.mem_append_right _ (hsettles₂.taken task hmem hhandler)

theorem run_reaches_offeredRun : ∃ w tr ks w' es, (world u16Codec).Run offeredRun w tr ∧
    (world u16Codec).Run (offeredRun ++ ks) w' (tr ++ es) ∧
    .forward 1 (some 2) (.webRtcOffer 2 ⟨"offer", .offer⟩) ∈ received es (page 2) := by
  obtain ⟨w, tr, hrun, hup₁, hup₂, hregistered, hunread⟩ := exists_offeredRun
  obtain ⟨ks, w', es, -, hrun', hreaches⟩ := run_reaches hrun hup₁ hup₂ hregistered
  refine ⟨w, tr, ks, w', es, hrun, hrun', hreaches _ ?_⟩
  rw [hunread]
  exact List.mem_singleton_self _

end Runs

end SfRs.EndToEnd
