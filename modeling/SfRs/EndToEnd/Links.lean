import SfRs.EndToEnd.World
/-!
# What the sockets carry

What the server reads of a page is what the page has sent, from the start and in order,
and what a page reads is what was enqueued for it.  Both are read off the run: each side's
part of it is a run of that side, and a link holds what one end has put in and the other
has not taken out.
-/

set_option linter.unusedSectionVars false

namespace SfRs.EndToEnd

open SfRs.Lib SfRs.Protocol SfRs.Server

variable {PeerID : Type} [DecidableEq PeerID]

/-! ## The two sides of a run -/

def WorldEvent.server? : WorldEvent PeerID → Option (ServerEvent PeerID)
  | .server e => some e
  | _ => none

def WorldEvent.clientOf (h : PeerHandler PeerID) :
    WorldEvent PeerID → Option (Wasm.Event PeerID)
  | .client g e => if g = h then some e else none
  | _ => none

/-- What the server does in a run. -/
def serverEvents (tr : List (WorldEvent PeerID)) : List (ServerEvent PeerID) :=
  tr.filterMap WorldEvent.server?

/-- What the client of a page does in a run. -/
def clientEvents (tr : List (WorldEvent PeerID)) (h : PeerHandler PeerID) :
    List (Wasm.Event PeerID) :=
  tr.filterMap (WorldEvent.clientOf h)

/-- The requests that the tasks of a page handed to `send_peer_request`. -/
def sent (tr : List (WorldEvent PeerID)) (h : PeerHandler PeerID) :
    List (PeerRequest PeerID) :=
  (clientEvents tr h).filterMap sentRequest

/-- The requests that the reader loop of a page read. -/
def received (tr : List (WorldEvent PeerID)) (h : PeerHandler PeerID) :
    List (PeerRequest PeerID) :=
  tr.filterMap fun
    | .received g request => if g = h then some request else none
    | _ => none

section Events

variable (tr es : List (WorldEvent PeerID)) (g h : PeerHandler PeerID)

@[simp] theorem serverEvents_append :
    serverEvents (tr ++ es) = serverEvents tr ++ serverEvents es := by
  simp [serverEvents, List.filterMap_append]

@[simp] theorem clientEvents_append :
    clientEvents (tr ++ es) h = clientEvents tr h ++ clientEvents es h := by
  simp [clientEvents, List.filterMap_append]

@[simp] theorem sent_append : sent (tr ++ es) h = sent tr h ++ sent es h := by
  simp [sent]

@[simp] theorem received_append : received (tr ++ es) h = received tr h ++ received es h := by
  simp [received, List.filterMap_append]

@[simp] theorem serverEvents_client (ces : List (Wasm.Event PeerID)) :
    serverEvents (ces.map (.client g)) = [] := by
  simp [serverEvents, List.filterMap_map, WorldEvent.server?]

@[simp] theorem serverEvents_server (ses : List (ServerEvent PeerID)) :
    serverEvents (ses.map .server) = ses := by
  rw [serverEvents, List.filterMap_map]
  exact List.filterMap_some

@[simp] theorem serverEvents_received (request : PeerRequest PeerID) :
    serverEvents (.received g request :: es) = serverEvents es := rfl

@[simp] theorem clientEvents_server (ses : List (ServerEvent PeerID)) :
    clientEvents (ses.map .server) h = [] := by
  simp [clientEvents, List.filterMap_map, WorldEvent.clientOf]

@[simp] theorem clientEvents_received (request : PeerRequest PeerID) :
    clientEvents (.received g request :: es) h = clientEvents es h := rfl

theorem clientEvents_client (ces : List (Wasm.Event PeerID)) :
    clientEvents (ces.map (.client g)) h = if g = h then ces else [] := by
  by_cases hg : g = h
  · have hself : WorldEvent.clientOf h ∘ WorldEvent.client g = some := by
      funext e
      simp [WorldEvent.clientOf, hg]
    rw [if_pos hg, clientEvents, List.filterMap_map, hself, List.filterMap_some]
  · simp [clientEvents, List.filterMap_map, WorldEvent.clientOf, hg]

@[simp] theorem sent_server (ses : List (ServerEvent PeerID)) :
    sent (ses.map .server) h = [] := by
  simp [sent]

@[simp] theorem sent_received (request : PeerRequest PeerID) :
    sent (.received g request :: es) h = sent es h := rfl

theorem sent_client (ces : List (Wasm.Event PeerID)) :
    sent (ces.map (.client g)) h = if g = h then ces.filterMap sentRequest else [] := by
  rw [sent, clientEvents_client]
  split_ifs <;> rfl

@[simp] theorem received_server (ses : List (ServerEvent PeerID)) :
    received (ses.map .server) h = [] := by
  simp [received, List.filterMap_map]

@[simp] theorem received_client (ces : List (Wasm.Event PeerID)) :
    received (ces.map (.client g)) h = [] := by
  simp [received, List.filterMap_map]

@[simp] theorem received_self (request : PeerRequest PeerID) :
    received (.received h request :: es) h = request :: received es h := by
  simp [received]

theorem received_of_ne (hne : g ≠ h) (request : PeerRequest PeerID) :
    received (.received g request :: es) h = received es h := by
  simp [received, hne]

end Events

variable {codec : Codec PeerID} {w w' : World PeerID} {l : WorldAction PeerID}
  {ls : List (WorldAction PeerID)} {tr es : List (WorldEvent PeerID)}

/-- What the server does in a run of the world is a run of the server. -/
theorem server_of_run (hrun : (world codec).Run ls w tr) :
    ∃ ks, (server codec.fromStr).Run ks w.server (serverEvents tr) := by
  refine Machine.Run.refines (f := World.server) (g := WorldEvent.server?) rfl ?_ hrun
  intro w l w' es hstep
  have hidle : ∀ {w₀ : World PeerID}, w₀.server = w.server → serverEvents es = [] →
      ∃ ks, (server codec.fromStr).execFrom w.server ks =
        some (w₀.server, es.filterMap WorldEvent.server?) :=
    fun hserver hes => ⟨[], by rw [hserver]; exact congrArg (fun x => some (_, x)) hes.symm⟩
  have hserve : ∀ {a s ses}, w.server.step codec.fromStr a = some (s, ses) →
      es = ses.map .server → ∃ ks, (server codec.fromStr).execFrom w.server ks =
        some (s, es.filterMap WorldEvent.server?) := by
    rintro a s ses hs rfl
    have hses : (ses.map WorldEvent.server).filterMap WorldEvent.server? = ses :=
      serverEvents_server ses
    refine ⟨[a], ?_⟩
    rw [hses]
    simp [Machine.execFrom, server, hs]
  cases World.steps_of_step hstep with
  | client => exact hidle rfl (serverEvents_client _ _)
  | receive => exact hidle rfl (serverEvents_client _ _)
  | ignore | stopReading | wrote | stopWriting => exact hidle rfl rfl
  | server _ hs => exact hserve hs rfl
  | arrive _ hs => exact hserve hs rfl

/-- A step of the world, for the client of `h`: its script or browser acts, it reads a
request, or nothing happens to it. -/
inductive ClientStep (w : World PeerID) (l : WorldAction PeerID) (w' : World PeerID)
    (es : List (WorldEvent PeerID)) (h : PeerHandler PeerID) : Prop
  | acts {a} (hl : l = .client h a) (hact : ∀ request, a ≠ .receive request)
      (hstep : (w.tabs h).client.step h.peerId a =
        some ((w'.tabs h).client, clientEvents es h)) (hreceived : received es h = [])
  | reads {request} (hl : l = .read h)
      (hstep : (w.tabs h).client.step h.peerId (.receive request) =
        some ((w'.tabs h).client, clientEvents es h)) (hreceived : received es h = [request])
  | idle (hclient : (w'.tabs h).client = (w.tabs h).client) (hes : clientEvents es h = [])
      (hreceived : received es h = [])

theorem client_setTab_of_client {w : World PeerID} (g h : PeerHandler PeerID) {t : Tab PeerID}
    (ht : t.client = (w.tabs g).client) : ((w.setTab g t).tabs h).client = (w.tabs h).client := by
  by_cases hg : h = g
  · subst hg
    simpa [World.setTab] using ht
  · simp [World.setTab, hg]

theorem clientStep_of_step (hstep : w.step codec l = some (w', es)) (h : PeerHandler PeerID) :
    ClientStep w l w' es h := by
  cases World.steps_of_step hstep with
  | @client g a c ces hact hcstep =>
      by_cases hg : g = h
      · subst hg
        refine .acts rfl hact ?_ (received_client g g ces)
        simpa [clientEvents_client, World.setTab, Tab.perform] using hcstep
      · refine .idle ?_ ?_ (received_client g h ces)
        · simp [World.setTab, Ne.symm hg]
        · rw [clientEvents_client, if_neg hg]
  | @receive g raw down request c ces hdown hread hcstep =>
      by_cases hg : g = h
      · subst hg
        refine @ClientStep.reads _ _ _ _ _ _ _ request rfl ?_ ?_
        · simpa [clientEvents_client, World.setTab, World.setDown, Tab.perform] using hcstep
        · rw [received_self, received_client]
      · refine .idle ?_ ?_ ?_
        · simp [World.setTab, World.setDown, Ne.symm hg]
        · rw [clientEvents_received, clientEvents_client, if_neg hg]
        · rw [received_of_ne _ _ _ hg, received_client]
  | ignore => exact .idle rfl rfl rfl
  | stopReading => exact .idle (client_setTab_of_client _ _ rfl) rfl rfl
  | wrote => exact .idle (client_setTab_of_client _ _ rfl) rfl rfl
  | stopWriting => exact .idle (client_setTab_of_client _ _ rfl) rfl rfl
  | server | arrive =>
      refine .idle rfl ?_ ?_
      · simp
      · simp

/-! ## What the server reads and writes in a step -/

/-- The request that an action brings from the socket of `h`. -/
def requestFrom (codec : Codec PeerID) (h : PeerHandler PeerID) :
    ServerAction PeerID → Option (PeerRequest PeerID)
  | .inbound g (some (.text raw)) => if g = h then codec.fromStr raw else none
  | _ => none

theorem parsed_of_perform {s s' : ServerState PeerID} {a : Server.Action PeerID (CallId PeerID)}
    {g : PeerHandler PeerID} {conn : ConnState PeerID} {ses : List (ServerEvent PeerID)}
    (hperform : s.perform a g conn = some (s', ses)) (h : PeerHandler PeerID) :
    parsed ses h = [] := by
  obtain ⟨aes, -, -, rfl⟩ := perform_eq_some hperform
  exact parsed_map_app aes h

theorem parsed_of_handleRequest {s s' : ServerState PeerID} {g : PeerHandler PeerID} {n : Nat}
    {request : PeerRequest PeerID} {ses : List (ServerEvent PeerID)}
    (hstep : s.handleRequest g n request = some (s', ses)) (h : PeerHandler PeerID) :
    parsed ses h = if g = h then [request] else [] := by
  have hframe : ∀ es : List (ServerEvent PeerID), parsed es h = [] →
      parsed (.frame g n request :: es) h = if g = h then [request] else [] := by
    intro es hes
    by_cases hg : g = h
    · subst hg
      rw [parsed_frame, hes, if_pos rfl]
    · rw [if_neg hg, ← hes]
      simp [parsed, hg]
  cases request with
  | keepAlive =>
      cases hstep
      exact hframe [] rfl
  | forward fromPeerId toPeerId data =>
      obtain ⟨⟨s₁, ses₁⟩, hperform, hpair⟩ := Option.map_eq_some_iff.mp hstep
      cases hpair
      exact hframe ses₁ (parsed_of_perform hperform h)

/-- A step of the server reads the request that its action brings. -/
theorem parsed_of_step {s s' : ServerState PeerID} {a : ServerAction PeerID}
    {ses : List (ServerEvent PeerID)} (hstep : s.step codec.fromStr a = some (s', ses))
    (h : PeerHandler PeerID) : parsed ses h = (requestFrom codec h a).toList := by
  cases a with
  | accept g =>
      simp only [ServerState.step] at hstep
      split at hstep
      case isTrue => exact parsed_of_perform hstep h
      case isFalse => cases hstep
  | advance g choice =>
      simp only [ServerState.step] at hstep
      split at hstep
      case h_1 => exact parsed_of_perform hstep h
      case h_2 => cases hstep
  | resume g =>
      simp only [ServerState.step] at hstep
      repeat' split at hstep
      all_goals first | exact parsed_of_perform hstep h | cases hstep
      all_goals rfl
  | inbound g item =>
      simp only [ServerState.step] at hstep
      split at hstep
      case h_2 => cases hstep
      case h_1 n hconn =>
          cases item with
          | none => exact parsed_of_perform hstep h
          | some msg =>
              cases msg with
              | text raw =>
                  simp only [ServerState.processIncoming] at hstep
                  split at hstep
                  case h_1 request hread =>
                      rw [parsed_of_handleRequest hstep h, requestFrom, hread]
                      by_cases hg : g = h <;> simp [hg]
                  case h_2 hread =>
                      cases hstep
                      simp [requestFrom, hread, parsed]
              | binary | ping | pong => cases hstep; rfl
              | close => exact parsed_of_perform hstep h
  | outbound g =>
      simp only [ServerState.step] at hstep
      split at hstep
      case h_1 => exact parsed_of_perform hstep h
      case h_2 => cases hstep
  | written g ok =>
      simp only [ServerState.step] at hstep
      split at hstep
      case h_1 =>
          split at hstep
          case isTrue => cases hstep; rfl
          case isFalse => exact parsed_of_perform hstep h
      case h_2 => cases hstep
  | runTask i =>
      obtain ⟨⟨app, aes⟩, -, hpair⟩ := Option.map_eq_some_iff.mp hstep
      cases hpair
      exact parsed_map_app aes h

/-! ## The links -/

/-- The way from the tasks of a page to the server: what is on its way, what is queued, and
what was dropped since the writer loop ended. -/
structure Upward (codec : Codec PeerID) (w : World PeerID) (tr : List (WorldEvent PeerID))
    (h : PeerHandler PeerID) (coming queued dropped : List (PeerRequest PeerID)) : Prop where
  up : w.up h = coming.map codec.write
  outbox : (w.tabs h).outbox = queued.map codec.write
  total : sent tr h = parsed (serverEvents tr) h ++ coming ++ queued ++ dropped
  dropped : (w.tabs h).writing = true → dropped = []

/-- The way from the server to the reader loop of a page. -/
structure Downward (codec : Codec PeerID) (w : World PeerID) (tr : List (WorldEvent PeerID))
    (h : PeerHandler PeerID) (coming : List (PeerRequest PeerID)) : Prop where
  down : w.down h = coming.map fun request => .text (codec.write request)
  total : written (serverEvents tr) h = received tr h ++ coming

structure Linked (codec : Codec PeerID) (w : World PeerID) (tr : List (WorldEvent PeerID))
    (h : PeerHandler PeerID) : Prop where
  upward : ∃ coming queued dropped, Upward codec w tr h coming queued dropped
  downward : ∃ coming, Downward codec w tr h coming

section Step

variable {h g : PeerHandler PeerID} {coming queued dropped : List (PeerRequest PeerID)}

/-- Nothing happens on the way up. -/
theorem Upward.keep (hup : Upward codec w tr h coming queued dropped) (hw : w'.up h = w.up h)
    (houtbox : (w'.tabs h).outbox = (w.tabs h).outbox)
    (hwriting : (w'.tabs h).writing = (w.tabs h).writing) (hsent : sent es h = [])
    (hparsed : parsed (serverEvents es) h = []) :
    Upward codec w' (tr ++ es) h coming queued dropped := by
  refine ⟨by rw [hw, hup.up], by rw [houtbox, hup.outbox], ?_, ?_⟩
  · rw [sent_append, hsent, List.append_nil, serverEvents_append, parsed_append, hparsed,
      List.append_nil, hup.total]
  · rw [hwriting]
    exact hup.dropped

/-- Nothing happens on the way down. -/
theorem Downward.keep (hdown : Downward codec w tr h coming) (hw : w'.down h = w.down h)
    (hreceived : received es h = []) (hwritten : written (serverEvents es) h = []) :
    Downward codec w' (tr ++ es) h coming := by
  refine ⟨by rw [hw, hdown.down], ?_⟩
  rw [serverEvents_append, written_append, hwritten, List.append_nil, received_append,
    hreceived, List.append_nil, hdown.total]

/-- A page sends: its requests are queued, or dropped when nobody reads the queue. -/
theorem Upward.send (hup : Upward codec w tr h coming queued dropped) {c : Wasm.Client PeerID}
    {ces : List (Wasm.Event PeerID)} (hw : w'.up h = w.up h)
    (htab : w'.tabs h = (w.tabs h).perform codec c ces)
    (hsent : sent es h = ces.filterMap sentRequest)
    (hparsed : parsed (serverEvents es) h = []) :
    ∃ queued' dropped', Upward codec w' (tr ++ es) h coming queued' dropped' := by
  have htotal : sent (tr ++ es) h =
      parsed (serverEvents tr) h ++ coming ++ queued ++ dropped ++ ces.filterMap sentRequest := by
    rw [sent_append, hsent, hup.total]
  have hread : parsed (serverEvents (tr ++ es)) h = parsed (serverEvents tr) h := by
    rw [serverEvents_append, parsed_append, hparsed, List.append_nil]
  cases hwriting : (w.tabs h).writing with
  | true =>
      refine ⟨queued ++ ces.filterMap sentRequest, [], ⟨by rw [hw, hup.up], ?_, ?_, fun _ => rfl⟩⟩
      · rw [htab, Tab.perform, hwriting, if_pos rfl, hup.outbox, List.map_append]
      · rw [htotal, hread, hup.dropped hwriting]
        simp
  | false =>
      refine ⟨queued, dropped ++ ces.filterMap sentRequest, ⟨by rw [hw, hup.up], ?_, ?_, ?_⟩⟩
      · simp [htab, Tab.perform, hwriting, hup.outbox]
      · rw [htotal, hread]
        simp
      · simp [htab, Tab.perform, hwriting]

/-- The writer loop writes the next text. -/
theorem Upward.wrote (hup : Upward codec w tr h coming queued dropped) {text : String}
    {outbox : List String} (houtbox : (w.tabs h).outbox = text :: outbox)
    (hw : w'.up h = w.up h ++ [text])
    (htab : w'.tabs h = { w.tabs h with outbox := outbox }) :
    ∃ coming' queued', Upward codec w' (tr ++ []) h coming' queued' dropped := by
  rw [hup.outbox] at houtbox
  obtain ⟨request, rest, rfl, rfl, rfl⟩ := List.map_eq_cons_iff.mp houtbox
  refine ⟨coming ++ [request], rest, ⟨?_, by rw [htab], ?_, ?_⟩⟩
  · rw [hw, hup.up, List.map_append, List.map_singleton]
  · rw [List.append_nil, hup.total]
    simp
  · rw [htab]
    exact hup.dropped

/-- The next text reaches the server, and is read. -/
theorem Upward.arrive (hup : Upward codec w tr h coming queued dropped) {text : String}
    {up : List String} (hhead : w.up h = text :: up) (hw : w'.up h = up)
    (htab : w'.tabs h = w.tabs h) (hsent : sent es h = [])
    (hparsed : parsed (serverEvents es) h = (codec.fromStr text).toList) :
    ∃ coming', Upward codec w' (tr ++ es) h coming' queued dropped := by
  rw [hup.up] at hhead
  obtain ⟨request, rest, rfl, rfl, rfl⟩ := List.map_eq_cons_iff.mp hhead
  rw [codec.fromStr_write, Option.toList_some] at hparsed
  refine ⟨rest, ⟨hw, by rw [htab, hup.outbox], ?_, by rw [htab]; exact hup.dropped⟩⟩
  rw [sent_append, hsent, serverEvents_append, parsed_append, hparsed, hup.total]
  simp

/-- The server writes. -/
theorem Downward.write (hdown : Downward codec w tr h coming)
    {requests : List (PeerRequest PeerID)}
    (hw : w'.down h = w.down h ++ requests.map fun request => .text (codec.write request))
    (hreceived : received es h = []) (hwritten : written (serverEvents es) h = requests) :
    Downward codec w' (tr ++ es) h (coming ++ requests) := by
  constructor
  · rw [hw, hdown.down, List.map_append]
  · rw [serverEvents_append, written_append, hwritten, received_append, hreceived,
      hdown.total]
    simp

/-- The page reads the next frame. -/
theorem Downward.read (hdown : Downward codec w tr h coming) {raw : String}
    {request : PeerRequest PeerID} {down : List Frame} (hhead : w.down h = .text raw :: down)
    (hread : codec.fromStr raw = some request) (hw : w'.down h = down)
    (hreceived : received es h = [request]) (hwritten : written (serverEvents es) h = []) :
    ∃ coming', Downward codec w' (tr ++ es) h coming' := by
  rw [hdown.down] at hhead
  obtain ⟨next, rest, rfl, htext, rfl⟩ := List.map_eq_cons_iff.mp hhead
  cases htext
  obtain rfl : next = request := by simpa [codec.fromStr_write] using hread
  refine ⟨rest, ⟨hw, ?_⟩⟩
  rw [serverEvents_append, written_append, hwritten, received_append, hreceived,
    hdown.total]
  simp

/-- Every frame of the server is the text of a request. -/
theorem Downward.not_ignored (hdown : Downward codec w tr h coming) {frame : Frame}
    {down : List Frame} (hhead : w.down h = frame :: down) :
    ¬ ∀ raw, frame = .text raw → codec.fromStr raw = none := by
  rw [hdown.down] at hhead
  obtain ⟨next, rest, rfl, rfl, rfl⟩ := List.map_eq_cons_iff.mp hhead
  intro hread
  simpa [codec.fromStr_write] using hread _ rfl

/-- A step that does nothing on either way. -/
theorem Linked.keep (hlinked : Linked codec w tr h) (hup : w'.up h = w.up h)
    (hdown : w'.down h = w.down h) (houtbox : (w'.tabs h).outbox = (w.tabs h).outbox)
    (hwriting : (w'.tabs h).writing = (w.tabs h).writing) (hsent : sent es h = [])
    (hreceived : received es h = []) (hserver : serverEvents es = []) :
    Linked codec w' (tr ++ es) h := by
  obtain ⟨⟨_, _, _, hlinkUp⟩, _, hlinkDown⟩ := hlinked
  have hup' := hlinkUp.keep hup houtbox hwriting hsent (by rw [hserver]; rfl)
  have hdown' := hlinkDown.keep hdown hreceived (by rw [hserver]; rfl)
  exact ⟨⟨_, _, _, hup'⟩, _, hdown'⟩

/-- A step of the server, which takes `taken` from the way up. -/
theorem Linked.serve (hlinked : Linked codec w tr h) {w₀ : World PeerID}
    {s : ServerState PeerID} {ses : List (ServerEvent PeerID)} (hdown : w₀.down = w.down)
    (hup : ∀ coming queued dropped, Upward codec w tr h coming queued dropped →
      ∃ coming', Upward codec (w₀.serve codec s ses) (tr ++ ses.map .server) h coming' queued
        dropped) :
    Linked codec (w₀.serve codec s ses) (tr ++ ses.map .server) h := by
  obtain ⟨⟨coming, queued, dropped, hlinkUp⟩, _, hlinkDown⟩ := hlinked
  obtain ⟨coming', hup'⟩ := hup coming queued dropped hlinkUp
  refine ⟨⟨coming', queued, dropped, hup'⟩, _, hlinkDown.write ?_ (by simp) rfl⟩
  simp [World.serve, hdown]

/-- The client of the page `g` goes on. -/
theorem Linked.perform (hlinked : Linked codec w tr h) {w₀ : World PeerID}
    {c : Wasm.Client PeerID} {ces : List (Wasm.Event PeerID)} (hup : w₀.up = w.up)
    (htabs : w₀.tabs = w.tabs) (hsent : sent es h = if g = h then ces.filterMap sentRequest else [])
    (hserver : serverEvents es = [])
    (hdown : ∃ coming, Downward codec (w₀.setTab g ((w.tabs g).perform codec c ces)) (tr ++ es) h
      coming) : Linked codec (w₀.setTab g ((w.tabs g).perform codec c ces)) (tr ++ es) h := by
  obtain ⟨⟨coming, queued, dropped, hlinkUp⟩, -⟩ := hlinked
  have hparsed : parsed (serverEvents es) h = [] := by
    rw [hserver]
    rfl
  have hup' : (w₀.setTab g ((w.tabs g).perform codec c ces)).up h = w.up h :=
    congrFun hup h
  refine ⟨?_, hdown⟩
  by_cases hg : g = h
  · subst hg
    rw [if_pos rfl] at hsent
    have htab : (w₀.setTab g ((w.tabs g).perform codec c ces)).tabs g =
        (w.tabs g).perform codec c ces := by simp [World.setTab]
    obtain ⟨queued', dropped', hsend⟩ := hlinkUp.send hup' htab hsent hparsed
    exact ⟨_, _, _, hsend⟩
  · rw [if_neg hg] at hsent
    have htab : (w₀.setTab g ((w.tabs g).perform codec c ces)).tabs h = w.tabs h := by
      simp [World.setTab, Ne.symm hg, htabs]
    exact ⟨_, _, _, hlinkUp.keep hup' (by rw [htab]) (by rw [htab]) hsent hparsed⟩

theorem Linked.step (hlinked : Linked codec w tr h)
    (hstep : w.step codec l = some (w', es)) : Linked codec w' (tr ++ es) h := by
  obtain ⟨⟨coming, queued, dropped, hlinkUp⟩, _, hlinkDown⟩ := hlinked
  cases World.steps_of_step hstep with
  | @client g a c ces =>
      refine Linked.perform ⟨⟨_, _, _, hlinkUp⟩, _, hlinkDown⟩ rfl rfl (sent_client g h ces)
        (serverEvents_client _ _) ⟨_, hlinkDown.keep rfl (received_client _ _ _) ?_⟩
      rw [serverEvents_client]
      rfl
  | @receive g raw down request c ces hhead hread =>
      refine Linked.perform ⟨⟨_, _, _, hlinkUp⟩, _, hlinkDown⟩ rfl rfl (sent_client g h ces)
        (serverEvents_client _ _) ?_
      have hwritten : Server.written (serverEvents (.received g request :: ces.map (.client g))) h =
          [] := by simp [Server.written]
      by_cases hg : g = h
      · subst hg
        refine hlinkDown.read hhead hread ?_ (by simp) hwritten
        simp [World.setTab, World.setDown]
      · refine ⟨_, hlinkDown.keep ?_ ?_ hwritten⟩
        · simp [World.setTab, World.setDown, Ne.symm hg]
        · rw [received_of_ne _ _ _ hg, received_client]
  | @ignore g frame down hhead hread =>
      have hg : h ≠ g := by
        rintro rfl
        exact hlinkDown.not_ignored hhead hread
      refine Linked.keep ⟨⟨_, _, _, hlinkUp⟩, _, hlinkDown⟩ rfl ?_ rfl rfl rfl rfl rfl
      simp [World.setDown, hg]
  | @stopReading g =>
      refine Linked.keep ⟨⟨_, _, _, hlinkUp⟩, _, hlinkDown⟩ rfl rfl ?_ ?_ rfl rfl rfl
      · by_cases hg : h = g <;> simp [World.setTab, hg]
      · by_cases hg : h = g <;> simp [World.setTab, hg]
  | @wrote g text outbox hwriting houtbox =>
      by_cases hg : h = g
      · subst hg
        refine ⟨?_, _, hlinkDown.keep rfl rfl rfl⟩
        obtain ⟨coming', queued', hup'⟩ : ∃ coming' queued', Upward codec
            ((w.setTab h { w.tabs h with outbox := outbox }).setUp h (w.up h ++ [text]))
            (tr ++ []) h coming' queued' dropped :=
          hlinkUp.wrote houtbox (by simp [World.setUp]) (by simp [World.setTab, World.setUp])
        exact ⟨coming', queued', dropped, hup'⟩
      · refine Linked.keep ⟨⟨_, _, _, hlinkUp⟩, _, hlinkDown⟩ ?_ rfl ?_ ?_ rfl rfl rfl
        · simp [World.setTab, World.setUp, hg]
        · simp [World.setTab, World.setUp, hg]
        · simp [World.setTab, World.setUp, hg]
  | @stopWriting g hwriting =>
      by_cases hg : h = g
      · subst hg
        -- what is queued is dropped with the channel
        refine ⟨⟨coming, [], queued, ⟨hlinkUp.up, ?_, ?_, ?_⟩⟩, _, hlinkDown.keep rfl rfl rfl⟩
        · simp [World.setTab]
        · rw [List.append_nil, hlinkUp.total, hlinkUp.dropped hwriting]
          simp
        · simp [World.setTab]
      · refine Linked.keep ⟨⟨_, _, _, hlinkUp⟩, _, hlinkDown⟩ rfl rfl ?_ ?_ rfl rfl rfl
        · simp [World.setTab, hg]
        · simp [World.setTab, hg]
  | @server a s ses hadmits hs =>
      have hnone : requestFrom codec h a = none := by
        unfold requestFrom
        split
        case h_1 => simp [World.admits] at hadmits
        case h_2 => rfl
      refine Linked.serve ⟨⟨_, _, _, hlinkUp⟩, _, hlinkDown⟩ rfl fun coming _ _ hlink => ?_
      refine ⟨coming, hlink.keep rfl rfl rfl (by simp) ?_⟩
      rw [serverEvents_server, parsed_of_step hs h, hnone, Option.toList_none]
  | @arrive g text up s ses hhead hs =>
      refine Linked.serve ⟨⟨_, _, _, hlinkUp⟩, _, hlinkDown⟩ rfl fun coming _ _ hlink => ?_
      have hparsed := parsed_of_step hs h
      by_cases hg : h = g
      · subst hg
        refine hlink.arrive hhead (by simp [World.serve, World.setUp]) rfl (by simp) ?_
        rw [serverEvents_server, hparsed, requestFrom, if_pos rfl]
      · refine ⟨coming, hlink.keep (by simp [World.serve, World.setUp, hg]) rfl rfl (by simp) ?_⟩
        rw [serverEvents_server, hparsed, requestFrom, if_neg (Ne.symm hg), Option.toList_none]

end Step

theorem linked_of_run (hrun : (world codec).Run ls w tr) (h : PeerHandler PeerID) :
    Linked codec w tr h := by
  induction hrun with
  | nil => exact ⟨⟨[], [], [], rfl, rfl, rfl, fun _ => rfl⟩, [], rfl, rfl⟩
  | snoc _ hstep ih => exact ih.step hstep

/-! ## Every run -/

theorem parsed_prefix_sent (hrun : (world codec).Run ls w tr) (h : PeerHandler PeerID) :
    parsed (serverEvents tr) h <+: sent tr h := by
  obtain ⟨⟨coming, queued, dropped, hup⟩, -⟩ := linked_of_run hrun h
  refine ⟨coming ++ queued ++ dropped, ?_⟩
  rw [hup.total]
  simp

theorem received_prefix_written (hrun : (world codec).Run ls w tr) (h : PeerHandler PeerID) :
    received tr h <+: written (serverEvents tr) h := by
  obtain ⟨-, incoming, hdown⟩ := linked_of_run hrun h
  exact ⟨incoming, hdown.total.symm⟩

theorem written_prefix_given (hrun : (world codec).Run ls w tr) (h : PeerHandler PeerID) :
    written (serverEvents tr) h <+: given (serverEvents tr) h := by
  obtain ⟨ks, hserver⟩ := server_of_run hrun
  have htexts := (run_connServed hserver codec.write h).written
  have hread : ∀ requests : List (PeerRequest PeerID),
      (requests.map codec.write).filterMap codec.fromStr = requests := by
    intro requests
    simp [List.filterMap_map, codec.fromStr_write]
  simpa only [hread] using htexts.filterMap codec.fromStr

/-- What the socket of a page has carried. -/
structure Delivered (w : World PeerID) (tr : List (WorldEvent PeerID))
    (h : PeerHandler PeerID) : Prop where
  upward : parsed (serverEvents tr) h <+: sent tr h
  allSent : (w.tabs h).writing = true → (w.tabs h).outbox = [] → w.up h = [] →
    parsed (serverEvents tr) h = sent tr h
  downward : received tr h <+: written (serverEvents tr) h
  allRead : w.down h = [] → received tr h = written (serverEvents tr) h
  enqueued : received tr h <+: given (serverEvents tr) h

/-- In every run and for every page: the server reads what the tasks of the page send, from
the start and in order, and the page reads what is enqueued for it.  As long as its writer
loop runs nothing that has been sent is lost on the way, and nothing that the server has
written ever is. -/
theorem run_delivers (hrun : (world codec).Run ls w tr) (h : PeerHandler PeerID) :
    Delivered w tr h := by
  obtain ⟨⟨coming, queued, dropped, hup⟩, incoming, hdown⟩ := linked_of_run hrun h
  constructor
  · exact parsed_prefix_sent hrun h
  · intro hwriting houtbox hempty
    obtain rfl : queued = [] := by simpa [hup.outbox] using houtbox
    obtain rfl : coming = [] := by simpa [hup.up] using hempty
    rw [hup.total, hup.dropped hwriting]
    simp
  · exact received_prefix_written hrun h
  · intro hempty
    obtain rfl : incoming = [] := by simpa [hdown.down] using hempty
    rw [hdown.total, List.append_nil]
  · exact (received_prefix_written hrun h).trans (written_prefix_given hrun h)

/-- The page that reads the news of itself has read all that was written to it. -/
theorem run_delivers_newsRun : ∃ w tr, (world u16Codec).Run newsRun w tr ∧
    Delivered w tr (page 1) ∧
    received tr (page 1) = [.forward 9 (some 1) (.newPeer 1)] := by
  have hexec : ((world u16Codec).exec newsRun).map (fun r => received r.2 (page 1)) =
      some [.forward 9 (some 1) (.newPeer 1)] := by decide +kernel
  obtain ⟨⟨w, tr⟩, hrun, hreceived⟩ := Option.map_eq_some_iff.mp hexec
  exact ⟨w, tr, Machine.run_of_exec hrun, run_delivers (Machine.run_of_exec hrun) (page 1),
    hreceived⟩

end SfRs.EndToEnd
