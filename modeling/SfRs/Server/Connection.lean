import SfRs.Server.Calls
/-!
# Connections

Every WebSocket connection runs `handle_ws_connection`: it registers its handler with
`add_peer`, serves the socket in the `select!` loop of `process_ws`, and removes its
peer.  `server` runs any number of connections in any interleaving on one `AppState`.
The `n`-th call a connection makes on the state is named by its handler and `n`; call
`0` is its `add_peer`.
-/

set_option linter.unusedSectionVars false

namespace SfRs.Server

open SfRs.Lib SfRs.Protocol

inductive Message where
  | text (raw : String)
  | binary
  | ping
  | pong
  | close

/-- Where a connection is, with the number of its next or current call. -/
inductive ConnState (PeerID : Type) where
  | absent
  | adding
  | serving (n : Nat)
  | writing (n : Nat) (request : PeerRequest PeerID)
  | dispatching (n : Nat)
  | removing (n : Nat)
  | gone
  deriving DecidableEq

abbrev CallId (PeerID : Type) := PeerHandler PeerID × Nat

structure ServerState (PeerID : Type) where
  app : AppState PeerID (CallId PeerID)
  conns : PeerHandler PeerID → ConnState PeerID
  messagesReceived : PeerID → Nat

inductive ServerEvent (PeerID : Type) where
  | app (e : Event PeerID (CallId PeerID))
  /-- A text frame of the connection parsed as `request`. -/
  | frame (handler : PeerHandler PeerID) (n : Nat) (request : PeerRequest PeerID)
  | wrote (handler : PeerHandler PeerID) (request : PeerRequest PeerID)
  deriving DecidableEq

inductive ServerAction (PeerID : Type) where
  | accept (handler : PeerHandler PeerID)
  | advance (handler : PeerHandler PeerID) (choice : Choice PeerID)
  /-- The current call has returned and the connection goes on. -/
  | resume (handler : PeerHandler PeerID)
  /-- `read.next()` yields a message, or an error. -/
  | inbound (handler : PeerHandler PeerID) (item : Option Message)
  | outbound (handler : PeerHandler PeerID)
  /-- `write.send` of the current request ends. -/
  | written (handler : PeerHandler PeerID) (ok : Bool)
  | runTask (i : Nat)

variable {PeerID : Type} [DecidableEq PeerID]

/-- The call a connection is waiting for. -/
def ConnState.currentCall : ConnState PeerID → Option Nat
  | .adding => some 0
  | .dispatching n => some n
  | .removing n => some n
  | _ => none

namespace ServerState

def init : ServerState PeerID where
  app := .init
  conns _ := .absent
  messagesReceived _ := 0

def setConn (s : ServerState PeerID) (h : PeerHandler PeerID) (conn : ConnState PeerID) :
    ServerState PeerID :=
  { s with conns := Function.update s.conns h conn }

/-- A step of the shared state, after which the connection `h` is in `conn`. -/
def perform (s : ServerState PeerID) (a : Action PeerID (CallId PeerID))
    (h : PeerHandler PeerID) (conn : ConnState PeerID) :
    Option (ServerState PeerID × List (ServerEvent PeerID)) :=
  (s.app.step a).map fun r => ({ s with app := r.1 }.setConn h conn, r.2.map .app)

/-- The loop of `process_ws` ends, and `remove_peer` is called. -/
def leave (s : ServerState PeerID) (h : PeerHandler PeerID) (n : Nat) :
    Option (ServerState PeerID × List (ServerEvent PeerID)) :=
  s.perform (.call (h, n) (.removePeer h.peerId)) h (.removing n)

def incrementReceived (s : ServerState PeerID) (id : PeerID) : ServerState PeerID :=
  { s with messagesReceived :=
    Function.update s.messagesReceived id (s.messagesReceived id + 1) }

def handleRequest (s : ServerState PeerID) (h : PeerHandler PeerID) (n : Nat) :
    PeerRequest PeerID → Option (ServerState PeerID × List (ServerEvent PeerID))
  -- `handle_keepalive` does nothing but log
  | .keepAlive => some (s.setConn h (.serving (n + 1)), [.frame h n .keepAlive])
  | .forward fromPeerId toPeerId data =>
      let call := Call.handleForward fromPeerId h.peerId toPeerId data
      (s.perform (.call (h, n) call) h (.dispatching n)).map fun r =>
        (r.1, .frame h n (.forward fromPeerId toPeerId data) :: r.2)

/-- `process_incoming`; a `close` frame ends the loop. -/
def processIncoming (fromStr : String → Option (PeerRequest PeerID))
    (s : ServerState PeerID) (h : PeerHandler PeerID) (n : Nat) :
    Message → Option (ServerState PeerID × List (ServerEvent PeerID))
  | .text raw =>
      match fromStr raw with
      | some request => (s.incrementReceived h.peerId).handleRequest h n request
      | none => some (s.incrementReceived h.peerId, [])
  | .binary | .ping | .pong => some (s.incrementReceived h.peerId, [])
  | .close => (s.incrementReceived h.peerId).leave h n

def step (fromStr : String → Option (PeerRequest PeerID)) (s : ServerState PeerID) :
    ServerAction PeerID → Option (ServerState PeerID × List (ServerEvent PeerID))
  | .accept h =>
      if s.conns h = .absent ∧ h.sender.capacity = 32 then
        s.perform (.call (h, 0) (.addPeer h)) h .adding
      else none
  | .advance h choice =>
      match (s.conns h).currentCall with
      | some n => s.perform (.advance (h, n) choice) h (s.conns h)
      | none => none
  | .resume h =>
      match s.conns h with
      | .adding =>
          match s.app.calls (h, 0) with
          | some .returned => some (s.setConn h (.serving 1), [])
          -- the connection returns, and its receiver is dropped
          | some (.failed _) => s.perform (.close h) h .gone
          | _ => none
      | .dispatching n =>
          if s.app.calls (h, n) = some .returned then
            some (s.setConn h (.serving (n + 1)), [])
          else none
      | .removing n =>
          if s.app.calls (h, n) = some .returned then s.perform (.close h) h .gone else none
      | _ => none
  | .inbound h item =>
      match s.conns h with
      | .serving n =>
          match item with
          | some msg => s.processIncoming fromStr h n msg
          | none => s.leave h n
      | _ => none
  | .outbound h =>
      match s.conns h, (s.app.channels h).queue with
      | .serving n, request :: _ => s.perform (.recv h) h (.writing n request)
      | _, _ => none
  | .written h ok =>
      match s.conns h with
      | .writing n request =>
          if ok then some (s.setConn h (.serving n), [.wrote h request]) else s.leave h n
      | _ => none
  | .runTask i =>
      (s.app.step (.runTask i)).map fun r => ({ s with app := r.1 }, r.2.map .app)

end ServerState

/-! ## What a step of a connection can do -/

/-- The connection is in the loop of `process_ws`, and `n` is the number of its next
call. -/
inductive LoopAt (n : Nat) : ConnState PeerID → Prop
  | serving : LoopAt n (.serving n)
  | writing (request) : LoopAt n (.writing n request)

/-- From `conn`, the connection `h` starts its call `n` and waits in `conn'`. -/
inductive Starts (h : PeerHandler PeerID) : ConnState PeerID → Nat → Call PeerID →
    ConnState PeerID → List (ServerEvent PeerID) → Prop
  | accept : Starts h .absent 0 (.addPeer h) .adding []
  | forward (n : Nat) (fromPeerId toPeerId data) :
      Starts h (.serving n) n (.handleForward fromPeerId h.peerId toPeerId data)
        (.dispatching n) [.frame h n (.forward fromPeerId toPeerId data)]
  | leave {conn : ConnState PeerID} (n : Nat) (hloop : LoopAt n conn) :
      Starts h conn n (.removePeer h.peerId) (.removing n) []

/-- The call that the connection `h` waits for has returned, and it enters the loop. -/
inductive Resumes (s : ServerState PeerID) (h : PeerHandler PeerID) :
    ConnState PeerID → Nat → Prop
  | added (hcall : s.app.calls (h, 0) = some .returned) : Resumes s h .adding 1
  | dispatched (n : Nat) (hcall : s.app.calls (h, n) = some .returned) :
      Resumes s h (.dispatching n) (n + 1)

/-- The connection `h` has nothing left to do but to drop its receiver. -/
inductive Ends (s : ServerState PeerID) (h : PeerHandler PeerID) : ConnState PeerID → Prop
  | rejected (e : Error PeerID) (hcall : s.app.calls (h, 0) = some (.failed e)) :
      Ends s h .adding
  | removed (n : Nat) (hcall : s.app.calls (h, n) = some .returned) :
      Ends s h (.removing n)

/-- The connection that an action belongs to. -/
def ServerAction.handler? : ServerAction PeerID → Option (PeerHandler PeerID)
  | .accept h | .advance h _ | .resume h | .inbound h _ | .outbound h | .written h _ => some h
  | .runTask _ => none

/-- The actions on the socket of a connection. -/
def ServerAction.OnSocket : ServerAction PeerID → Prop
  | .accept _ | .inbound .. | .outbound _ | .written .. => True
  | _ => False

/-- The steps of the connection `h`, one constructor for each kind of effect. -/
inductive ConnSteps (s s' : ServerState PeerID) (h : PeerHandler PeerID) :
    ServerAction PeerID → List (ServerEvent PeerID) → Prop
  | start {l n call conn' frames} (hl : l.OnSocket)
      (hstarts : Starts h (s.conns h) n call conn' frames)
      (hfresh : s.app.calls (h, n) = none)
      (happ : s'.app = s.app.setCall (h, n) call.start)
      (hconns : s'.conns = Function.update s.conns h conn') :
      ConnSteps s s' h l (frames ++ [.app (.called (h, n) call)])
  | advance {choice n pc es} (hcurrent : (s.conns h).currentCall = some n)
      (hpc : s.app.calls (h, n) = some pc)
      (hadvance : AppState.Advances s.app (h, n) pc s'.app es)
      (hconns : s'.conns = s.conns) : ConnSteps s s' h (.advance h choice) (es.map .app)
  | resume {n} (hresumes : Resumes s h (s.conns h) n) (happ : s'.app = s.app)
      (hconns : s'.conns = Function.update s.conns h (.serving n)) :
      ConnSteps s s' h (.resume h) []
  | finish (hends : Ends s h (s.conns h))
      (happ : s'.app = s.app.setChannel h { queue := [], closed := true })
      (hconns : s'.conns = Function.update s.conns h .gone) :
      ConnSteps s s' h (.resume h) []
  | loop {l n m conn' es} (hl : l.OnSocket)
      (hloop : LoopAt n (s.conns h)) (hloop' : LoopAt m conn') (hle : n ≤ m)
      (happ : s'.app = s.app) (hconns : s'.conns = Function.update s.conns h conn')
      (hes : ∀ e ∈ es, (∃ k, e = .frame h k .keepAlive) ∨ ∃ request, e = .wrote h request) :
      ConnSteps s s' h l es
  | recv {n channel request} (hloop : LoopAt n (s.conns h))
      (hclosed : channel.closed = (s.app.channels h).closed)
      (happ : s'.app = s.app.setChannel h channel)
      (hconns : s'.conns = Function.update s.conns h (.writing n request)) :
      ConnSteps s s' h (.outbound h) [.app (.received h request)]

/-- The steps of the server: those of its connections and of its send tasks. -/
inductive ServerSteps (s s' : ServerState PeerID) :
    ServerAction PeerID → List (ServerEvent PeerID) → Prop
  | conn {h l es} (hconn : ConnSteps s s' h l es) : ServerSteps s s' l es
  | drop {i task} (htask : s.app.tasks[i]? = some task)
      (hclosed : (s.app.channels task.handler).closed = true)
      (happ : s'.app = { s.app with tasks := s.app.tasks.eraseIdx i })
      (hconns : s'.conns = s.conns) :
      ServerSteps s s' (.runTask i) [.app (.dropped task)]
  | enqueue {i task} (htask : s.app.tasks[i]? = some task)
      (hopen : (s.app.channels task.handler).closed = false)
      (happ : s'.app = s.app.enqueue i task) (hconns : s'.conns = s.conns) :
      ServerSteps s s' (.runTask i) [.app (.enqueued task)]

theorem perform_eq_some {s s' : ServerState PeerID} {a : Action PeerID (CallId PeerID)}
    {h : PeerHandler PeerID} {conn : ConnState PeerID} {es : List (ServerEvent PeerID)}
    (hperform : s.perform a h conn = some (s', es)) :
    ∃ aes, AppState.Steps s.app a s'.app aes ∧
      s'.conns = Function.update s.conns h conn ∧ es = aes.map .app := by
  simp only [ServerState.perform, Option.map_eq_some_iff, Prod.mk.injEq] at hperform
  obtain ⟨⟨app, aes⟩, hstep, rfl, rfl⟩ := hperform
  exact ⟨aes, AppState.steps_of_step hstep, rfl, rfl⟩

theorem start_of_perform (s₀ : ServerState PeerID) (frames : List (ServerEvent PeerID))
    {s s' : ServerState PeerID} {h : PeerHandler PeerID} {n : Nat} {call : Call PeerID}
    {conn' : ConnState PeerID} {l : ServerAction PeerID} {es : List (ServerEvent PeerID)}
    (hl : l.OnSocket)
    (happ : s₀.app = s.app) (hconns : s₀.conns = s.conns)
    (hstarts : Starts h (s.conns h) n call conn' frames)
    (hperform : s₀.perform (.call (h, n) call) h conn' = some (s', es)) :
    ConnSteps s s' h l (frames ++ es) := by
  obtain ⟨aes, hsteps, hconns', rfl⟩ := perform_eq_some hperform
  rw [happ] at hsteps
  rw [hconns] at hconns'
  generalize happ' : s'.app = app at hsteps
  cases hsteps with
  | call _ _ hfresh => exact .start hl hstarts hfresh happ' hconns'

theorem connSteps_of_handleRequest (s₀ : ServerState PeerID) {s s' : ServerState PeerID}
    {h : PeerHandler PeerID} {n : Nat} {request : PeerRequest PeerID}
    {l : ServerAction PeerID} {es : List (ServerEvent PeerID)}
    (hl : l.OnSocket) (happ : s₀.app = s.app)
    (hconns : s₀.conns = s.conns) (hserving : s.conns h = .serving n)
    (hstep : s₀.handleRequest h n request = some (s', es)) : ConnSteps s s' h l es := by
  cases request with
  | keepAlive =>
      simp only [ServerState.handleRequest, Option.some.injEq, Prod.mk.injEq] at hstep
      obtain ⟨rfl, rfl⟩ := hstep
      refine .loop (n := n) (m := n + 1) hl (by rw [hserving]; exact .serving)
        .serving (Nat.le_succ n) happ (by rw [ServerState.setConn, hconns]) ?_
      exact fun e he => Or.inl ⟨n, List.mem_singleton.mp he⟩
  | forward fromPeerId toPeerId data =>
      simp only [ServerState.handleRequest, Option.map_eq_some_iff, Prod.mk.injEq] at hstep
      obtain ⟨⟨s₁, es₁⟩, hperform, rfl, rfl⟩ := hstep
      have hstarts : Starts h (s.conns h) n
          (.handleForward fromPeerId h.peerId toPeerId data) (.dispatching n)
          [.frame h n (.forward fromPeerId toPeerId data)] := by
        rw [hserving]
        exact .forward n fromPeerId toPeerId data
      exact start_of_perform s₀ _ hl happ hconns hstarts hperform

theorem connSteps_of_processIncoming {fromStr : String → Option (PeerRequest PeerID)}
    {s s' : ServerState PeerID} {h : PeerHandler PeerID} {n : Nat} {msg : Message}
    {l : ServerAction PeerID} {es : List (ServerEvent PeerID)}
    (hl : l.OnSocket) (hserving : s.conns h = .serving n)
    (hstep : s.processIncoming fromStr h n msg = some (s', es)) :
    ConnSteps s s' h l es := by
  have hloop : LoopAt n (s.conns h) := by rw [hserving]; exact .serving
  have hignored : ConnSteps s (s.incrementReceived h.peerId) h l [] :=
    .loop hl hloop hloop le_rfl rfl (by simp [ServerState.incrementReceived]) (by simp)
  cases msg with
  | text raw =>
      simp only [ServerState.processIncoming] at hstep
      split at hstep
      · exact connSteps_of_handleRequest (s.incrementReceived h.peerId) hl rfl rfl
          hserving hstep
      · cases hstep
        exact hignored
  | binary | ping | pong =>
      cases hstep
      exact hignored
  | close =>
      exact start_of_perform (s.incrementReceived h.peerId) [] hl rfl rfl
        (.leave n hloop) hstep

theorem connSteps_of_resume {fromStr : String → Option (PeerRequest PeerID)}
    {s s' : ServerState PeerID} {h : PeerHandler PeerID} {es : List (ServerEvent PeerID)}
    (hstep : s.step fromStr (.resume h) = some (s', es)) :
    ConnSteps s s' h (.resume h) es := by
  have hfinish : Ends s h (s.conns h) → s.perform (.close h) h .gone = some (s', es) →
      ConnSteps s s' h (.resume h) es := by
    intro hends hperform
    obtain ⟨aes, hsteps, hconns, rfl⟩ := perform_eq_some hperform
    generalize happ : s'.app = app at hsteps
    cases hsteps with
    | close => exact .finish hends happ hconns
  simp only [ServerState.step] at hstep
  split at hstep
  case h_1 hadding =>
      split at hstep
      case h_1 hcall =>
          cases hstep
          exact .resume (n := 1) (by rw [hadding]; exact .added hcall) rfl rfl
      case h_2 e hcall => exact hfinish (by rw [hadding]; exact .rejected e hcall) hstep
      case h_3 => cases hstep
  case h_2 n hdispatching =>
      split at hstep
      case isTrue hcall =>
          cases hstep
          exact .resume (n := n + 1) (by rw [hdispatching]; exact .dispatched n hcall) rfl rfl
      case isFalse => cases hstep
  case h_3 n hremoving =>
      split at hstep
      case isTrue hcall => exact hfinish (by rw [hremoving]; exact .removed n hcall) hstep
      case isFalse => cases hstep
  case h_4 => cases hstep

/-- A step of a connection does what `ConnSteps` lists. -/
theorem connSteps_of_step {fromStr : String → Option (PeerRequest PeerID)}
    {s s' : ServerState PeerID} {h : PeerHandler PeerID} {l : ServerAction PeerID}
    {es : List (ServerEvent PeerID)} (hl : l.handler? = some h)
    (hstep : s.step fromStr l = some (s', es)) : ConnSteps s s' h l es := by
  cases l with
  | accept g =>
      cases hl
      simp only [ServerState.step] at hstep
      split at hstep
      case isTrue haccept =>
          refine start_of_perform s [] trivial rfl rfl ?_ hstep
          rw [haccept.1]
          exact .accept
      case isFalse => cases hstep
  | advance g choice =>
      cases hl
      simp only [ServerState.step] at hstep
      split at hstep
      case h_1 n hcurrent =>
          obtain ⟨aes, hsteps, hconns, rfl⟩ := perform_eq_some hstep
          rw [Function.update_eq_self] at hconns
          generalize happ : s'.app = app at hsteps
          cases hsteps with
          | advance _ _ hpc hadvance =>
              exact .advance hcurrent hpc (happ ▸ hadvance) hconns
      case h_2 => cases hstep
  | resume g =>
      cases hl
      exact connSteps_of_resume hstep
  | inbound g item =>
      cases hl
      simp only [ServerState.step] at hstep
      split at hstep
      case h_1 n hserving =>
          cases item with
          | some msg => exact connSteps_of_processIncoming trivial hserving hstep
          | none =>
              refine start_of_perform s [] trivial rfl rfl (.leave n ?_) hstep
              rw [hserving]
              exact .serving
      case h_2 => cases hstep
  | outbound g =>
      cases hl
      simp only [ServerState.step] at hstep
      split at hstep
      case h_1 n request queue hserving hqueue =>
          simp only [ServerState.perform, AppState.step, hqueue, Option.map_some,
            Option.some.injEq, Prod.mk.injEq] at hstep
          obtain ⟨rfl, rfl⟩ := hstep
          refine .recv (n := n) (by rw [hserving]; exact .serving) ?_ rfl rfl
          rfl
      case h_2 => cases hstep
  | written g ok =>
      cases hl
      simp only [ServerState.step] at hstep
      split at hstep
      case h_1 n request hwriting =>
          have hloop : LoopAt n (s.conns h) := by rw [hwriting]; exact .writing request
          split at hstep
          case isTrue =>
              cases hstep
              refine .loop trivial hloop (.serving (n := n)) le_rfl rfl rfl fun e he => ?_
              exact Or.inr ⟨request, List.mem_singleton.mp he⟩
          case isFalse =>
              exact start_of_perform s [] trivial rfl rfl (.leave n hloop) hstep
      case h_2 => cases hstep
  | runTask i => cases hl

theorem serverSteps_of_step {fromStr : String → Option (PeerRequest PeerID)}
    {s s' : ServerState PeerID} {l : ServerAction PeerID}
    {es : List (ServerEvent PeerID)} (hstep : s.step fromStr l = some (s', es)) :
    ServerSteps s s' l es := by
  cases l with
  | accept h | advance h _ | resume h | inbound h _ | outbound h | written h _ =>
      exact .conn (connSteps_of_step (h := h) rfl hstep)
  | runTask i =>
      simp only [ServerState.step, Option.map_eq_some_iff, Prod.mk.injEq] at hstep
      obtain ⟨⟨app, aes⟩, happstep, rfl, rfl⟩ := hstep
      cases AppState.steps_of_step happstep with
      | drop i task htask hclosed => exact .drop htask hclosed rfl rfl
      | enqueue i task htask hopen => exact .enqueue htask hopen rfl rfl

/-! ## The call a connection waits for -/

/-- In `conn`, the connection `h` waits for its call `n`. -/
inductive WaitsFor (h : PeerHandler PeerID) : ConnState PeerID → Nat → Call PeerID → Prop
  | adding : WaitsFor h .adding 0 (.addPeer h)
  | dispatching (n : Nat) (fromPeerId toPeerId data) :
      WaitsFor h (.dispatching n) n (.handleForward fromPeerId h.peerId toPeerId data)
  | removing (n : Nat) : WaitsFor h (.removing n) n (.removePeer h.peerId)

/-- While the connection waits, the call it waits for is in progress. -/
def Waiting (s : ServerState PeerID) (h : PeerHandler PeerID) : Prop :=
  ∀ n, (s.conns h).currentCall = some n →
    ∃ call pc, WaitsFor h (s.conns h) n call ∧ s.app.calls (h, n) = some pc ∧ call.At pc

/-- The calls of `h` are the same in both states, but for what iterations are due. -/
def SameCalls (s s' : ServerState PeerID) (h : PeerHandler PeerID) : Prop :=
  ∀ n, s'.app.calls (h, n) = s.app.calls (h, n) ∨
    ∃ peerId, s'.app.calls (h, n) = (s.app.calls (h, n)).map (Pc.forget peerId)

theorem sameCalls_of_eq {s s' : ServerState PeerID} {h : PeerHandler PeerID}
    (heq : s'.app.calls = s.app.calls) : SameCalls s s' h :=
  fun n => Or.inl (congrFun heq (h, n))

/-- A step of one connection leaves the others where they are. -/
theorem ConnSteps.others {s s' : ServerState PeerID} {h g : PeerHandler PeerID}
    {l : ServerAction PeerID} {es : List (ServerEvent PeerID)}
    (hsteps : ConnSteps s s' h l es) (hg : g ≠ h) :
    s'.conns g = s.conns g ∧ SameCalls s s' g := by
  cases hsteps with
  | start _ _ _ happ hconns =>
      refine ⟨by simp [hconns, hg], fun m => Or.inl ?_⟩
      rw [happ, AppState.setCall_calls_of_ne _ (by simp [hg])]
  | advance _ _ hadvance hconns =>
      exact ⟨by rw [hconns], fun m => hadvance.calls_of_ne (by simp [hg])⟩
  | resume _ happ hconns => exact ⟨by simp [hconns, hg], sameCalls_of_eq (by rw [happ])⟩
  | finish _ happ hconns =>
      exact ⟨by simp [hconns, hg], sameCalls_of_eq (by rw [happ]; rfl)⟩
  | loop _ _ _ _ happ hconns => exact ⟨by simp [hconns, hg], sameCalls_of_eq (by rw [happ])⟩
  | recv _ _ happ hconns =>
      exact ⟨by simp [hconns, hg], sameCalls_of_eq (by rw [happ]; rfl)⟩

theorem Waiting.of_same {s s' : ServerState PeerID} {h : PeerHandler PeerID}
    (hwaiting : Waiting s h) (hconns : s'.conns h = s.conns h) (hcalls : SameCalls s s' h) :
    Waiting s' h := by
  intro n hcurrent
  rw [hconns] at hcurrent ⊢
  obtain ⟨call, pc, hwaits, hpc, hat⟩ := hwaiting n hcurrent
  rcases hcalls n with hcall | ⟨peerId, hcall⟩
  · exact ⟨call, pc, hwaits, hcall.trans hpc, hat⟩
  · exact ⟨call, pc.forget peerId, hwaits, by simp [hcall, hpc], hat.forget peerId⟩

theorem waiting_of_loopAt {s : ServerState PeerID} {h : PeerHandler PeerID} {n : Nat}
    (hloop : LoopAt n (s.conns h)) : Waiting s h := by
  intro m hcurrent
  generalize s.conns h = conn at hloop hcurrent
  cases hloop <;> simp [ConnState.currentCall] at hcurrent

theorem ConnSteps.waiting {s s' : ServerState PeerID} {h : PeerHandler PeerID}
    {l : ServerAction PeerID} {es : List (ServerEvent PeerID)}
    (hsteps : ConnSteps s s' h l es) (hwaiting : Waiting s h) : Waiting s' h := by
  cases hsteps with
  | start _ hstarts _ happ hconns =>
      have hcall := AppState.setCall_calls_self s.app
      intro m hcurrent
      simp only [hconns, Function.update_self] at hcurrent ⊢
      generalize s.conns h = conn at hstarts
      cases hstarts with
      | accept =>
          cases hcurrent
          exact ⟨_, _, .adding, by rw [happ, hcall], Call.at_start _⟩
      | forward n fromPeerId toPeerId data =>
          cases hcurrent
          exact ⟨_, _, .dispatching _ fromPeerId toPeerId data, by rw [happ, hcall],
            Call.at_start _⟩
      | leave n =>
          cases hcurrent
          exact ⟨_, _, .removing _, by rw [happ, hcall], Call.at_start _⟩
  | advance hcurrent hpc hadvance hconns =>
      intro m hcurrent'
      rw [hconns] at hcurrent' ⊢
      obtain rfl : _ = m := Option.some.inj (hcurrent.symm.trans hcurrent')
      obtain ⟨call, pc, hwaits, hpc', hat⟩ := hwaiting _ hcurrent
      obtain rfl : _ = pc := Option.some.inj (hpc.symm.trans hpc')
      obtain ⟨pc', hnext, hat'⟩ := hat.advance hadvance
      exact ⟨call, pc', hwaits, hnext, hat'⟩
  | resume _ _ hconns =>
      exact waiting_of_loopAt (by rw [hconns, Function.update_self]; exact .serving)
  | finish _ _ hconns =>
      intro m hcurrent
      simp [hconns, ConnState.currentCall] at hcurrent
  | loop _ _ hloop' _ _ hconns =>
      exact waiting_of_loopAt (by rw [hconns, Function.update_self]; exact hloop')
  | recv _ _ _ hconns =>
      exact waiting_of_loopAt (by rw [hconns, Function.update_self]; exact .writing _)

theorem ServerSteps.waiting {s s' : ServerState PeerID} {l : ServerAction PeerID}
    {es : List (ServerEvent PeerID)} (hsteps : ServerSteps s s' l es)
    (hwaiting : ∀ h, Waiting s h) (g : PeerHandler PeerID) : Waiting s' g := by
  cases hsteps with
  | @conn h _ _ hconn =>
      by_cases hg : g = h
      · subst hg
        exact hconn.waiting (hwaiting g)
      · obtain ⟨hconns, hcalls⟩ := hconn.others hg
        exact (hwaiting g).of_same hconns hcalls
  | drop _ _ happ hconns =>
      exact (hwaiting g).of_same (by rw [hconns]) (sameCalls_of_eq (by rw [happ]))
  | enqueue _ _ happ hconns =>
      exact (hwaiting g).of_same (by rw [hconns]) (sameCalls_of_eq (by rw [happ]; rfl))

/-- Any number of connections on one state; `fromStr` is the JSON parser of requests. -/
def server (fromStr : String → Option (PeerRequest PeerID)) :
    Machine (ServerState PeerID) (ServerAction PeerID) (ServerEvent PeerID) where
  init := .init
  step := ServerState.step fromStr

/-! ## The server runs the shared state -/

def ServerEvent.app? : ServerEvent PeerID → Option (Event PeerID (CallId PeerID))
  | .app e => some e
  | _ => none

theorem mem_filterMap_app {tr : List (ServerEvent PeerID)}
    {e : Event PeerID (CallId PeerID)} : e ∈ tr.filterMap ServerEvent.app? ↔ .app e ∈ tr := by
  rw [List.mem_filterMap]
  constructor
  · rintro ⟨e', hmem, he'⟩
    cases e' with
    | app e₀ => cases he'; exact hmem
    | frame | wrote => cases he'
  · exact fun hmem => ⟨.app e, hmem, rfl⟩

theorem filterMap_map_app (es : List (Event PeerID (CallId PeerID))) :
    (es.map ServerEvent.app).filterMap ServerEvent.app? = es := by
  rw [List.filterMap_map]
  exact List.filterMap_some

/-- The step performs at most one step of the shared state. -/
def StepsApp (s s' : ServerState PeerID) (es : List (ServerEvent PeerID)) : Prop :=
  ∃ as, (appState PeerID (CallId PeerID)).execFrom s.app as =
    some (s'.app, es.filterMap ServerEvent.app?)

theorem stepsApp_of_perform {s s' : ServerState PeerID} {a : Action PeerID (CallId PeerID)}
    {h : PeerHandler PeerID} {conn : ConnState PeerID} {es : List (ServerEvent PeerID)}
    (hperform : s.perform a h conn = some (s', es)) : StepsApp s s' es := by
  simp only [ServerState.perform, Option.map_eq_some_iff, Prod.mk.injEq] at hperform
  obtain ⟨⟨app, aes⟩, hstep, rfl, rfl⟩ := hperform
  refine ⟨[a], ?_⟩
  rw [filterMap_map_app]
  simp [Machine.execFrom, appState, hstep, ServerState.setConn]

theorem stepsApp_of_eq {s s' : ServerState PeerID} {es : List (ServerEvent PeerID)}
    (happ : s'.app = s.app) (hes : es.filterMap ServerEvent.app? = []) : StepsApp s s' es :=
  ⟨[], by simp [Machine.execFrom, happ, hes]⟩

theorem stepsApp_of_processIncoming {fromStr : String → Option (PeerRequest PeerID)}
    {s s' : ServerState PeerID} {h : PeerHandler PeerID} {n : Nat} {msg : Message}
    {es : List (ServerEvent PeerID)}
    (hstep : s.processIncoming fromStr h n msg = some (s', es)) : StepsApp s s' es := by
  cases msg with
  | text raw =>
      simp only [ServerState.processIncoming] at hstep
      split at hstep
      case h_1 request _ =>
          cases request with
          | keepAlive => cases hstep; exact stepsApp_of_eq rfl rfl
          | forward fromPeerId toPeerId data =>
              simp only [ServerState.handleRequest, Option.map_eq_some_iff,
                Prod.mk.injEq] at hstep
              obtain ⟨⟨s₁, es₁⟩, hperform, rfl, rfl⟩ := hstep
              obtain ⟨as, has⟩ := stepsApp_of_perform hperform
              exact ⟨as, has⟩
      case h_2 => cases hstep; exact stepsApp_of_eq rfl rfl
  | binary | ping | pong => cases hstep; exact stepsApp_of_eq rfl rfl
  | close => exact stepsApp_of_perform (s := s.incrementReceived h.peerId) hstep

theorem stepsApp_of_step {fromStr : String → Option (PeerRequest PeerID)}
    {s s' : ServerState PeerID} {l : ServerAction PeerID} {es : List (ServerEvent PeerID)}
    (hstep : s.step fromStr l = some (s', es)) : StepsApp s s' es := by
  cases l with
  | accept h =>
      simp only [ServerState.step] at hstep
      split at hstep
      case isTrue => exact stepsApp_of_perform hstep
      case isFalse => cases hstep
  | advance h choice =>
      simp only [ServerState.step] at hstep
      split at hstep
      case h_1 => exact stepsApp_of_perform hstep
      case h_2 => cases hstep
  | resume h =>
      simp only [ServerState.step] at hstep
      split at hstep
      case h_1 =>
          split at hstep
          case h_1 => cases hstep; exact stepsApp_of_eq rfl rfl
          case h_2 => exact stepsApp_of_perform hstep
          case h_3 => cases hstep
      case h_2 =>
          split at hstep
          case isTrue => cases hstep; exact stepsApp_of_eq rfl rfl
          case isFalse => cases hstep
      case h_3 =>
          split at hstep
          case isTrue => exact stepsApp_of_perform hstep
          case isFalse => cases hstep
      case h_4 => cases hstep
  | inbound h item =>
      simp only [ServerState.step] at hstep
      split at hstep
      case h_1 =>
          cases item with
          | some msg => exact stepsApp_of_processIncoming hstep
          | none => exact stepsApp_of_perform hstep
      case h_2 => cases hstep
  | outbound h =>
      simp only [ServerState.step] at hstep
      split at hstep
      case h_1 => exact stepsApp_of_perform hstep
      case h_2 => cases hstep
  | written h ok =>
      simp only [ServerState.step] at hstep
      split at hstep
      case h_1 =>
          split at hstep
          case isTrue => cases hstep; exact stepsApp_of_eq rfl rfl
          case isFalse => exact stepsApp_of_perform hstep
      case h_2 => cases hstep
  | runTask i =>
      simp only [ServerState.step, Option.map_eq_some_iff, Prod.mk.injEq] at hstep
      obtain ⟨⟨app, aes⟩, happstep, rfl, rfl⟩ := hstep
      refine ⟨[.runTask i], ?_⟩
      rw [filterMap_map_app]
      simp [Machine.execFrom, appState, happstep]

/-- What the connections do to the shared state is a run of the shared state. -/
theorem server_refines_appState {fromStr : String → Option (PeerRequest PeerID)}
    {ls : List (ServerAction PeerID)} {s : ServerState PeerID}
    {tr : List (ServerEvent PeerID)} (hrun : (server fromStr).Run ls s tr) :
    ∃ as, (appState PeerID (CallId PeerID)).Run as s.app (tr.filterMap ServerEvent.app?) :=
  Machine.Run.refines (f := ServerState.app) (g := ServerEvent.app?) rfl
    (fun _ _ _ _ hstep => stepsApp_of_step hstep) hrun

/-! ## Joining -/

section Join

variable {fromStr : String → Option (PeerRequest PeerID)} {s : ServerState PeerID}
  {h : PeerHandler PeerID}

theorem step_advance (choice : Choice PeerID) {n : Nat} {pc : Pc PeerID}
    {app : AppState PeerID (CallId PeerID)} {es : List (Event PeerID (CallId PeerID))}
    (hcurrent : (s.conns h).currentCall = some n) (hpc : s.app.calls (h, n) = some pc)
    (hadvance : s.app.advance (h, n) pc choice = some (app, es)) :
    (server fromStr).step s (.advance h choice) =
      some ({ s with app := app }, es.map .app) := by
  simp [server, ServerState.step, hcurrent, ServerState.perform, AppState.step, hpc, hadvance,
    ServerState.setConn]

theorem step_accept (hcap : h.sender.capacity = 32) (habsent : s.conns h = .absent)
    (hcall : s.app.calls (h, 0) = none) :
    (server fromStr).step s (.accept h) =
      some ({ s with app := s.app.setCall (h, 0) (.containsKey h) }.setConn h .adding,
        [.app (.called (h, 0) (.addPeer h))]) := by
  simp [server, ServerState.step, hcap, habsent, ServerState.perform, AppState.step, hcall,
    Call.start]

theorem step_resume_adding (hadding : s.conns h = .adding)
    (hcall : s.app.calls (h, 0) = some .returned) :
    (server fromStr).step s (.resume h) = some (s.setConn h (.serving 1), []) := by
  simp [server, ServerState.step, hadding, hcall]

/-- A connection registers; the random id is not obtained, so that nothing is broadcast. -/
def joinSteps (h : PeerHandler PeerID) : List (ServerAction PeerID) :=
  [.accept h, .advance h .go, .advance h .go, .advance h .go, .advance h (.random none),
    .resume h]

theorem run_join {ls : List (ServerAction PeerID)} {tr : List (ServerEvent PeerID)}
    (hrun : (server fromStr).Run ls s tr) (hcap : h.sender.capacity = 32)
    (habsent : s.conns h = .absent) (hcall : s.app.calls (h, 0) = none)
    (hvacant : s.app.peers.lookup h.peerId = none) :
    ∃ s' tr', (server fromStr).Run (ls ++ joinSteps h) s' tr' ∧
      s'.conns = Function.update s.conns h (.serving 1) ∧
      s'.app.peers = s.app.peers.insert h.peerId h ∧
      s'.app.calls = Function.update s.app.calls (h, 0) (some .returned) ∧
      s'.app.tasks = s.app.tasks ∧ s'.app.channels = s.app.channels := by
  have hself : ∀ (app : AppState PeerID (CallId PeerID)) k pc,
      (app.setCall k pc).calls k = some pc := AppState.setCall_calls_self
  have hcontains : (s.app.setCall (h, 0) (.containsKey h)).advance (h, 0) (.containsKey h) .go =
      some ((s.app.setCall (h, 0) (.containsKey h)).setCall (h, 0) (.insert h), []) := by
    simp [AppState.advance, hvacant]
  have hcurrent : ∀ app, (({ s with app := app }.setConn h .adding).conns h).currentCall =
      some 0 := by
    simp [ServerState.setConn, ConnState.currentCall]
  have hrun₁ := hrun.snoc (step_accept hcap habsent hcall)
  have hrun₂ := hrun₁.snoc (step_advance .go (hcurrent _) (hself _ _ _) hcontains)
  have hrun₃ := hrun₂.snoc (step_advance .go (hcurrent _) (hself _ _ _) rfl)
  have hrun₄ := hrun₃.snoc (step_advance .go (hcurrent _) (hself _ _ _) rfl)
  have hrun₅ := hrun₄.snoc (step_advance (.random none) (hcurrent _) (hself _ _ _) rfl)
  have hrun₆ := hrun₅.snoc (step_resume_adding (by simp [ServerState.setConn]) (hself _ _ _))
  simp only [List.append_assoc, List.cons_append, List.nil_append] at hrun₆
  refine ⟨_, _, hrun₆, ?_, rfl, ?_, rfl, rfl⟩
  · simp [ServerState.setConn]
  · simp [ServerState.setConn, AppState.setCall]

end Join

end SfRs.Server
