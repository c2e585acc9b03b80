import Mathlib.Data.List.AList
import SfRs.Lib.Machine
import SfRs.Protocol
/-!
# The server's shared state

`AppState` holds the registry of peers, which concurrent calls read and write one
`DashMap` operation at a time.  A call in progress is a program position (`Pc`); the
scheduler picks which call advances, which spawned send task runs and what an
iteration over the map visits next.  Calls are named by `κ`, so that the machine can be
driven by any set of callers.
-/

set_option linter.unusedSectionVars false

namespace SfRs.Server

open SfRs.Lib SfRs.Protocol

/-- The sending half of an `mpsc` channel. -/
structure Sender where
  chan : Nat
  capacity : Nat
  deriving DecidableEq

/-- A handler is named by its peer id and its channel, and clones are equal. -/
structure PeerHandler (PeerID : Type) where
  peerId : PeerID
  sender : Sender
  deriving DecidableEq

inductive Error (PeerID : Type) where
  | peerAlreadyExists (peerId : PeerID)
  deriving DecidableEq

/-- The arguments of `broadcast_forward_except`. -/
structure Broadcast (PeerID : Type) where
  fromPeerId : PeerID
  data : PeerEvent PeerID
  exclude : Option PeerID
  deriving DecidableEq

/-- The calls other tasks make on the state. -/
inductive Call (PeerID : Type) where
  | addPeer (handler : PeerHandler PeerID)
  | removePeer (peerId : PeerID)
  | handleForward (fromPeerId connectionPeerId : PeerID) (toPeerId : Option PeerID)
      (data : PeerEvent PeerID)
  | broadcastForwardExcept (b : Broadcast PeerID)
  deriving DecidableEq

/-- What a call does next. -/
inductive Pc (PeerID : Type) where
  -- `add_peer`
  | containsKey (handler : PeerHandler PeerID)
  | insert (handler : PeerHandler PeerID)
  | incrementPeerCount (handler : PeerHandler PeerID)
  | randomId (handler : PeerHandler PeerID)
  -- `broadcast_forward_except`
  | iter (b : Broadcast PeerID)
  | collect (b : Broadcast PeerID) (due seen : List PeerID)
  | forEach (b : Broadcast PeerID) (ids : List PeerID)
  -- `forward_single`
  | sendForward (fromPeerId toPeerId : PeerID) (data : PeerEvent PeerID)
  | incrementForwarded (toPeerId : PeerID)
  -- `remove_peer`
  | remove (peerId : PeerID)
  | decrementPeerCount
  | returned
  | failed (e : Error PeerID)
  deriving DecidableEq

/-- A spawned `handler.send(payload)`, with the call that spawned it. -/
structure SendTask (PeerID κ : Type) where
  id : Nat
  caller : κ
  handler : PeerHandler PeerID
  payload : PeerRequest PeerID
  deriving DecidableEq

structure Channel (PeerID : Type) where
  queue : List (PeerRequest PeerID)
  closed : Bool

structure AppState (PeerID κ : Type) where
  peers : AList fun _ : PeerID => PeerHandler PeerID
  peerCount : Int
  messageBroadcast : Nat
  messageForwarded : PeerID → Nat
  messagesSent : PeerID → Nat
  calls : κ → Option (Pc PeerID)
  /-- Spawned and not yet run, oldest first. -/
  tasks : List (SendTask PeerID κ)
  spawned : Nat
  channels : PeerHandler PeerID → Channel PeerID

inductive Event (PeerID κ : Type) where
  | called (k : κ) (call : Call PeerID)
  | inserted (k : κ) (handler : PeerHandler PeerID)
  | removed (k : κ) (handler : PeerHandler PeerID)
  /-- The `ids` that a broadcast collected. -/
  | snapshot (k : κ) (b : Broadcast PeerID) (ids : List PeerID)
  | lookup (k : κ) (peerId : PeerID) (found : Option (PeerHandler PeerID))
  | spawned (task : SendTask PeerID κ)
  | enqueued (task : SendTask PeerID κ)
  | dropped (task : SendTask PeerID κ)
  | received (handler : PeerHandler PeerID) (request : PeerRequest PeerID)
  deriving DecidableEq

/-- What a step of a call takes from outside: the result of `PeerID::random`, or the
next move of a map iteration. -/
inductive Choice (PeerID : Type) where
  | go
  | random (id : Option PeerID)
  | visit (id : PeerID)
  | stop

inductive Action (PeerID κ : Type) where
  | call (k : κ) (call : Call PeerID)
  | advance (k : κ) (choice : Choice PeerID)
  | runTask (i : Nat)
  | recv (handler : PeerHandler PeerID)
  | close (handler : PeerHandler PeerID)

variable {PeerID κ : Type}

def Call.start : Call PeerID → Pc PeerID
  | .addPeer handler => .containsKey handler
  | .removePeer peerId => .remove peerId
  | .handleForward fromPeerId connectionPeerId toPeerId data =>
      match toPeerId with
      | some target => .sendForward fromPeerId target data
      | none => .iter { fromPeerId := connectionPeerId, data := data, exclude := none }
  | .broadcastForwardExcept b => .iter b

variable [DecidableEq PeerID] [DecidableEq κ]

/-- A removed key need not be visited by the iterations under way. -/
def Pc.forget (peerId : PeerID) : Pc PeerID → Pc PeerID
  | .collect b due seen => .collect b (due.erase peerId) seen
  | pc => pc

namespace AppState

def init : AppState PeerID κ where
  peers := ∅
  peerCount := 0
  messageBroadcast := 0
  messageForwarded _ := 0
  messagesSent _ := 0
  calls _ := none
  tasks := []
  spawned := 0
  channels _ := { queue := [], closed := false }

def setCall (s : AppState PeerID κ) (k : κ) (pc : Pc PeerID) : AppState PeerID κ :=
  { s with calls := Function.update s.calls k (some pc) }

def setChannel (s : AppState PeerID κ) (handler : PeerHandler PeerID)
    (channel : Channel PeerID) : AppState PeerID κ :=
  { s with channels := Function.update s.channels handler channel }

@[simp] theorem setCall_peers (s : AppState PeerID κ) (k : κ) (pc : Pc PeerID) :
    (s.setCall k pc).peers = s.peers := rfl

@[simp] theorem setCall_tasks (s : AppState PeerID κ) (k : κ) (pc : Pc PeerID) :
    (s.setCall k pc).tasks = s.tasks := rfl

@[simp] theorem setCall_spawned (s : AppState PeerID κ) (k : κ) (pc : Pc PeerID) :
    (s.setCall k pc).spawned = s.spawned := rfl

@[simp] theorem setCall_channels (s : AppState PeerID κ) (k : κ) (pc : Pc PeerID) :
    (s.setCall k pc).channels = s.channels := rfl

@[simp] theorem setCall_calls_self (s : AppState PeerID κ) (k : κ) (pc : Pc PeerID) :
    (s.setCall k pc).calls k = some pc := by
  simp [setCall]

theorem setCall_calls_of_ne (s : AppState PeerID κ) {k k' : κ} (hne : k' ≠ k)
    (pc : Pc PeerID) : (s.setCall k pc).calls k' = s.calls k' := by
  simp [setCall, hne]

/-- `send_to_peer` looks the peer up and spawns a task that owns the handler found. -/
def sendToPeer (s : AppState PeerID κ) (k : κ) (peerId : PeerID)
    (payload : PeerRequest PeerID) : AppState PeerID κ × List (Event PeerID κ) :=
  match s.peers.lookup peerId with
  | some handler =>
      let task := { id := s.spawned, caller := k, handler := handler, payload := payload }
      ({ s with tasks := s.tasks ++ [task], spawned := s.spawned + 1 },
        [.lookup k peerId (some handler), .spawned task])
  | none => (s, [.lookup k peerId none])

def sendForward (s : AppState PeerID κ) (k : κ) (fromPeerId toPeerId : PeerID)
    (data : PeerEvent PeerID) : AppState PeerID κ × List (Event PeerID κ) :=
  sendToPeer s k toPeerId (.forward fromPeerId (some toPeerId) data)

theorem sendForward_of_found {s : AppState PeerID κ} {k : κ}
    {fromPeerId toPeerId : PeerID} {data : PeerEvent PeerID} {handler : PeerHandler PeerID}
    (hfound : s.peers.lookup toPeerId = some handler) :
    s.sendForward k fromPeerId toPeerId data =
      let task : SendTask PeerID κ :=
        { id := s.spawned, caller := k, handler := handler,
          payload := .forward fromPeerId (some toPeerId) data }
      ({ s with tasks := s.tasks ++ [task], spawned := s.spawned + 1 },
        [.lookup k toPeerId (some handler), .spawned task]) := by
  simp [sendForward, sendToPeer, hfound]

theorem sendForward_of_absent {s : AppState PeerID κ} {k : κ}
    {fromPeerId toPeerId : PeerID} {data : PeerEvent PeerID}
    (habsent : s.peers.lookup toPeerId = none) :
    s.sendForward k fromPeerId toPeerId data = (s, [.lookup k toPeerId none]) := by
  simp [sendForward, sendToPeer, habsent]

@[simp] theorem sendForward_calls (s : AppState PeerID κ) (k : κ)
    (fromPeerId toPeerId : PeerID) (data : PeerEvent PeerID) :
    (s.sendForward k fromPeerId toPeerId data).1.calls = s.calls := by
  unfold sendForward sendToPeer
  split <;> rfl

@[simp] theorem sendForward_peers (s : AppState PeerID κ) (k : κ)
    (fromPeerId toPeerId : PeerID) (data : PeerEvent PeerID) :
    (s.sendForward k fromPeerId toPeerId data).1.peers = s.peers := by
  unfold sendForward sendToPeer
  split <;> rfl

@[simp] theorem sendForward_channels (s : AppState PeerID κ) (k : κ)
    (fromPeerId toPeerId : PeerID) (data : PeerEvent PeerID) :
    (s.sendForward k fromPeerId toPeerId data).1.channels = s.channels := by
  unfold sendForward sendToPeer
  split <;> rfl

theorem sendForward_events {s : AppState PeerID κ} {k : κ} {fromPeerId toPeerId : PeerID}
    {data : PeerEvent PeerID} {e : Event PeerID κ}
    (he : e ∈ (s.sendForward k fromPeerId toPeerId data).2) :
    (∃ found, e = .lookup k toPeerId found) ∨ ∃ task, e = .spawned task := by
  cases hfound : s.peers.lookup toPeerId with
  | none =>
      rw [sendForward_of_absent hfound] at he
      exact Or.inl ⟨none, List.mem_singleton.mp he⟩
  | some handler =>
      rw [sendForward_of_found hfound] at he
      simp only [List.mem_cons, List.not_mem_nil, or_false] at he
      rcases he with rfl | rfl
      · exact Or.inl ⟨some handler, rfl⟩
      · exact Or.inr ⟨_, rfl⟩

/-- `peers.remove(id)`. -/
def removeEntry (s : AppState PeerID κ) (peerId : PeerID) : AppState PeerID κ :=
  { s with
    peers := s.peers.erase peerId
    calls := fun k => (s.calls k).map (Pc.forget peerId) }

/-- One step of the call `k`, which is at the given position. -/
def advance (s : AppState PeerID κ) (k : κ) :
    Pc PeerID → Choice PeerID → Option (AppState PeerID κ × List (Event PeerID κ))
  | .containsKey handler, .go =>
      if (s.peers.lookup handler.peerId).isSome then
        some (s.setCall k (.failed (.peerAlreadyExists handler.peerId)), [])
      else some (s.setCall k (.insert handler), [])
  | .insert handler, .go =>
      some ({ s with peers := s.peers.insert handler.peerId handler }.setCall k
        (.incrementPeerCount handler), [.inserted k handler])
  | .incrementPeerCount handler, .go =>
      some ({ s with peerCount := s.peerCount + 1 }.setCall k (.randomId handler), [])
  | .randomId handler, .random (some id) =>
      let event := PeerEvent.newPeer handler.peerId
      some (s.setCall k (.iter { fromPeerId := id, data := event, exclude := none }), [])
  -- the error is logged, and the peer stays added
  | .randomId _, .random none => some (s.setCall k .returned, [])
  | .iter b, .go => some (s.setCall k (.collect b s.peers.keys []), [])
  | .collect b due seen, .visit id =>
      if id ∈ s.peers.keys ∧ id ∉ seen then
        some (s.setCall k (.collect b due (seen ++ [id])), [])
      else none
  | .collect b due seen, .stop =>
      if due ⊆ seen then some (s.setCall k (.forEach b seen), [.snapshot k b seen])
      else none
  | .forEach _ [], .go =>
      some ({ s with messageBroadcast := s.messageBroadcast + 1 }.setCall k .returned, [])
  | .forEach b (pid :: ids), .go =>
      if b.exclude = some pid then some (s.setCall k (.forEach b ids), [])
      else
        let r := sendForward s k b.fromPeerId pid b.data
        some (r.1.setCall k (.forEach b ids), r.2)
  | .sendForward fromPeerId toPeerId data, .go =>
      let r := sendForward s k fromPeerId toPeerId data
      some (r.1.setCall k (.incrementForwarded toPeerId), r.2)
  | .incrementForwarded toPeerId, .go =>
      let count := s.messageForwarded toPeerId + 1
      some ({ s with messageForwarded :=
        Function.update s.messageForwarded toPeerId count }.setCall k .returned, [])
  | .remove peerId, .go =>
      match s.peers.lookup peerId with
      | some handler =>
          some ((s.removeEntry peerId).setCall k .decrementPeerCount, [.removed k handler])
      | none => some (s.setCall k .returned, [])
  | .decrementPeerCount, .go =>
      some ({ s with peerCount := s.peerCount - 1 }.setCall k .returned, [])
  | _, _ => none

/-- `handler.send(payload)`, with room in the channel. -/
def enqueue (s : AppState PeerID κ) (i : Nat) (task : SendTask PeerID κ) :
    AppState PeerID κ :=
  let channel := s.channels task.handler
  let sent := s.messagesSent task.handler.peerId + 1
  { s with
    tasks := s.tasks.eraseIdx i
    channels := Function.update s.channels task.handler
      { channel with queue := channel.queue ++ [task.payload] }
    messagesSent := Function.update s.messagesSent task.handler.peerId sent }

/-- The `i`-th spawned task runs, unless its channel is full. -/
def runTask (s : AppState PeerID κ) (i : Nat) :
    Option (AppState PeerID κ × List (Event PeerID κ)) :=
  match s.tasks[i]? with
  | none => none
  | some task =>
      if (s.channels task.handler).closed then
        some ({ s with tasks := s.tasks.eraseIdx i }, [.dropped task])
      else if (s.channels task.handler).queue.length < task.handler.sender.capacity then
        some (s.enqueue i task, [.enqueued task])
      else none

def step (s : AppState PeerID κ) :
    Action PeerID κ → Option (AppState PeerID κ × List (Event PeerID κ))
  | .call k call =>
      if (s.calls k).isNone then some (s.setCall k call.start, [.called k call]) else none
  | .advance k choice => (s.calls k).bind fun pc => s.advance k pc choice
  | .runTask i => s.runTask i
  | .recv handler =>
      match (s.channels handler).queue with
      | [] => none
      | request :: queue =>
          some (s.setChannel handler { s.channels handler with queue := queue },
            [.received handler request])
  | .close handler => some (s.setChannel handler { queue := [], closed := true }, [])

/-! ## What a step of a call can do -/

/-- The positions a call passes through without touching the registry, the tasks or
the channels. -/
inductive Quiet : Pc PeerID → Pc PeerID → Prop
  | found (handler) :
      Quiet (.containsKey handler) (.failed (.peerAlreadyExists handler.peerId))
  | incremented (handler) : Quiet (.incrementPeerCount handler) (.randomId handler)
  | named (handler id) : Quiet (.randomId handler)
      (.iter { fromPeerId := id, data := .newPeer handler.peerId, exclude := none })
  | unnamed (handler) : Quiet (.randomId handler) .returned
  | visited (b due seen id) (hnew : id ∉ seen) :
      Quiet (.collect b due seen) (.collect b due (seen ++ [id]))
  | swept (b) : Quiet (.forEach b []) .returned
  | skipped (b : Broadcast PeerID) (pid ids) (hexclude : b.exclude = some pid) :
      Quiet (.forEach b (pid :: ids)) (.forEach b ids)
  | forwarded (toPeerId) : Quiet (.incrementForwarded toPeerId) .returned
  | decremented : Quiet .decrementPeerCount .returned

/-- `s` and `s'` differ in their metrics at most. -/
structure SameButMetrics (s s' : AppState PeerID κ) : Prop where
  peers : s'.peers = s.peers
  calls : s'.calls = s.calls
  tasks : s'.tasks = s.tasks
  spawned : s'.spawned = s.spawned
  channels : s'.channels = s.channels

theorem SameButMetrics.refl (s : AppState PeerID κ) : SameButMetrics s s :=
  ⟨rfl, rfl, rfl, rfl, rfl⟩

/-- The steps of a call `k` at a position, one constructor for each kind of effect. -/
inductive Advances (s : AppState PeerID κ) (k : κ) :
    Pc PeerID → AppState PeerID κ → List (Event PeerID κ) → Prop
  | quiet {pc pc' s'} (hquiet : Quiet pc pc') (hsame : SameButMetrics s s') :
      Advances s k pc (s'.setCall k pc') []
  | vacant (handler : PeerHandler PeerID) (hvacant : s.peers.lookup handler.peerId = none) :
      Advances s k (.containsKey handler) (s.setCall k (.insert handler)) []
  | insert (handler : PeerHandler PeerID) :
      Advances s k (.insert handler)
        ({ s with peers := s.peers.insert handler.peerId handler }.setCall k
          (.incrementPeerCount handler)) [.inserted k handler]
  | iter (b : Broadcast PeerID) :
      Advances s k (.iter b) (s.setCall k (.collect b s.peers.keys [])) []
  | snapshot (b : Broadcast PeerID) (due seen : List PeerID) (hdue : due ⊆ seen) :
      Advances s k (.collect b due seen) (s.setCall k (.forEach b seen)) [.snapshot k b seen]
  | sendEach (b : Broadcast PeerID) (pid : PeerID) (ids : List PeerID)
      (hexclude : b.exclude ≠ some pid) :
      Advances s k (.forEach b (pid :: ids))
        ((s.sendForward k b.fromPeerId pid b.data).1.setCall k (.forEach b ids))
        (s.sendForward k b.fromPeerId pid b.data).2
  | sendSingle (fromPeerId toPeerId : PeerID) (data : PeerEvent PeerID) :
      Advances s k (.sendForward fromPeerId toPeerId data)
        ((s.sendForward k fromPeerId toPeerId data).1.setCall k (.incrementForwarded toPeerId))
        (s.sendForward k fromPeerId toPeerId data).2
  | remove (handler : PeerHandler PeerID) (peerId : PeerID)
      (hfound : s.peers.lookup peerId = some handler) :
      Advances s k (.remove peerId) ((s.removeEntry peerId).setCall k .decrementPeerCount)
        [.removed k handler]
  | removeAbsent (peerId : PeerID) (habsent : s.peers.lookup peerId = none) :
      Advances s k (.remove peerId) (s.setCall k .returned) []

theorem advances_of_advance {s s' : AppState PeerID κ} {k : κ} {pc : Pc PeerID}
    {choice : Choice PeerID} {es : List (Event PeerID κ)}
    (h : s.advance k pc choice = some (s', es)) : Advances s k pc s' es := by
  unfold advance at h
  split at h
  case h_1 handler =>
      split at h
      case isTrue => cases h; exact .quiet (.found _) (.refl s)
      case isFalse hnone => cases h; exact .vacant _ (by simpa using hnone)
  case h_2 => cases h; exact .insert _
  case h_3 => cases h; exact .quiet (.incremented _) ⟨rfl, rfl, rfl, rfl, rfl⟩
  case h_4 => cases h; exact .quiet (.named _ _) (.refl s)
  case h_5 => cases h; exact .quiet (.unnamed _) (.refl s)
  case h_6 => cases h; exact .iter _
  case h_7 =>
      split at h
      case isTrue hvisit => cases h; exact .quiet (.visited _ _ _ _ hvisit.2) (.refl s)
      case isFalse => cases h
  case h_8 =>
      split at h
      case isTrue hdue => cases h; exact .snapshot _ _ _ hdue
      case isFalse => cases h
  case h_9 => cases h; exact .quiet (.swept _) ⟨rfl, rfl, rfl, rfl, rfl⟩
  case h_10 =>
      split at h
      case isTrue hexclude => cases h; exact .quiet (.skipped _ _ _ hexclude) (.refl s)
      case isFalse hexclude => cases h; exact .sendEach _ _ _ hexclude
  case h_11 => cases h; exact .sendSingle _ _ _
  case h_12 => cases h; exact .quiet (.forwarded _) ⟨rfl, rfl, rfl, rfl, rfl⟩
  case h_13 =>
      split at h
      case h_1 hfound => cases h; exact .remove _ _ hfound
      case h_2 habsent => cases h; exact .removeAbsent _ habsent
  case h_14 => cases h; exact .quiet .decremented ⟨rfl, rfl, rfl, rfl, rfl⟩
  case h_15 => cases h

/-- A step of a call changes no other call, but for the keys an iteration is due. -/
theorem Advances.calls_of_ne {s s' : AppState PeerID κ} {k k' : κ} {pc : Pc PeerID}
    {es : List (Event PeerID κ)} (h : Advances s k pc s' es) (hne : k' ≠ k) :
    s'.calls k' = s.calls k' ∨ ∃ peerId, s'.calls k' = (s.calls k').map (Pc.forget peerId) := by
  cases h with
  | quiet _ hsame =>
      rw [setCall_calls_of_ne _ hne, hsame.calls]
      exact Or.inl rfl
  | vacant | insert | iter | snapshot | removeAbsent =>
      exact Or.inl (setCall_calls_of_ne _ hne _)
  | sendEach | sendSingle =>
      rw [setCall_calls_of_ne _ hne, sendForward_calls]
      exact Or.inl rfl
  | remove _ peerId =>
      rw [setCall_calls_of_ne _ hne]
      exact Or.inr ⟨peerId, rfl⟩

/-- The steps of the state, one constructor for each kind of effect. -/
inductive Steps (s : AppState PeerID κ) :
    Action PeerID κ → AppState PeerID κ → List (Event PeerID κ) → Prop
  | call (k : κ) (call : Call PeerID) (hfresh : s.calls k = none) :
      Steps s (.call k call) (s.setCall k call.start) [.called k call]
  | advance (k : κ) (choice : Choice PeerID) {pc s' es} (hpc : s.calls k = some pc)
      (hadvance : Advances s k pc s' es) : Steps s (.advance k choice) s' es
  | drop (i : Nat) (task : SendTask PeerID κ) (htask : s.tasks[i]? = some task)
      (hclosed : (s.channels task.handler).closed = true) :
      Steps s (.runTask i) { s with tasks := s.tasks.eraseIdx i } [.dropped task]
  | enqueue (i : Nat) (task : SendTask PeerID κ) (htask : s.tasks[i]? = some task)
      (hopen : (s.channels task.handler).closed = false) :
      Steps s (.runTask i) (s.enqueue i task) [.enqueued task]
  | recv (handler : PeerHandler PeerID) (channel : Channel PeerID) (request)
      (hclosed : channel.closed = (s.channels handler).closed)
      (hqueue : (s.channels handler).queue = request :: channel.queue) :
      Steps s (.recv handler) (s.setChannel handler channel) [.received handler request]
  | close (handler : PeerHandler PeerID) :
      Steps s (.close handler) (s.setChannel handler { queue := [], closed := true }) []

theorem steps_of_step {s s' : AppState PeerID κ} {a : Action PeerID κ}
    {es : List (Event PeerID κ)} (h : s.step a = some (s', es)) : Steps s a s' es := by
  cases a with
  | call k call =>
      simp only [step] at h
      split at h
      case isTrue hfresh => cases h; exact .call k call (by simpa using hfresh)
      case isFalse => cases h
  | advance k choice =>
      simp only [step, Option.bind_eq_some_iff] at h
      obtain ⟨pc, hpc, hadvance⟩ := h
      exact .advance k choice hpc (advances_of_advance hadvance)
  | runTask i =>
      simp only [step, runTask] at h
      split at h
      case h_1 => cases h
      case h_2 task htask =>
          split at h
          case isTrue hclosed => cases h; exact .drop i task htask hclosed
          case isFalse hopen =>
              split at h
              case isTrue => cases h; exact .enqueue i task htask (by simpa using hopen)
              case isFalse => cases h
  | recv handler =>
      simp only [step] at h
      split at h
      case h_1 => cases h
      case h_2 request queue hqueue => cases h; exact .recv handler _ request rfl hqueue
  | close handler =>
      simp only [step] at h
      cases h
      exact .close handler

end AppState

/-- Any number of calls on an empty registry, in any interleaving. -/
def appState (PeerID κ : Type) [DecidableEq PeerID] [DecidableEq κ] :
    Machine (AppState PeerID κ) (Action PeerID κ) (Event PeerID κ) where
  init := .init
  step := AppState.step

end SfRs.Server
