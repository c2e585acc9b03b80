import SfRs.Lib.Ledger
import SfRs.Lib.Machine
import SfRs.PeerId.Basic
import SfRs.Server.Connection
/-!
# The loop of one connection

`process_ws` for any stream, sink, channel and parser.  The stream yields a finite list
of items and `None` from then on; the requests of other tasks arrive in the channel at
any time; the scheduler picks the branch of `select!` and whether a write succeeds.  A
branch whose pattern does not match is not taken, and the channel never closes while the
loop runs, because the handler holds one of its senders.
-/

namespace SfRs.Server

open SfRs.Lib SfRs.Protocol

/-- An item of the stream. -/
inductive ReadItem where
  | ok (msg : Message)
  | error

/-- The calls of `AppStateInterface`. -/
inductive StateCall (PeerID : Type) where
  | handleKeepalive (peerId : PeerID)
  | handleForward (fromPeerId connectionPeerId : PeerID) (toPeerId : Option PeerID)
      (data : PeerEvent PeerID)
  deriving DecidableEq

inductive LoopPc where
  | select
  | sending (text : String)
  | dispatching
  /-- The loop is left, and `remove_peer` comes next. -/
  | closing
  | returned
  deriving DecidableEq

structure LoopState (PeerID : Type) where
  pc : LoopPc
  /-- What the stream is still to yield. -/
  read : List ReadItem
  queue : List (PeerRequest PeerID)
  /-- What other tasks are still to send. -/
  arriving : List (PeerRequest PeerID)
  msgRecvTotal : Nat

inductive LoopEvent (PeerID : Type) where
  | received (request : PeerRequest PeerID)
  | wrote (text : String)
  | writeFailed
  | serializeFailed
  | next (item : ReadItem)
  | called (call : StateCall PeerID)
  | removePeer (peerId : PeerID)

inductive LoopAction where
  | arrive
  | recv
  | sent (ok : Bool)
  | next
  /-- The call on the state returns. -/
  | dispatched
  | remove

variable {PeerID : Type}

/-- What the loop is given: the handler's id, the capacity of its channel, and the JSON
functions. -/
structure LoopParams (PeerID : Type) where
  id : PeerID
  capacity : Nat
  toString : PeerRequest PeerID → Option String
  fromStr : String → Option (PeerRequest PeerID)

namespace LoopParams

variable (p : LoopParams PeerID)

def handleRequest (s : LoopState PeerID) :
    PeerRequest PeerID → LoopState PeerID × List (LoopEvent PeerID)
  | .keepAlive => ({ s with pc := .dispatching }, [.called (.handleKeepalive p.id)])
  | .forward fromPeerId toPeerId data =>
      ({ s with pc := .dispatching },
        [.called (.handleForward fromPeerId p.id toPeerId data)])

/-- `process_incoming`, and the `break` when it returns `false`. -/
def processIncoming (s : LoopState PeerID) :
    Message → LoopState PeerID × List (LoopEvent PeerID)
  | .text raw =>
      match p.fromStr raw with
      | some request => p.handleRequest { s with msgRecvTotal := s.msgRecvTotal + 1 } request
      | none => ({ s with msgRecvTotal := s.msgRecvTotal + 1 }, [])
  | .binary | .ping | .pong => ({ s with msgRecvTotal := s.msgRecvTotal + 1 }, [])
  | .close => ({ s with msgRecvTotal := s.msgRecvTotal + 1, pc := .closing }, [])

def onItem (s : LoopState PeerID) : ReadItem → LoopState PeerID × List (LoopEvent PeerID)
  | .ok msg => p.processIncoming s msg
  | .error => ({ s with pc := .closing }, [])

def step (s : LoopState PeerID) :
    LoopAction → Option (LoopState PeerID × List (LoopEvent PeerID))
  | .arrive =>
      match s.arriving with
      | request :: arriving =>
          -- the receiver is dropped when `process_ws` returns
          if s.queue.length < p.capacity ∧ s.pc ≠ .returned then
            some ({ s with arriving := arriving, queue := s.queue ++ [request] }, [])
          else none
      | [] => none
  | .recv =>
      match s.pc, s.queue with
      | .select, request :: queue =>
          match p.toString request with
          | some text =>
              some ({ s with queue := queue, pc := .sending text }, [.received request])
          | none =>
              some ({ s with queue := queue, pc := .closing },
                [.received request, .serializeFailed])
      | _, _ => none
  | .sent ok =>
      match s.pc with
      | .sending text =>
          if ok then some ({ s with pc := .select }, [.wrote text])
          else some ({ s with pc := .closing }, [.writeFailed])
      | _ => none
  | .next =>
      match s.pc, s.read with
      | .select, item :: read =>
          let r := p.onItem { s with read := read } item
          some (r.1, .next item :: r.2)
      | _, _ => none
  | .dispatched =>
      match s.pc with
      | .dispatching => some ({ s with pc := .select }, [])
      | _ => none
  | .remove =>
      match s.pc with
      | .closing => some ({ s with pc := .returned }, [.removePeer p.id])
      | _ => none

/-! ## What a step can do -/

def callFor : PeerRequest PeerID → StateCall PeerID
  | .keepAlive => .handleKeepalive p.id
  | .forward fromPeerId toPeerId data => .handleForward fromPeerId p.id toPeerId data

theorem handleRequest_eq (s : LoopState PeerID) (request : PeerRequest PeerID) :
    p.handleRequest s request = ({ s with pc := .dispatching }, [.called (p.callFor request)]) := by
  cases request <;> rfl

/-- The call that an item of the stream leads to. -/
def callOf : ReadItem → Option (StateCall PeerID)
  | .ok (.text raw) => (p.fromStr raw).map p.callFor
  | _ => none

end LoopParams

def ReadItem.isOk : ReadItem → Bool
  | .ok _ => true
  | .error => false

/-- The stream item after which the loop is left. -/
def ReadItem.Stops : ReadItem → Prop
  | .ok .close | .error => True
  | _ => False

/-- The steps of the loop, one constructor for each kind of effect. -/
inductive LoopSteps (p : LoopParams PeerID) (s : LoopState PeerID) :
    LoopAction → LoopState PeerID → List (LoopEvent PeerID) → Prop
  | arrive {request arriving} (harriving : s.arriving = request :: arriving)
      (hpc : s.pc ≠ .returned) :
      LoopSteps p s .arrive { s with arriving := arriving, queue := s.queue ++ [request] } []
  | recv {request queue text} (hpc : s.pc = .select) (hqueue : s.queue = request :: queue)
      (htext : p.toString request = some text) :
      LoopSteps p s .recv { s with queue := queue, pc := .sending text } [.received request]
  | unserialized {request queue} (hpc : s.pc = .select) (hqueue : s.queue = request :: queue)
      (htext : p.toString request = none) :
      LoopSteps p s .recv { s with queue := queue, pc := .closing }
        [.received request, .serializeFailed]
  | wrote {text} (hpc : s.pc = .sending text) :
      LoopSteps p s (.sent true) { s with pc := .select } [.wrote text]
  | writeFailed {text} (hpc : s.pc = .sending text) :
      LoopSteps p s (.sent false) { s with pc := .closing } [.writeFailed]
  | dispatch {item read call} (hpc : s.pc = .select) (hread : s.read = item :: read)
      (hcall : p.callOf item = some call) (hok : item.isOk) (hgo : ¬ item.Stops) :
      LoopSteps p s .next
        { s with read := read, msgRecvTotal := s.msgRecvTotal + 1, pc := .dispatching }
        [.next item, .called call]
  | ignore {item read} (hpc : s.pc = .select) (hread : s.read = item :: read)
      (hcall : p.callOf item = none) (hok : item.isOk) (hgo : ¬ item.Stops) :
      LoopSteps p s .next { s with read := read, msgRecvTotal := s.msgRecvTotal + 1 }
        [.next item]
  | stop {item read total} (hpc : s.pc = .select) (hread : s.read = item :: read)
      (hcall : p.callOf item = none) (hstops : item.Stops)
      (htotal : total = s.msgRecvTotal + if item.isOk then 1 else 0) :
      LoopSteps p s .next { s with read := read, msgRecvTotal := total, pc := .closing }
        [.next item]
  | dispatched (hpc : s.pc = .dispatching) :
      LoopSteps p s .dispatched { s with pc := .select } []
  | remove (hpc : s.pc = .closing) :
      LoopSteps p s .remove { s with pc := .returned } [.removePeer p.id]

theorem loopSteps_of_item {p : LoopParams PeerID} {s s' : LoopState PeerID}
    {item : ReadItem} {read : List ReadItem} {es : List (LoopEvent PeerID)}
    (hpc : s.pc = .select) (hread : s.read = item :: read)
    (hitem : p.onItem { s with read := read } item = (s', es)) :
    LoopSteps p s .next s' (.next item :: es) := by
  cases item with
  | error =>
      cases hitem
      exact .stop hpc hread rfl trivial rfl
  | ok msg =>
      cases msg with
      | text raw =>
          simp only [LoopParams.onItem, LoopParams.processIncoming] at hitem
          split at hitem
          case h_1 request hparsed =>
              have hcall : p.callOf (.ok (.text raw)) = some (p.callFor request) := by
                simp [LoopParams.callOf, hparsed]
              rw [LoopParams.handleRequest_eq] at hitem
              cases hitem
              exact .dispatch hpc hread hcall rfl id
          case h_2 hparsed =>
              cases hitem
              have hcall : p.callOf (.ok (.text raw)) = none := by
                simp [LoopParams.callOf, hparsed]
              exact .ignore hpc hread hcall rfl id
      | binary | ping | pong =>
          cases hitem
          exact .ignore hpc hread rfl rfl id
      | close =>
          cases hitem
          exact .stop hpc hread rfl trivial rfl

theorem loopSteps_of_step {p : LoopParams PeerID} {s s' : LoopState PeerID} {l : LoopAction}
    {es : List (LoopEvent PeerID)} (hstep : p.step s l = some (s', es)) :
    LoopSteps p s l s' es := by
  cases l with
  | arrive =>
      simp only [LoopParams.step] at hstep
      split at hstep
      case h_1 request arriving harriving =>
          split at hstep
          case isTrue hroom => cases hstep; exact .arrive harriving hroom.2
          case isFalse => cases hstep
      case h_2 => cases hstep
  | recv =>
      simp only [LoopParams.step] at hstep
      split at hstep
      case h_1 request queue hpc hqueue =>
          split at hstep
          case h_1 text htext => cases hstep; exact .recv hpc hqueue htext
          case h_2 htext => cases hstep; exact .unserialized hpc hqueue htext
      case h_2 => cases hstep
  | sent ok =>
      simp only [LoopParams.step] at hstep
      split at hstep
      case h_1 text hpc =>
          cases ok with
          | true => cases hstep; exact .wrote hpc
          | false => cases hstep; exact .writeFailed hpc
      case h_2 => cases hstep
  | next =>
      simp only [LoopParams.step] at hstep
      split at hstep
      case h_1 item read hpc hread =>
          cases hstep
          exact loopSteps_of_item hpc hread rfl
      case h_2 => cases hstep
  | dispatched =>
      simp only [LoopParams.step] at hstep
      split at hstep
      case h_1 hpc => cases hstep; exact .dispatched hpc
      case h_2 => cases hstep
  | remove =>
      simp only [LoopParams.step] at hstep
      split at hstep
      case h_1 hpc => cases hstep; exact .remove hpc
      case h_2 => cases hstep

/-- The loop for a stream of the given items and a channel in which the given requests
will arrive. -/
def processWs (p : LoopParams PeerID) (items : List ReadItem)
    (requests : List (PeerRequest PeerID)) :
    Machine (LoopState PeerID) LoopAction (LoopEvent PeerID) where
  init :=
    { pc := .select, read := items, queue := [], arriving := requests, msgRecvTotal := 0 }
  step := p.step

/-! ## The two sides of the loop -/

variable {p : LoopParams PeerID} {items : List ReadItem} {requests : List (PeerRequest PeerID)}
  {s s' : LoopState PeerID} {tr es : List (LoopEvent PeerID)}

/-- The items consumed from the stream. -/
def consumed (tr : List (LoopEvent PeerID)) : List ReadItem :=
  tr.filterMap fun
    | .next item => some item
    | _ => none

/-- The requests taken from the channel. -/
def taken (tr : List (LoopEvent PeerID)) : List (PeerRequest PeerID) :=
  tr.filterMap fun
    | .received request => some request
    | _ => none

/-- The text frames successfully written. -/
def frames (tr : List (LoopEvent PeerID)) : List String :=
  tr.filterMap fun
    | .wrote text => some text
    | _ => none

def calls (tr : List (LoopEvent PeerID)) : List (StateCall PeerID) :=
  tr.filterMap fun
    | .called call => some call
    | _ => none

theorem consumed_append (tr es : List (LoopEvent PeerID)) :
    consumed (tr ++ es) = consumed tr ++ consumed es := by
  simp [consumed, List.filterMap_append]

theorem taken_append (tr es : List (LoopEvent PeerID)) :
    taken (tr ++ es) = taken tr ++ taken es := by
  simp [taken, List.filterMap_append]

theorem frames_append (tr es : List (LoopEvent PeerID)) :
    frames (tr ++ es) = frames tr ++ frames es := by
  simp [frames, List.filterMap_append]

theorem calls_append (tr es : List (LoopEvent PeerID)) :
    calls (tr ++ es) = calls tr ++ calls es := by
  simp [calls, List.filterMap_append]

/-- The reader works through the items of the stream in order. -/
structure ReaderSide (p : LoopParams PeerID) (items : List ReadItem) (s : LoopState PeerID)
    (tr : List (LoopEvent PeerID)) : Prop where
  inbound : consumed tr ++ s.read = items
  calls : calls tr = (consumed tr).filterMap p.callOf
  counter : s.msgRecvTotal = (consumed tr).countP ReadItem.isOk

theorem ReaderSide.keep (h : ReaderSide p items s tr) (hconsumed : consumed es = [])
    (hcalls : SfRs.Server.calls es = []) (hread : s'.read = s.read)
    (hcounter : s'.msgRecvTotal = s.msgRecvTotal) : ReaderSide p items s' (tr ++ es) := by
  constructor
  · rw [consumed_append, hconsumed, List.append_nil, hread]
    exact h.inbound
  · rw [calls_append, consumed_append, hcalls, hconsumed, List.append_nil, List.append_nil]
    exact h.calls
  · rw [consumed_append, hconsumed, List.append_nil, hcounter]
    exact h.counter

/-- The reader consumes its next item and makes the call that the item leads to. -/
theorem ReaderSide.next {item : ReadItem} {read : List ReadItem}
    (h : ReaderSide p items s tr) (hread : s.read = item :: read)
    (hcalls : SfRs.Server.calls es = (p.callOf item).toList) (hconsumed : consumed es = [item])
    (hread' : s'.read = read)
    (hcounter : s'.msgRecvTotal = s.msgRecvTotal + if item.isOk then 1 else 0) :
    ReaderSide p items s' (tr ++ es) := by
  constructor
  · rw [consumed_append, hconsumed, hread', ← h.inbound, hread, List.append_assoc]
    rfl
  · rw [calls_append, consumed_append, hcalls, hconsumed, h.calls, List.filterMap_append]
    cases hcall : p.callOf item <;> simp [hcall]
  · rw [consumed_append, hconsumed, hcounter, h.counter, List.countP_append,
      List.countP_singleton]

theorem ReaderSide.step {l : LoopAction} (h : ReaderSide p items s tr)
    (hsteps : LoopSteps p s l s' es) : ReaderSide p items s' (tr ++ es) := by
  cases hsteps with
  | arrive | recv | unserialized | wrote | writeFailed | dispatched | remove =>
      exact h.keep rfl rfl rfl rfl
  | dispatch _ hread hcall hok =>
      exact h.next hread (by rw [hcall]; rfl) rfl rfl (by rw [hok]; rfl)
  | ignore _ hread hcall hok =>
      exact h.next hread (by rw [hcall]; rfl) rfl rfl (by rw [hok]; rfl)
  | stop _ hread hcall _ htotal => exact h.next hread (by rw [hcall]; rfl) rfl rfl htotal

/-- What is left of the taken requests when the frames are written. -/
def LoopPc.Unwritten : LoopPc → List (Option String) → Prop
  | .select, texts | .dispatching, texts => texts = []
  | .sending text, texts => texts = [some text]
  | .closing, _ | .returned, _ => True

/-- The writer works through the requests of the channel in order. -/
structure WriterSide (p : LoopParams PeerID) (requests : List (PeerRequest PeerID))
    (s : LoopState PeerID) (tr : List (LoopEvent PeerID)) : Prop where
  outbound : taken tr ++ s.queue ++ s.arriving = requests
  written : ∃ rest, (taken tr).map p.toString = (frames tr).map some ++ rest ∧
    s.pc.Unwritten rest

theorem WriterSide.keep (h : WriterSide p requests s tr) (htaken : taken es = [])
    (hframes : frames es = []) (hqueue : s'.queue ++ s'.arriving = s.queue ++ s.arriving)
    (hpc : ∀ rest, s.pc.Unwritten rest → s'.pc.Unwritten rest) :
    WriterSide p requests s' (tr ++ es) := by
  obtain ⟨rest, hwritten, hrest⟩ := h.written
  constructor
  · rw [taken_append, htaken, List.append_nil, List.append_assoc, hqueue, ← List.append_assoc]
    exact h.outbound
  · rw [taken_append, frames_append, htaken, hframes, List.append_nil, List.append_nil]
    exact ⟨rest, hwritten, hpc rest hrest⟩

/-- The writer takes its next request. -/
theorem WriterSide.take {request : PeerRequest PeerID} {queue : List (PeerRequest PeerID)}
    (h : WriterSide p requests s tr) (hpc : s.pc = .select)
    (hqueue : s.queue = request :: queue) (htaken : taken es = [request])
    (hframes : frames es = []) (hqueue' : s'.queue = queue)
    (harriving : s'.arriving = s.arriving)
    (hpc' : s'.pc.Unwritten [p.toString request]) : WriterSide p requests s' (tr ++ es) := by
  obtain ⟨rest, hwritten, hrest⟩ := h.written
  rw [hpc] at hrest
  obtain rfl : rest = [] := hrest
  constructor
  · rw [taken_append, htaken, hqueue', harriving, ← h.outbound, hqueue]
    simp
  · refine ⟨[p.toString request], ?_, hpc'⟩
    rw [taken_append, frames_append, htaken, hframes, List.append_nil, List.map_append,
      hwritten, List.append_nil]
    rfl

theorem WriterSide.step {l : LoopAction} (h : WriterSide p requests s tr)
    (hsteps : LoopSteps p s l s' es) : WriterSide p requests s' (tr ++ es) := by
  cases hsteps with
  | arrive harriving hpc => exact h.keep rfl rfl (by simp [harriving]) fun _ => id
  | recv hpc hqueue htext => exact h.take hpc hqueue rfl rfl rfl rfl (by rw [htext]; rfl)
  | unserialized hpc hqueue => exact h.take hpc hqueue rfl rfl rfl rfl trivial
  | wrote hpc =>
      obtain ⟨rest, hwritten, hrest⟩ := h.written
      rw [hpc] at hrest
      obtain rfl : rest = [some _] := hrest
      constructor
      · simpa [taken_append, taken] using h.outbound
      · exact ⟨[], by simpa [taken_append, frames_append, taken, frames] using hwritten, rfl⟩
  | writeFailed => exact h.keep rfl rfl rfl fun _ _ => trivial
  | dispatch hpc => exact h.keep rfl rfl rfl fun rest hrest => by rwa [hpc] at hrest
  | ignore hpc => exact h.keep rfl rfl rfl fun _ => id
  | stop hpc => exact h.keep rfl rfl rfl fun _ _ => trivial
  | dispatched hpc => exact h.keep rfl rfl rfl fun rest hrest => by rwa [hpc] at hrest
  | remove hpc => exact h.keep rfl rfl rfl fun _ _ => trivial

/-! ## Leaving the loop -/

/-- The event ends the loop. -/
def LoopEvent.Stops : LoopEvent PeerID → Prop
  | .next item => item.Stops
  | .writeFailed | .serializeFailed => True
  | _ => False

/-- The event belongs to the loop. -/
def LoopEvent.Serves : LoopEvent PeerID → Prop
  | .removePeer _ => False
  | e => ¬ e.Stops

/-- The events of the loop, then the one that ended it, then the removal. -/
def Leaves (p : LoopParams PeerID) (tr : List (LoopEvent PeerID)) : LoopPc → Prop
  | .closing => ∃ pre e, tr = pre ++ [e] ∧ e.Stops ∧ ∀ e' ∈ pre, e'.Serves
  | .returned =>
      ∃ pre e, tr = pre ++ [e, .removePeer p.id] ∧ e.Stops ∧ ∀ e' ∈ pre, e'.Serves
  | _ => ∀ e ∈ tr, e.Serves

theorem Leaves.serves {pc : LoopPc} (h : Leaves p tr pc) (hclosing : pc ≠ .closing)
    (hreturned : pc ≠ .returned) : ∀ e ∈ tr, e.Serves := by
  cases pc with
  | closing => exact absurd rfl hclosing
  | returned => exact absurd rfl hreturned
  | select | sending | dispatching => exact h

@[simp] theorem serves_next (item : ReadItem) :
    (.next item : LoopEvent PeerID).Serves ↔ ¬ item.Stops := Iff.rfl

@[simp] theorem serves_received (request : PeerRequest PeerID) :
    (LoopEvent.received request).Serves := id

@[simp] theorem serves_wrote (text : String) : (.wrote text : LoopEvent PeerID).Serves := id

@[simp] theorem serves_called (call : StateCall PeerID) : (LoopEvent.called call).Serves := id

theorem serves_append (h : ∀ e ∈ tr, e.Serves) (hes : ∀ e ∈ es, e.Serves) :
    ∀ e ∈ tr ++ es, e.Serves :=
  List.forall_mem_append.mpr ⟨h, hes⟩

theorem Leaves.step {l : LoopAction} (h : Leaves p tr s.pc)
    (hsteps : LoopSteps p s l s' es) : Leaves p (tr ++ es) s'.pc := by
  have hserves : s.pc ≠ .closing ∧ s.pc ≠ .returned → ∀ e ∈ tr, e.Serves :=
    fun hpc => h.serves hpc.1 hpc.2
  cases hsteps with
  | arrive => rwa [List.append_nil]
  | recv hpc => exact serves_append (hserves (by simp [hpc])) (by simp)
  | @unserialized request _ hpc =>
      exact ⟨tr ++ [.received request], .serializeFailed, by simp, trivial,
        serves_append (hserves (by simp [hpc])) (by simp)⟩
  | wrote hpc => exact serves_append (hserves (by simp [hpc])) (by simp)
  | writeFailed hpc => exact ⟨tr, .writeFailed, rfl, trivial, hserves (by simp [hpc])⟩
  | dispatch hpc _ _ _ hgo =>
      exact serves_append (hserves (by simp [hpc])) (by simpa using hgo)
  | @ignore item _ hpc _ _ _ hgo =>
      have hall : ∀ e ∈ tr ++ [.next item], e.Serves :=
        serves_append (hserves (by simp [hpc])) (by simpa using hgo)
      show Leaves p _ s.pc
      rwa [hpc]
  | @stop item _ _ hpc _ _ hstops =>
      exact ⟨tr, .next item, rfl, hstops, hserves (by simp [hpc])⟩
  | dispatched hpc =>
      rw [List.append_nil]
      exact hserves (by simp [hpc])
  | remove hpc =>
      rw [hpc] at h
      obtain ⟨pre, e, rfl, hstops, hpre⟩ := h
      exact ⟨pre, e, by simp, hstops, hpre⟩

/-! ## Every run -/

/-- A bound on the steps that are left. -/
def LoopState.left (s : LoopState PeerID) : Nat :=
  3 * s.arriving.length + 2 * s.queue.length + 2 * s.read.length +
    match s.pc with
    | .sending _ | .dispatching => 3
    | .select => 2
    | .closing => 1
    | .returned => 0

theorem left_lt_of_step {l : LoopAction} (hsteps : LoopSteps p s l s' es) :
    s'.left < s.left := by
  cases hsteps with
  | arrive harriving =>
      simp only [LoopState.left, harriving, List.length_cons, List.length_append,
        List.length_nil]
      omega
  | recv hpc hqueue | unserialized hpc hqueue =>
      simp only [LoopState.left, hpc, hqueue, List.length_cons]
      omega
  | wrote hpc | writeFailed hpc | dispatched hpc | remove hpc =>
      simp only [LoopState.left, hpc]
      omega
  | dispatch hpc hread | ignore hpc hread | stop hpc hread =>
      simp only [LoopState.left, hpc, hread, List.length_cons]
      omega

/-- What a run of the loop shows of its two sides and of its end. -/
structure Served (p : LoopParams PeerID) (items : List ReadItem)
    (requests : List (PeerRequest PeerID)) (s : LoopState PeerID)
    (tr : List (LoopEvent PeerID)) : Prop where
  frames : ∃ sent, sent <+: requests ∧ sent.map p.toString = (frames tr).map some
  consumed : consumed tr <+: items
  calls : calls tr = (SfRs.Server.consumed tr).filterMap p.callOf
  counter : s.msgRecvTotal = (SfRs.Server.consumed tr).countP ReadItem.isOk
  exits : s.pc = .closing ∨ s.pc = .returned ↔ ∃ e ∈ tr, e.Stops
  silent : ∀ pre e post, tr = pre ++ e :: post → e.Stops → ∀ call, .called call ∉ post
  removedOnce : s.pc = .returned →
    ∃ pre, tr = pre ++ [.removePeer p.id] ∧ ∀ id, .removePeer id ∉ pre
  notRemoved : s.pc ≠ .returned → ∀ id, .removePeer id ∉ tr
  returns : (processWs p items requests).Stuck s → (∃ e ∈ tr, e.Stops) → s.pc = .returned

/-- After the event that ended the loop nothing happens but the removal. -/
theorem Leaves.after {pc : LoopPc} (h : Leaves p tr pc) {pre post : List (LoopEvent PeerID)}
    {e : LoopEvent PeerID} (htr : tr = pre ++ e :: post) (he : e.Stops) :
    ∀ e' ∈ post, e' = .removePeer p.id := by
  have hserves : ∀ {l : List (LoopEvent PeerID)}, (∀ x ∈ l, x.Serves) → ∀ x ∈ l, ¬ x.Stops := by
    intro l hl x hx
    have := hl x hx
    cases x <;> first | exact this | exact id
  cases pc with
  | closing =>
      obtain ⟨pre', e', htr', -, hpre⟩ := h
      obtain ⟨-, -, rfl⟩ := split_unique (htr.symm.trans htr') he (hserves hpre) (by simp)
      simp
  | returned =>
      obtain ⟨pre', e', htr', -, hpre⟩ := h
      obtain ⟨-, -, rfl⟩ := split_unique (htr.symm.trans htr') he (hserves hpre)
        (by simp [LoopEvent.Stops])
      simp
  | select | sending | dispatching =>
      exact absurd he (hserves h e (by simp [htr]))

theorem Leaves.exits_iff {pc : LoopPc} (h : Leaves p tr pc) :
    pc = .closing ∨ pc = .returned ↔ ∃ e ∈ tr, e.Stops := by
  have hnone : (∀ e ∈ tr, e.Serves) → ¬ ∃ e ∈ tr, e.Stops := by
    rintro hall ⟨e, he, hstops⟩
    have := hall e he
    cases e <;> first | exact this hstops | exact hstops
  cases pc with
  | closing | returned =>
      obtain ⟨pre, e, rfl, hstops, -⟩ := h
      exact iff_of_true (by simp) ⟨e, by simp, hstops⟩
  | select | sending | dispatching => exact iff_of_false (by simp) (hnone h)

theorem Leaves.notRemoved {pc : LoopPc} (h : Leaves p tr pc) (hpc : pc ≠ .returned)
    (id : PeerID) : .removePeer id ∉ tr := by
  have hnone : ∀ {l : List (LoopEvent PeerID)}, (∀ e ∈ l, e.Serves) → .removePeer id ∉ l :=
    fun hall hmem => hall _ hmem
  cases pc with
  | closing =>
      obtain ⟨pre, e, rfl, hstops, hpre⟩ := h
      intro hmem
      rcases List.mem_append.mp hmem with hmem | hmem
      · exact hnone hpre hmem
      · cases List.mem_singleton.mp hmem
        exact hstops
  | returned => exact absurd rfl hpc
  | select | sending | dispatching => exact hnone h

theorem readerSide_of_run {ls : List LoopAction}
    (hrun : (processWs p items requests).Run ls s tr) : ReaderSide p items s tr :=
  Machine.invariant (M := processWs p items requests) ⟨rfl, rfl, rfl⟩
    (fun _ _ _ _ _ h hstep => h.step (loopSteps_of_step hstep)) hrun

theorem writerSide_of_run {ls : List LoopAction}
    (hrun : (processWs p items requests).Run ls s tr) : WriterSide p requests s tr :=
  Machine.invariant (M := processWs p items requests) ⟨rfl, [], rfl, rfl⟩
    (fun _ _ _ _ _ h hstep => h.step (loopSteps_of_step hstep)) hrun

theorem leaves_of_run {ls : List LoopAction}
    (hrun : (processWs p items requests).Run ls s tr) : Leaves p tr s.pc :=
  @Machine.invariant _ _ _ (processWs p items requests) (fun s tr => Leaves p tr s.pc)
    (by simp [processWs, Leaves]) (fun _ _ _ _ _ h hstep => h.step (loopSteps_of_step hstep))
    _ _ _ hrun

/-- The frames written are the texts of the first requests. -/
theorem exists_sent (h : WriterSide p requests s tr) :
    ∃ sent, sent <+: requests ∧ sent.map p.toString = (frames tr).map some := by
  obtain ⟨rest, hwritten, -⟩ := h.written
  refine ⟨(taken tr).take (frames tr).length, ?_, ?_⟩
  · refine (List.take_prefix _ _).trans ⟨s.queue ++ s.arriving, ?_⟩
    rw [← List.append_assoc, h.outbound]
  · rw [List.map_take, hwritten, List.take_left' (by simp)]

/-- For every stream, every list of requests, every interleaving and all results of the
writes: the frames written are the encodings of the first requests of the channel, the
calls are those of the items consumed, and the loop is left exactly when it should be.
Every run can be continued until nothing more can happen. -/
theorem run_served {ls : List LoopAction} (hrun : (processWs p items requests).Run ls s tr) :
    Served p items requests s tr ∧
      ∃ ks t es, (processWs p items requests).Run (ls ++ ks) t (tr ++ es) ∧
        (processWs p items requests).Stuck t := by
  have hreader := readerSide_of_run hrun
  have hleaves := leaves_of_run hrun
  have hcontinue := hrun.exists_stuck LoopState.left (fun _ => True)
    (fun _ _ _ _ hstep => left_lt_of_step (loopSteps_of_step hstep)) fun _ l hl => ⟨l, trivial, hl⟩
  obtain ⟨ks, t, es, -, hrest⟩ := hcontinue
  refine ⟨?_, ks, t, es, hrest⟩
  constructor
  · exact exists_sent (writerSide_of_run hrun)
  · exact ⟨s.read, hreader.inbound⟩
  · exact hreader.calls
  · exact hreader.counter
  · exact hleaves.exits_iff
  · intro pre e post htr he call hmem
    cases hleaves.after htr he _ hmem
  · intro hpc
    rw [hpc] at hleaves
    obtain ⟨pre, e, rfl, hstops, hpre⟩ := hleaves
    refine ⟨pre ++ [e], by simp, fun id hmem => ?_⟩
    have hclosing : Leaves p (pre ++ [e]) .closing := ⟨pre, e, rfl, hstops, hpre⟩
    exact hclosing.notRemoved (by simp) id hmem
  · exact fun hpc id => hleaves.notRemoved hpc id
  · intro hstuck hstops
    refine (hleaves.exits_iff.mpr hstops).resolve_left fun hclosing => ?_
    have hremove := hstuck .remove
    simp [processWs, LoopParams.step, hclosing] at hremove

/-- A parser that knows one request. -/
def keepAliveParams : LoopParams PeerId.PeerID where
  id := .ofByte 1
  capacity := 32
  toString _ := some "\"keep_alive\""
  fromStr raw := if raw = "\"keep_alive\"" then some .keepAlive else none

theorem run_served_close :
    ∃ s tr, (processWs keepAliveParams
        [.ok .ping, .ok (.text "\"keep_alive\""), .ok .close, .ok (.text "\"keep_alive\"")]
        [.keepAlive]).Run
        [.next, .arrive, .recv, .sent true, .next, .dispatched, .next, .remove] s tr ∧
      s.msgRecvTotal = 3 ∧ calls tr = [.handleKeepalive (.ofByte 1)] ∧
        frames tr = ["\"keep_alive\""] ∧
        ∃ pre, tr = pre ++ [.removePeer (.ofByte 1)] ∧ ∀ id, .removePeer id ∉ pre := by
  have hrun : (processWs keepAliveParams
      [.ok .ping, .ok (.text "\"keep_alive\""), .ok .close, .ok (.text "\"keep_alive\"")]
      [.keepAlive]).Run [.next, .arrive, .recv, .sent true, .next, .dispatched, .next, .remove]
      _ _ := Machine.run_of_exec rfl
  exact ⟨_, _, hrun, rfl, rfl, rfl, (run_served hrun).1.removedOnce rfl⟩

/-! ## A stream that ends -/

/-- Once nothing more can happen, and all writes have succeeded, the peer is removed. -/
def RemovedAtEnd (p : LoopParams PeerID) (items : List ReadItem)
    (requests : List (PeerRequest PeerID)) : Prop :=
  ∀ ls s tr, (processWs p items requests).Run ls s tr → (∀ l ∈ ls, l ≠ .sent false) →
    (processWs p items requests).Stuck s → .removePeer p.id ∈ tr

/-- No item ends the loop, and every request can be written. -/
structure Unending (p : LoopParams PeerID) (items : List ReadItem)
    (requests : List (PeerRequest PeerID)) : Prop where
  items : ∀ item ∈ items, ¬ item.Stops
  requests : ∀ request ∈ requests, p.toString request ≠ none

theorem serves_of_unending (hunending : Unending p items requests) {ls : List LoopAction}
    (hrun : (processWs p items requests).Run ls s tr) (hsent : ∀ l ∈ ls, l ≠ .sent false) :
    (s.pc ≠ .closing ∧ s.pc ≠ .returned) ∧ (∀ item ∈ s.read, item ∈ items) ∧
      ∀ request ∈ s.queue ++ s.arriving, request ∈ requests := by
  induction hrun with
  | nil => exact ⟨by simp [processWs], fun _ h => h, fun _ h => h⟩
  | @snoc ls s tr l s' es hrun hstep ih =>
      obtain ⟨hpc, hitems, hrequests⟩ := ih fun l hl => hsent l (List.mem_append_left _ hl)
      have hl : l ≠ .sent false := hsent l (by simp)
      cases loopSteps_of_step hstep with
      | arrive harriving =>
          exact ⟨hpc, hitems, by simpa [harriving, or_assoc] using hrequests⟩
      | recv _ hqueue =>
          refine ⟨by simp, hitems, fun request hmem => hrequests request ?_⟩
          rw [hqueue]
          exact List.mem_cons_of_mem _ hmem
      | unserialized _ hqueue htext =>
          exact absurd htext (hunending.requests _ (hrequests _ (by simp [hqueue])))
      | wrote => exact ⟨by simp, hitems, hrequests⟩
      | writeFailed => exact absurd rfl hl
      | dispatch _ hread =>
          exact ⟨by simp, fun item h => hitems item (by simp [hread, h]), hrequests⟩
      | ignore _ hread =>
          exact ⟨hpc, fun item h => hitems item (by simp [hread, h]), hrequests⟩
      | stop _ hread _ hstops =>
          exact absurd hstops (hunending.items _ (hitems _ (by simp [hread])))
      | dispatched => exact ⟨by simp, hitems, hrequests⟩
      | remove hclosing => exact absurd hclosing hpc.1

/-- Where a step is enabled, one that is no failing write is. -/
theorem exists_step_ok {l : LoopAction} (h : p.step s l ≠ none) :
    ∃ l', l' ≠ .sent false ∧ p.step s l' ≠ none := by
  cases l with
  | sent ok =>
      obtain ⟨⟨s', es⟩, hstep⟩ := Option.ne_none_iff_exists'.mp h
      refine ⟨.sent true, by simp, ?_⟩
      cases loopSteps_of_step hstep with
      | wrote hpc | writeFailed hpc => simp [LoopParams.step, hpc]
  | _ => exact ⟨_, by simp, h⟩

/-- Whenever the stream ends without a close frame or an error, and all requests can be
written, the loop reaches a state in which nothing more can happen and the peer is still
registered. -/
theorem not_removedAtEnd (hunending : Unending p items requests) :
    ¬ RemovedAtEnd p items requests := by
  intro hremoved
  obtain ⟨ls, s, tr, hsent, hrun, hstuck⟩ :=
    (Machine.Run.nil (M := processWs p items requests)).exists_stuck LoopState.left
      (fun l => l ≠ .sent false)
      (fun _ _ _ _ hstep => left_lt_of_step (loopSteps_of_step hstep))
      fun _ _ hl => exists_step_ok hl
  obtain ⟨⟨-, hpc⟩, -⟩ := serves_of_unending hunending hrun hsent
  exact (run_served hrun).1.notRemoved hpc p.id (hremoved ls s _ hrun hsent hstuck)

theorem not_removedAtEnd_ping :
    ¬ RemovedAtEnd keepAliveParams [.ok .ping] [.keepAlive] :=
  not_removedAtEnd ⟨by simp [ReadItem.Stops], by simp [keepAliveParams]⟩

/-- The connection of `01` whose stream ends at once. -/
theorem not_removedAtEnd_empty :
    ¬ ∀ (p : LoopParams PeerId.PeerID) items requests, Unending p items requests →
      RemovedAtEnd p items requests := by
  intro hall
  have hremoved := hall keepAliveParams [] [] ⟨by simp, by simp⟩ [] _ _ .nil (by simp)
    (by intro l; cases l <;> rfl)
  cases hremoved

end SfRs.Server
