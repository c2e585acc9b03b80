import Mathlib.Algebra.Order.Ring.Nat
import Mathlib.Data.List.Perm.Basic
import SfRs.Lib.Machine
import SfRs.Wasm.PeerManager
/-!
# Callbacks that call the client

`notify_event` invokes the registered JavaScript functions one after another.  They run at
once, and may call the client while its loop still holds the map of callbacks.
-/

namespace SfRs.Wasm.Callbacks

open SfRs.Lib

/-- `usize` on `wasm32`. -/
abbrev Usize := UInt32

/-- The calls that a callback makes. -/
inductive Call (JsCallback : Type) where
  | onEvent (callback : JsCallback)
  | removeOnEvent (id : Usize)
  | listPeers

/-- What can be seen of a call: a cell that refuses a borrow ends it with a panic, or
leaves it without its result. -/
inductive Event (JsCallback : Type) where
  | called (call : Call JsCallback)
  | registered (id : Usize)
  | listed (peers : List String)
  | refused
  | panicked

abbrev CallbackMap (JsCallback : Type) := AList fun _ : Usize => JsCallback

structure JsCallbackManager (JsCallback : Type) where
  callbacks : RefCell (CallbackMap JsCallback)
  nextId : Usize

structure Client (PeerID JsCallback : Type) where
  eventCallbacks : JsCallbackManager JsCallback
  peerManager : RefCell (PeerManager PeerID)

/-- A running `notify_event`: the callbacks it is still to invoke, and what the one that
it invoked last is still to call, until that returns. -/
structure Notification (JsCallback : Type) where
  callbacks : List JsCallback
  current : Option (List (Call JsCallback))

/-- A client, and the notifications that run, the innermost first. -/
structure Page (PeerID JsCallback : Type) where
  client : Client PeerID JsCallback
  stack : List (Notification JsCallback)

/-- What happens next: a call from outside of the callbacks, an event for them, which comes
with the order in which the map is iterated, or more of the innermost notification. -/
inductive Label (PeerID JsCallback : Type) where
  | call (call : Call JsCallback)
  | notifyEvent (order : List Usize)
  | newPeerDiscovered (peerId : PeerID) (order : List Usize)
  | resume

variable {PeerID JsCallback : Type}

def Event.isPanic : Event JsCallback → Bool
  | .panicked => true
  | _ => false

namespace JsCallbackManager

def new : JsCallbackManager JsCallback := ⟨.new ∅, 0⟩

/-- The identifier is taken before the map is borrowed. -/
def add (self : JsCallbackManager JsCallback) (callback : JsCallback) :
    JsCallbackManager JsCallback × Outcome Usize :=
  let id := self.nextId
  let self := { self with nextId := self.nextId + 1 }
  match self.callbacks.tryWrite fun callbacks => callbacks.insert id callback with
  | some callbacks => ({ self with callbacks := callbacks }, .done id)
  | none => (self, .panicked)

def remove (self : JsCallbackManager JsCallback) (id : Usize) :
    JsCallbackManager JsCallback × Outcome Unit :=
  match self.callbacks.tryWrite fun callbacks => callbacks.erase id with
  | some callbacks => ({ self with callbacks := callbacks }, .done ())
  | none => (self, .panicked)

def borrowCallbacks (self : JsCallbackManager JsCallback) :
    Outcome (JsCallbackManager JsCallback) :=
  (Outcome.expect self.callbacks.tryBorrow).bind fun callbacks =>
    .done { self with callbacks := callbacks }

/-- The end of the guard of `borrow_callbacks`. -/
def dropCallbacks (self : JsCallbackManager JsCallback) : JsCallbackManager JsCallback :=
  { self with callbacks := self.callbacks.dropRef }

end JsCallbackManager

namespace Client

def new : Client PeerID JsCallback := ⟨.new, .new .new⟩

def listPeers [ToString PeerID] (self : Client PeerID JsCallback) : Option (List String) :=
  self.peerManager.tryRead fun pm => pm.knownPeerIds.map toString

/-- `on_event`, `remove_on_event` and `list_peers` of the wrapper. -/
def call [ToString PeerID] (self : Client PeerID JsCallback) (call : Call JsCallback) :
    Client PeerID JsCallback × List (Event JsCallback) :=
  match call with
  | .onEvent callback =>
      let r := self.eventCallbacks.add callback
      ({ self with eventCallbacks := r.1 },
        .called call :: match r.2 with
          | .done id => [.registered id]
          | .panicked => [.panicked])
  | .removeOnEvent id =>
      let r := self.eventCallbacks.remove id
      ({ self with eventCallbacks := r.1 },
        .called call :: match r.2 with
          | .done () => []
          | .panicked => [.panicked])
  | .listPeers =>
      (self, .called call :: match self.listPeers with
        | some peers => [.listed peers]
        | none => [.refused, .listed []])

end Client

namespace Page

/-- An event comes while nothing of the page runs, or while a callback does, and the order
is one of the map. -/
def CanNotify (self : Page PeerID JsCallback) (order : List Usize) : Prop :=
  (self.stack.head?.all fun n => n.current.isSome) ∧
    order.Perm self.client.eventCallbacks.callbacks.value.keys

instance (self : Page PeerID JsCallback) (order : List Usize) : Decidable (self.CanNotify order) :=
  inferInstanceAs (Decidable (_ ∧ _))

/-- `notify_event` up to its loop: the borrow of the map lasts until the loop has ended. -/
def notifyEvent (self : Page PeerID JsCallback) (order : List Usize) :
    Page PeerID JsCallback × List (Event JsCallback) :=
  match self.client.eventCallbacks.borrowCallbacks with
  | .done eventCallbacks =>
      let callbacks := order.filterMap fun id => eventCallbacks.callbacks.value.lookup id
      ({ client := { self.client with eventCallbacks := eventCallbacks },
         stack := ⟨callbacks, none⟩ :: self.stack }, [])
  | .panicked => (self, [.panicked])

def newPeerDiscovered [DecidableEq PeerID] (self : Page PeerID JsCallback) (peerId : PeerID)
    (order : List Usize) : Page PeerID JsCallback × List (Event JsCallback) :=
  match self.client.peerManager.tryWrite fun pm => pm.addKnownPeerId peerId with
  | some pm =>
      { self with client := { self.client with peerManager := pm } }.notifyEvent order
  | none => (self, [.refused])

/-- The innermost notification goes on.  A panic ends the callback, and the loop reports it
as an error of the callback. -/
def resume [ToString PeerID] (script : JsCallback → List (Call JsCallback))
    (self : Page PeerID JsCallback) :
    Option (Page PeerID JsCallback × List (Event JsCallback)) :=
  match self.stack with
  | [] => none
  | ⟨callbacks, some (call :: calls)⟩ :: stack =>
      let r := self.client.call call
      let current := if r.2.any Event.isPanic then none else some calls
      some (⟨r.1, ⟨callbacks, current⟩ :: stack⟩, r.2)
  | ⟨callbacks, some []⟩ :: stack => some ({ self with stack := ⟨callbacks, none⟩ :: stack }, [])
  | ⟨callback :: callbacks, none⟩ :: stack =>
      some ({ self with stack := ⟨callbacks, some (script callback)⟩ :: stack }, [])
  | ⟨[], none⟩ :: stack =>
      let eventCallbacks := self.client.eventCallbacks.dropCallbacks
      some (⟨{ self.client with eventCallbacks := eventCallbacks }, stack⟩, [])

def step [ToString PeerID] [DecidableEq PeerID] (script : JsCallback → List (Call JsCallback))
    (self : Page PeerID JsCallback) :
    Label PeerID JsCallback → Option (Page PeerID JsCallback × List (Event JsCallback))
  | .call call =>
      if self.stack.isEmpty then
        let r := self.client.call call
        some ({ self with client := r.1 }, r.2)
      else none
  | .notifyEvent order => if self.CanNotify order then some (self.notifyEvent order) else none
  | .newPeerDiscovered peerId order =>
      if self.CanNotify order then some (self.newPeerDiscovered peerId order) else none
  | .resume => self.resume script

end Page

/-- A page with one client, whose callbacks each run a script. -/
def page (PeerID : Type) {JsCallback : Type} [ToString PeerID] [DecidableEq PeerID]
    (script : JsCallback → List (Call JsCallback)) :
    Machine (Page PeerID JsCallback) (Label PeerID JsCallback) (Event JsCallback) where
  init := ⟨.new, []⟩
  step := Page.step script

/-! ## The calls alone -/

/-- The callbacks as the calls that were made leave them. -/
structure Registry (JsCallback : Type) where
  callbacks : CallbackMap JsCallback
  nextId : Usize

def Registry.apply (self : Registry JsCallback) : Call JsCallback → Registry JsCallback
  | .onEvent callback => ⟨self.callbacks.insert self.nextId callback, self.nextId + 1⟩
  | .removeOnEvent id => { self with callbacks := self.callbacks.erase id }
  | .listPeers => self

def Event.call : Event JsCallback → Option (Call JsCallback)
  | .called call => some call
  | _ => none

def registry (tr : List (Event JsCallback)) : Registry JsCallback :=
  (tr.filterMap Event.call).foldl .apply ⟨∅, 0⟩

def Event.isConflict : Event JsCallback → Bool
  | .refused | .panicked => true
  | _ => false

/-- No cell refused a borrow, and the callbacks are those that the calls leave. -/
def ReEntrant (p : Page PeerID JsCallback) (tr : List (Event JsCallback)) : Prop :=
  (∀ e ∈ tr, e.isConflict = false) ∧
    p.client.eventCallbacks.callbacks.value = (registry tr).callbacks

/-- The call that the running callback makes next. -/
def Page.nextCall (p : Page PeerID JsCallback) : Option (Call JsCallback) :=
  p.stack.head?.bind fun n => n.current.bind List.head?

/-- The step is not that a callback adds or removes a callback. -/
def KeepsCallbacks (p : Page PeerID JsCallback) : Label PeerID JsCallback → Prop
  | .resume => ∀ call ∈ p.nextCall, call = .listPeers
  | _ => True

/-! ## The steps -/

def Client.registry (c : Client PeerID JsCallback) : Registry JsCallback :=
  ⟨c.eventCallbacks.callbacks.value, c.eventCallbacks.nextId⟩

/-- The map is borrowed once by every notification that runs. -/
structure Sound (p : Page PeerID JsCallback) (tr : List (Event JsCallback)) : Prop where
  callbacks : p.client.eventCallbacks.callbacks.borrows = p.stack.length
  peers : p.client.peerManager.borrows = 0
  quiet : ∀ e ∈ tr, e.isConflict = false
  registry : p.client.registry = Callbacks.registry tr

variable {script : JsCallback → List (Call JsCallback)} {p p' : Page PeerID JsCallback}
  {tr es : List (Event JsCallback)} {c : Client PeerID JsCallback}

theorem Sound.reEntrant (h : Sound p tr) : ReEntrant p tr :=
  ⟨h.quiet, congrArg Registry.callbacks h.registry⟩

theorem registry_append (tr es : List (Event JsCallback)) :
    registry (tr ++ es) = (es.filterMap Event.call).foldl .apply (registry tr) := by
  simp [registry]

theorem not_reEntrant_of_panicked (h : .panicked ∈ es) : ¬ ReEntrant p (tr ++ es) := by
  rintro ⟨hquiet, -⟩
  exact Bool.noConfusion (hquiet .panicked (List.mem_append_right tr h))

section Call

variable [ToString PeerID]

/-- What a call does: it acts on the callbacks alone, and no cell refuses a borrow. -/
structure Calls (c : Client PeerID JsCallback) (call : Call JsCallback)
    (c' : Client PeerID JsCallback) (es : List (Event JsCallback)) : Prop where
  borrows : c'.eventCallbacks.callbacks.borrows = c.eventCallbacks.callbacks.borrows
  peers : c'.peerManager = c.peerManager
  registry : c'.registry = c.registry.apply call
  calls : es.filterMap Event.call = [call]
  quiet : ∀ e ∈ es, e.isConflict = false

/-- The map can be changed while nothing borrows it, and the peers can be listed always. -/
theorem calls_call (hpeers : c.peerManager.borrows = 0) {call : Call JsCallback}
    (hcall : c.eventCallbacks.callbacks.borrows = 0 ∨ call = .listPeers) :
    Calls c call (c.call call).1 (c.call call).2 := by
  cases call with
  | onEvent callback =>
      have hfree : c.eventCallbacks.callbacks.borrows = 0 := by simpa using hcall
      have hadd : c.eventCallbacks.add callback =
          ({ callbacks := { c.eventCallbacks.callbacks with
               value := c.eventCallbacks.callbacks.value.insert c.eventCallbacks.nextId callback },
             nextId := c.eventCallbacks.nextId + 1 }, .done c.eventCallbacks.nextId) := by
        simp [JsCallbackManager.add, RefCell.tryWrite_of_eq hfree]
      simp only [Client.call, hadd]
      exact ⟨rfl, rfl, rfl, rfl, by simp [Event.isConflict]⟩
  | removeOnEvent id =>
      have hfree : c.eventCallbacks.callbacks.borrows = 0 := by simpa using hcall
      have hremove : c.eventCallbacks.remove id =
          ({ c.eventCallbacks with callbacks := { c.eventCallbacks.callbacks with
               value := c.eventCallbacks.callbacks.value.erase id } }, .done ()) := by
        simp [JsCallbackManager.remove, RefCell.tryWrite_of_eq hfree]
      simp only [Client.call, hremove]
      exact ⟨rfl, rfl, rfl, rfl, by simp [Event.isConflict]⟩
  | listPeers =>
      have hlist : c.listPeers = some (c.peerManager.value.knownPeerIds.map toString) :=
        RefCell.tryRead_of_nonneg hpeers.ge _
      simp only [Client.call, hlist]
      exact ⟨rfl, rfl, rfl, rfl, by simp [Event.isConflict]⟩

/-- While a notification borrows the map, it can not be changed. -/
theorem panicked_mem_call (hborrowed : c.eventCallbacks.callbacks.borrows ≠ 0)
    {call : Call JsCallback} (hcall : call ≠ .listPeers) : .panicked ∈ (c.call call).2 := by
  cases call with
  | onEvent callback =>
      simp [Client.call, JsCallbackManager.add, RefCell.tryWrite_of_ne hborrowed]
  | removeOnEvent id =>
      simp [Client.call, JsCallbackManager.remove, RefCell.tryWrite_of_ne hborrowed]
  | listPeers => exact absurd rfl hcall

end Call

/-- A step that makes no calls. -/
theorem Sound.silent (h : Sound p tr)
    (hcallbacks : p'.client.eventCallbacks.callbacks.borrows = p'.stack.length)
    (hpeers : p'.client.peerManager.borrows = 0)
    (hregistry : p'.client.registry = p.client.registry) : Sound p' (tr ++ []) := by
  refine ⟨hcallbacks, hpeers, ?_, ?_⟩
  · simpa using h.quiet
  · rw [hregistry, h.registry, List.append_nil]

theorem Sound.call (h : Sound p tr) {call : Call JsCallback}
    (hcalls : Calls p.client call p'.client es) (hstack : p'.stack.length = p.stack.length) :
    Sound p' (tr ++ es) := by
  refine ⟨?_, ?_, ?_, ?_⟩
  · rw [hcalls.borrows, h.callbacks, hstack]
  · rw [hcalls.peers, h.peers]
  · exact List.forall_mem_append.mpr ⟨h.quiet, hcalls.quiet⟩
  · rw [registry_append, hcalls.calls, hcalls.registry, h.registry]
    rfl

theorem Sound.notifyEvent (h : Sound p tr) {order : List Usize}
    (hstep : p.notifyEvent order = (p', es)) : Sound p' (tr ++ es) := by
  have hborrow : p.client.eventCallbacks.callbacks.tryBorrow =
      some { p.client.eventCallbacks.callbacks with borrows := p.stack.length + 1 } := by
    rw [RefCell.tryBorrow_of_nonneg (by rw [h.callbacks]; omega), h.callbacks]
  rw [Page.notifyEvent, JsCallbackManager.borrowCallbacks, hborrow] at hstep
  cases hstep
  exact h.silent (by simp) h.peers rfl

theorem Sound.newPeerDiscovered [DecidableEq PeerID] (h : Sound p tr) {peerId : PeerID}
    {order : List Usize} (hstep : p.newPeerDiscovered peerId order = (p', es)) :
    Sound p' (tr ++ es) := by
  rw [Page.newPeerDiscovered, RefCell.tryWrite_of_eq h.peers] at hstep
  have hadded : Sound { p with client := { p.client with peerManager :=
      { p.client.peerManager with value := p.client.peerManager.value.addKnownPeerId peerId } } }
      (tr ++ []) := h.silent h.callbacks h.peers rfl
  rw [List.append_nil] at hadded
  exact hadded.notifyEvent hstep

section Step

variable [ToString PeerID]

/-- The innermost notification goes on: a callback that changes the map panics. -/
theorem Sound.resume (h : Sound p tr) (hstep : p.resume script = some (p', es)) :
    (KeepsCallbacks p (.resume : Label PeerID JsCallback) → Sound p' (tr ++ es)) ∧
      (¬ KeepsCallbacks p (.resume : Label PeerID JsCallback) → .panicked ∈ es) := by
  unfold Page.resume at hstep
  split at hstep
  case h_1 => cases hstep
  case h_2 callbacks call calls stack hstack =>
      cases hstep
      have hcurrent : KeepsCallbacks p (.resume : Label PeerID JsCallback) ↔
          call = .listPeers := by
        simp [KeepsCallbacks, Page.nextCall, hstack]
      rw [hcurrent]
      constructor
      · intro hlist
        exact h.call (calls_call h.peers (.inr hlist)) (by simp [hstack])
      · intro hchange
        have hborrowed : p.client.eventCallbacks.callbacks.borrows ≠ 0 := by
          rw [h.callbacks, hstack, List.length_cons]
          omega
        exact panicked_mem_call hborrowed hchange
  case h_3 hstack =>
      cases hstep
      refine ⟨fun _ => h.silent ?_ h.peers rfl, fun hnot => absurd ?_ hnot⟩
      · simpa [hstack] using h.callbacks
      · simp [KeepsCallbacks, Page.nextCall, hstack]
  case h_4 hstack =>
      cases hstep
      refine ⟨fun _ => h.silent ?_ h.peers rfl, fun hnot => absurd ?_ hnot⟩
      · simpa [hstack] using h.callbacks
      · simp [KeepsCallbacks, Page.nextCall, hstack]
  case h_5 stack hstack =>
      cases hstep
      refine ⟨fun _ => h.silent ?_ h.peers rfl, fun hnot => absurd ?_ hnot⟩
      · have hborrows := h.callbacks
        rw [hstack, List.length_cons] at hborrows
        simp [JsCallbackManager.dropCallbacks, hborrows]
      · simp [KeepsCallbacks, Page.nextCall, hstack]

variable [DecidableEq PeerID]

theorem Sound.step (h : Sound p tr) {l : Label PeerID JsCallback}
    (hstep : p.step script l = some (p', es)) :
    (KeepsCallbacks p l → Sound p' (tr ++ es)) ∧
      (¬ KeepsCallbacks p l → .panicked ∈ es) := by
  cases l with
  | call call =>
      simp only [Page.step] at hstep
      split at hstep
      case isTrue hempty =>
          cases hstep
          have hfree : p.client.eventCallbacks.callbacks.borrows = 0 := by
            rw [h.callbacks, List.isEmpty_iff.mp hempty]
            rfl
          exact ⟨fun _ => h.call (calls_call h.peers (.inl hfree)) rfl,
            fun hnot => absurd trivial hnot⟩
      case isFalse => cases hstep
  | notifyEvent order =>
      simp only [Page.step] at hstep
      split at hstep
      case isTrue =>
          exact ⟨fun _ => h.notifyEvent (Option.some.inj hstep), fun hnot => absurd trivial hnot⟩
      case isFalse => cases hstep
  | newPeerDiscovered peerId order =>
      simp only [Page.step] at hstep
      split at hstep
      case isTrue =>
          exact ⟨fun _ => h.newPeerDiscovered (Option.some.inj hstep),
            fun hnot => absurd trivial hnot⟩
      case isFalse => cases hstep
  | resume => exact h.resume hstep

theorem sound_init (script : JsCallback → List (Call JsCallback)) :
    Sound (page PeerID script).init [] :=
  ⟨rfl, rfl, by simp, rfl⟩

/-- The client can be called back exactly as long as no callback adds or removes one. -/
theorem reEntrant_iff (script : JsCallback → List (Call JsCallback))
    (ls : List (Label PeerID JsCallback)) :
    (page PeerID script).Always ReEntrant ls ↔ (page PeerID script).StepsMeet KeepsCallbacks ls :=
  Machine.always_iff_stepsMeet (sound_init script)
    (fun _ _ _ _ _ h hkeeps hstep => (h.step hstep).1 hkeeps)
    (fun _ _ h => h.reEntrant)
    (fun _ _ _ _ _ h hnot hstep => not_reEntrant_of_panicked ((h.step hstep).2 hnot)) ls

end Step

/-- A callback that removes itself when it is first invoked. -/
theorem not_reEntrant_oneShot :
    ¬ ∀ (script : Unit → List (Call Unit)) (ls : List (Label String Unit)),
      (page String script).Always ReEntrant ls := by
  intro h
  let script : Unit → List (Call Unit) := fun _ => [.removeOnEvent 0]
  let calls : List (Event Unit) := [.called (.onEvent ()), .registered 0]
  have hexec : ∃ p, (page String script).exec
      [.call (.onEvent ()), .notifyEvent [0], .resume, .resume] =
        some (p, calls ++ [.called (.removeOnEvent 0), .panicked]) := ⟨_, rfl⟩
  obtain ⟨p, hexec⟩ := hexec
  have hentrant := h script _ _ List.prefix_rfl _ _ (Machine.run_of_exec hexec)
  exact not_reEntrant_of_panicked (by simp) hentrant

/-! ## A notification ends -/

section Ends

variable [ToString PeerID]

/-- How many steps the notification takes, if every call returns. -/
def Notification.weight (script : JsCallback → List (Call JsCallback))
    (n : Notification JsCallback) : Nat :=
  (n.callbacks.map fun callback => (script callback).length + 2).sum +
    (n.current.map fun calls => calls.length + 1).getD 0 + 1

def Page.weight (script : JsCallback → List (Call JsCallback)) (p : Page PeerID JsCallback) :
    Nat :=
  (p.stack.map (Notification.weight script)).sum

theorem exists_resume (script : JsCallback → List (Call JsCallback)) (hstack : p.stack ≠ []) :
    ∃ p' es, p.resume script = some (p', es) ∧ p'.weight script < p.weight script := by
  obtain ⟨client, stack⟩ := p
  rcases stack with _ | ⟨⟨callbacks, _ | _ | ⟨call, calls⟩⟩, stack⟩
  case nil => exact absurd rfl hstack
  case cons.none =>
      cases callbacks with
      | nil =>
          refine ⟨_, _, rfl, ?_⟩
          simp [Page.weight, Notification.weight]
      | cons callback callbacks =>
          refine ⟨_, _, rfl, ?_⟩
          simp [Page.weight, Notification.weight]
          omega
  case cons.some.nil =>
      refine ⟨_, _, rfl, ?_⟩
      simp [Page.weight, Notification.weight]
  case cons.some.cons =>
      refine ⟨_, _, rfl, ?_⟩
      simp only [Page.weight, Notification.weight, List.map_cons, List.sum_cons]
      split
      · simp
      · simp

variable [DecidableEq PeerID]

/-- Whatever the callbacks call, the notifications that run come to their end. -/
theorem exists_quiet (script : JsCallback → List (Call JsCallback)) (p : Page PeerID JsCallback) :
    ∃ n p' es, (page PeerID script).execFrom p (List.replicate n .resume) = some (p', es) ∧
      p'.stack = [] := by
  induction hweight : p.weight script using Nat.strong_induction_on generalizing p with
  | _ w ih =>
      by_cases hstack : p.stack = []
      · exact ⟨0, p, [], rfl, hstack⟩
      · obtain ⟨p₁, es₁, hresume, hlt⟩ := exists_resume script hstack
        obtain ⟨n, p', es, hexec, hquiet⟩ := ih _ (hweight ▸ hlt) p₁ rfl
        refine ⟨n + 1, p', es₁ ++ es, ?_, hquiet⟩
        have hstep : (page PeerID script).step p .resume = some (p₁, es₁) := hresume
        simp [List.replicate_succ, Machine.execFrom, hstep, hexec]

end Ends

end SfRs.Wasm.Callbacks
