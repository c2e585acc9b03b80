import SfRs.Lib.Machine
/-!
# Asynchronous functions on one thread

The tasks of a single-threaded executor share a state.  A task that is polled runs until it
is done, or until it awaits something that has yet to happen: only there can another task
run.  An `await` of a call that awaits nothing is no such point.

What the tasks do to the state is described by a relation on one stretch of a task.  The
rules below give it for the functions that a task is composed of, and for all interleavings.
-/

namespace SfRs.Lib

/-- A computation of an `α` that shares the state `σ` and emits events `ε`.  Where it
suspends, it goes on with an `ι`. -/
inductive Async (σ ι ε : Type) (α : Type) where
  | ready (a : α)
  | access (f : σ → σ) (next : σ → Async σ ι ε α)
  | emit (e : ε) (next : Async σ ι ε α)
  | suspend (next : ι → Async σ ι ε α)

/-- A stretch of a task: what it leaves, what it emits, and its result or what remains. -/
structure Polled (σ ι ε : Type) (α : Type) where
  state : σ
  events : List ε
  rest : α ⊕ (ι → Async σ ι ε α)

namespace Async

variable {σ ι ε α β : Type}

protected def bind : Async σ ι ε α → (α → Async σ ι ε β) → Async σ ι ε β
  | ready a, k => k a
  | access f next, k => access f fun s => (next s).bind k
  | emit e next, k => emit e (next.bind k)
  | suspend next, k => suspend fun i => (next i).bind k

instance : Monad (Async σ ι ε) where
  pure := ready
  bind := Async.bind

def get : Async σ ι ε σ := access id ready

def modify (f : σ → σ) : Async σ ι ε Unit := access f fun _ => ready ()

def tell (e : ε) : Async σ ι ε Unit := emit e (ready ())

def await : Async σ ι ε ι := suspend ready

def poll : Async σ ι ε α → σ → Polled σ ι ε α
  | ready a, s => ⟨s, [], .inl a⟩
  | access f next, s => (next s).poll (f s)
  | emit e next, s => { (next.poll s) with events := e :: (next.poll s).events }
  | suspend next, s => ⟨s, [], .inr next⟩

/-- The result of a stretch goes to the next function. -/
def continueWith (r : Polled σ ι ε α) (k : α → Async σ ι ε β) : Polled σ ι ε β :=
  match r.rest with
  | .inl a => { (k a).poll r.state with events := r.events ++ ((k a).poll r.state).events }
  | .inr next => ⟨r.state, r.events, .inr fun i => (next i).bind k⟩

variable {s : σ} {x : Async σ ι ε α} {k : α → Async σ ι ε β}

@[simp] theorem poll_pure (a : α) (s : σ) : (pure a : Async σ ι ε α).poll s = ⟨s, [], .inl a⟩ := rfl

theorem poll_bind (x : Async σ ι ε α) (k : α → Async σ ι ε β) (s : σ) :
    (x >>= k).poll s = continueWith (x.poll s) k := by
  change (x.bind k).poll s = _
  induction x generalizing s with
  | ready a => rfl
  | access f next ih => exact ih s (f s)
  | emit e next ih =>
      simp only [Async.bind, poll, ih]
      simp only [continueWith]
      cases (next.poll s).rest <;> rfl
  | suspend next => rfl

/-- The caller of a function that is done at once goes on in the same stretch. -/
theorem poll_bind_done {s' : σ} {es : List ε} {a : α} (h : x.poll s = ⟨s', es, .inl a⟩) :
    (x >>= k).poll s =
      { (k a).poll s' with events := es ++ ((k a).poll s').events } := by
  rw [poll_bind, h, continueWith]

end Async

/-! ## Stretches -/

section Trail

/-- `R`, any number of times. -/
inductive Trail {σ ε : Type} (R : σ → List ε → σ → Prop) : σ → List ε → σ → Prop
  | nil {s} : Trail R s [] s
  | snoc {s es s' es' s''} : Trail R s es s' → R s' es' s'' → Trail R s (es ++ es') s''

variable {σ ε : Type} {R : σ → List ε → σ → Prop} {s s' s'' : σ} {es es' : List ε}

theorem Trail.single (h : R s es s') : Trail R s es s' := Trail.nil.snoc h

theorem Trail.trans (h : Trail R s es s') (h' : Trail R s' es' s'') :
    Trail R s (es ++ es') s'' := by
  induction h' with
  | nil => simpa using h
  | snoc _ hr ih =>
      rw [← List.append_assoc]
      exact ih.snoc hr

/-- What every stretch keeps, all of them keep. -/
theorem Trail.invariant {Inv : σ → List ε → Prop} {tr : List ε}
    (hstep : ∀ s tr es s', Inv s tr → R s es s' → Inv s' (tr ++ es)) (hinv : Inv s tr)
    (h : Trail R s es s') : Inv s' (tr ++ es) := by
  induction h with
  | nil => simpa using hinv
  | snoc _ hr ih =>
      rw [← List.append_assoc]
      exact hstep _ _ _ _ ih hr

end Trail

namespace Async

variable {σ ι ε α β E : Type} {R : σ → List ε → σ → Prop}

/-- Wherever the task is polled, it does a trail of `R` until it suspends. -/
inductive Follows (R : σ → List ε → σ → Prop) : Async σ ι ε α → Prop
  | intro {x} : (∀ s, Trail R s (x.poll s).events (x.poll s).state) →
      (∀ s next, (x.poll s).rest = .inr next → ∀ i, Follows R (next i)) → Follows R x

theorem Follows.trail {x : Async σ ι ε α} (h : x.Follows R) (s : σ) :
    Trail R s (x.poll s).events (x.poll s).state := by
  cases h with
  | intro htrail _ => exact htrail s

theorem Follows.next {x : Async σ ι ε α} (h : x.Follows R) {s : σ} {next : ι → Async σ ι ε α}
    (hrest : (x.poll s).rest = .inr next) (i : ι) : (next i).Follows R := by
  cases h with
  | intro _ hnext => exact hnext s next hrest i

/-- A function that never suspends does one stretch. -/
theorem follows_of_poll {x : Async σ ι ε α}
    (h : ∀ s, ∃ s' es a, x.poll s = ⟨s', es, .inl a⟩ ∧ Trail R s es s') : x.Follows R := by
  refine .intro (fun s => ?_) (fun s next hrest => ?_)
  · obtain ⟨s', es, a, hpoll, htrail⟩ := h s
    rw [hpoll]
    exact htrail
  · obtain ⟨s', es, a, hpoll, -⟩ := h s
    simp [hpoll] at hrest

theorem follows_pure (a : α) : (pure a : Async σ ι ε α).Follows R :=
  follows_of_poll fun s => ⟨s, [], a, rfl, .nil⟩

theorem follows_get : (get : Async σ ι ε σ).Follows R :=
  follows_of_poll fun s => ⟨s, [], s, rfl, .nil⟩

theorem follows_modify {f : σ → σ} (h : ∀ s, R s [] (f s)) :
    (modify f : Async σ ι ε Unit).Follows R :=
  follows_of_poll fun s => ⟨f s, [], (), rfl, .single (h s)⟩

theorem follows_tell {e : ε} (h : ∀ s, R s [e] s) : (tell e : Async σ ι ε Unit).Follows R :=
  follows_of_poll fun s => ⟨s, [e], (), rfl, .single (h s)⟩

theorem follows_await : (await : Async σ ι ε ι).Follows R := by
  refine .intro (fun s => .nil) (fun s next hrest i => ?_)
  cases hrest
  exact follows_pure i

theorem Follows.bind {x : Async σ ι ε α} {k : α → Async σ ι ε β} (hx : x.Follows R)
    (hk : ∀ a, (k a).Follows R) : (x >>= k).Follows R := by
  induction hx with
  | @intro x htrail hnext ih =>
      refine .intro (fun s => ?_) (fun s next hrest i => ?_)
      · rw [poll_bind, continueWith]
        split
        case h_1 a _ => exact (htrail s).trans ((hk a).trail _)
        case h_2 => exact htrail s
      · rw [poll_bind, continueWith] at hrest
        split at hrest
        case h_1 a _ => exact (hk a).next hrest i
        case h_2 next' hrest' =>
            cases hrest
            exact ih s next' hrest' i

/-! ## Functions that can fail -/

theorem Follows.tryBind {x : ExceptT E (Async σ ι ε) α} {k : α → ExceptT E (Async σ ι ε) β}
    (hx : x.run.Follows R) (hk : ∀ a, (k a).run.Follows R) : (x >>= k).run.Follows R := by
  rw [ExceptT.run_bind]
  refine hx.bind fun r => ?_
  cases r with
  | ok a => exact hk a
  | error e => exact follows_pure _

section Done

variable {x : ExceptT E (Async σ ι ε) α} {k : α → ExceptT E (Async σ ι ε) β} {s s' s'' : σ}
  {es es' : List ε}

theorem poll_tryBind_ok {a : α} {r : Except E β} (hx : x.run.poll s = ⟨s', es, .inl (.ok a)⟩)
    (hk : (k a).run.poll s' = ⟨s'', es', .inl r⟩) :
    (x >>= k).run.poll s = ⟨s'', es ++ es', .inl r⟩ := by
  rw [ExceptT.run_bind, poll_bind_done hx]
  simp only [hk]

/-- The first error is the result. -/
theorem poll_tryBind_error {e : E} (hx : x.run.poll s = ⟨s', es, .inl (.error e)⟩) :
    (x >>= k).run.poll s = ⟨s', es, .inl (.error e)⟩ := by
  rw [ExceptT.run_bind, poll_bind_done hx]
  simp

end Done

theorem follows_lift {x : Async σ ι ε α} (h : x.Follows R) :
    (monadLift x : ExceptT E (Async σ ι ε) α).run.Follows R :=
  h.bind fun a => follows_pure (Except.ok a)

theorem follows_throw (e : E) : (throw e : ExceptT E (Async σ ι ε) α).run.Follows R :=
  follows_pure (Except.error e)

theorem follows_return (a : α) : (pure a : ExceptT E (Async σ ι ε) α).run.Follows R :=
  follows_pure (Except.ok a)

end Async

/-! ## The executor -/

/-- The shared state, and the suspended tasks. -/
structure Executor (σ ι ε : Type) where
  state : σ
  waiting : List (ι → Async σ ι ε Unit)

/-- The executor polls a new task, or one whose promise has settled. -/
inductive Wake (τ ι : Type) where
  | spawn (task : τ)
  | wake (task : Nat) (value : ι)

namespace Executor

variable {σ ι ε τ : Type}

def poll (x : Executor σ ι ε) (task : Async σ ι ε Unit) : Executor σ ι ε × List ε :=
  let r := task.poll x.state
  (⟨r.state, x.waiting ++ r.rest.getRight?.toList⟩, r.events)

def step (program : τ → Async σ ι ε Unit) (x : Executor σ ι ε) :
    Wake τ ι → Option (Executor σ ι ε × List ε)
  | .spawn task => some (x.poll (program task))
  | .wake i value =>
      x.waiting[i]?.map fun next => { x with waiting := x.waiting.eraseIdx i }.poll (next value)

end Executor

/-- An executor of tasks that run a program. -/
def executor {σ ι ε τ : Type} (init : σ) (program : τ → Async σ ι ε Unit) :
    Machine (Executor σ ι ε) (Wake τ ι) ε where
  init := ⟨init, []⟩
  step := Executor.step program

namespace Executor

variable {σ ι ε τ : Type} {R : σ → List ε → σ → Prop} {init : σ}
  {program : τ → Async σ ι ε Unit} {x x' : Executor σ ι ε} {es tr tr' : List ε}

/-- Every suspended task follows `R` from where it stands. -/
def Follows (R : σ → List ε → σ → Prop) (x : Executor σ ι ε) : Prop :=
  ∀ next ∈ x.waiting, ∀ i, (next i).Follows R

theorem Follows.poll (h : x.Follows R) {task : Async σ ι ε Unit} (htask : task.Follows R)
    (hpoll : x.poll task = (x', es)) : x'.Follows R ∧ Trail R x.state es x'.state := by
  cases hpoll
  refine ⟨?_, htask.trail x.state⟩
  intro next hmem i
  rcases List.mem_append.mp hmem with hold | hnew
  · exact h next hold i
  · rw [Option.mem_toList, Sum.getRight?_eq_some_iff] at hnew
    exact htask.next hnew i

theorem Follows.step (hprogram : ∀ task, (program task).Follows R) (h : x.Follows R)
    {l : Wake τ ι} (hstep : x.step program l = some (x', es)) :
    x'.Follows R ∧ Trail R x.state es x'.state := by
  cases l with
  | spawn task => exact h.poll (hprogram task) (Option.some.inj hstep)
  | wake i value =>
      simp only [Executor.step, Option.map_eq_some_iff] at hstep
      obtain ⟨next, hnext, hpoll⟩ := hstep
      have hrest : ({ x with waiting := x.waiting.eraseIdx i } : Executor σ ι ε).Follows R :=
        fun k hk => h k (List.mem_of_mem_eraseIdx hk)
      exact hrest.poll (h next (List.mem_of_getElem? hnext) value) hpoll

/-- Whatever the interleaving, the tasks do a trail of `R`. -/
theorem trail_of_run (hprogram : ∀ task, (program task).Follows R) {ls : List (Wake τ ι)}
    (h : (executor init program).Run ls x tr) : x.Follows R ∧ Trail R init tr x.state := by
  induction h with
  | nil => exact ⟨fun _ hmem => absurd hmem (by simp [executor]), .nil⟩
  | snoc _ hstep ih =>
      obtain ⟨hfollows, htrail⟩ := ih
      obtain ⟨hfollows', hstretch⟩ := hfollows.step hprogram hstep
      exact ⟨hfollows', htrail.trans hstretch⟩

/-- The trail between two points of a run. -/
theorem trail_of_append (hprogram : ∀ task, (program task).Follows R)
    {ls ks : List (Wake τ ι)} (h : (executor init program).Run ls x tr)
    (h' : (executor init program).Run (ls ++ ks) x' tr') :
    ∃ es, tr' = tr ++ es ∧ Trail R x.state es x'.state := by
  induction ks using List.reverseRecOn generalizing x' tr' with
  | nil =>
      obtain ⟨rfl, rfl⟩ := h.unique (by simpa using h')
      exact ⟨[], by simp, .nil⟩
  | append_singleton ks l ih =>
      rw [← List.append_assoc] at h'
      obtain ⟨y, tr₁, es₁, hrun, hstep, rfl⟩ := h'.snoc_inv
      obtain ⟨es, rfl, htrail⟩ := ih hrun
      have hfollows := (trail_of_run hprogram hrun).1
      obtain ⟨-, hstretch⟩ := hfollows.step hprogram hstep
      exact ⟨es ++ es₁, by simp, htrail.trans hstretch⟩

end Executor

end SfRs.Lib
