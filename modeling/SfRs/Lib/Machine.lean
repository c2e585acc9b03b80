import Mathlib.Data.List.Infix
import Mathlib.Data.List.Basic
/-!
# Machines and their runs

A `Machine` is an initial state with an executable partial step that is driven
by labels and reports events.  Everything that is nondeterministic in a modelled
program (the scheduler, the environment, the values a peer sends) is chosen by
the labels, so a run is a list of labels and a property of all interleavings is
a property of all lists.

Safety is proved with `always_of_invariant`.  When the program only keeps a
property as long as its steps meet a side condition, `always_iff_stepsMeet`
gives the exact statement from one preservation and one violation lemma.
-/

namespace SfRs.Lib

/-- An initial state and a partial step: `step s l` is `none` when `l` is not
enabled in `s`, and otherwise the next state with the events the step emits. -/
structure Machine (S L E : Type*) where
  init : S
  step : S → L → Option (S × List E)

namespace Machine

variable {S L E : Type*} (M : Machine S L E)

/-- `M.Run ls s tr`: performing `ls` in order leads from the initial state to `s`
and emits `tr`. -/
inductive Run : List L → S → List E → Prop
  | nil : Run [] M.init []
  | snoc {ls s tr l s' es} : Run ls s tr → M.step s l = some (s', es) →
      Run (ls ++ [l]) s' (tr ++ es)

/-- Execute `ls` from `s`, collecting the events. -/
def execFrom : S → List L → Option (S × List E)
  | s, [] => some (s, [])
  | s, l :: ls =>
      (M.step s l).bind fun r =>
        (execFrom r.1 ls).map fun q => (q.1, r.2 ++ q.2)

/-- Execute `ls` from the initial state. -/
def exec (ls : List L) : Option (S × List E) := M.execFrom M.init ls

variable {M}

theorem Run.append_execFrom {ls ks : List L} {s t : S} {tr es : List E}
    (h : M.Run ls s tr) (hk : M.execFrom s ks = some (t, es)) :
    M.Run (ls ++ ks) t (tr ++ es) := by
  induction ks generalizing ls s tr es with
  | nil =>
      simp only [execFrom, Option.some.injEq, Prod.mk.injEq] at hk
      obtain ⟨rfl, rfl⟩ := hk
      simpa using h
  | cons l ks ih =>
      simp only [execFrom, Option.bind_eq_some_iff, Option.map_eq_some_iff] at hk
      obtain ⟨⟨s₁, es₁⟩, hstep, ⟨s₂, es₂⟩, hrest, hpair⟩ := hk
      simp only [Prod.mk.injEq] at hpair
      obtain ⟨rfl, rfl⟩ := hpair
      have hrun := ih (h.snoc hstep) hrest
      simpa using hrun

/-- An execution that computes is a run. -/
theorem run_of_exec {ls : List L} {s : S} {tr : List E}
    (h : M.exec ls = some (s, tr)) : M.Run ls s tr := by
  simpa using Run.nil.append_execFrom h

theorem execFrom_concat {ls : List L} {l : L} {s t : S} {es : List E}
    {r : S × List E} (hls : M.execFrom s ls = some (t, es))
    (hl : M.step t l = some r) :
    M.execFrom s (ls ++ [l]) = some (r.1, es ++ r.2) := by
  induction ls generalizing s es with
  | nil =>
      simp only [execFrom, Option.some.injEq, Prod.mk.injEq] at hls
      obtain ⟨rfl, rfl⟩ := hls
      simp [execFrom, hl]
  | cons k ls ih =>
      simp only [execFrom, Option.bind_eq_some_iff, Option.map_eq_some_iff] at hls
      obtain ⟨⟨s₁, es₁⟩, hstep, ⟨s₂, es₂⟩, hrest, hpair⟩ := hls
      simp only [Prod.mk.injEq] at hpair
      obtain ⟨rfl, rfl⟩ := hpair
      simp [execFrom, hstep, ih hrest]

theorem Run.exec_eq {ls : List L} {s : S} {tr : List E} (h : M.Run ls s tr) :
    M.exec ls = some (s, tr) := by
  induction h with
  | nil => rfl
  | snoc _ hstep ih => exact execFrom_concat ih hstep

/-- The labels of a run determine where it ends and what it emits. -/
theorem Run.unique {ls : List L} {s t : S} {tr tr' : List E}
    (h : M.Run ls s tr) (h' : M.Run ls t tr') : s = t ∧ tr = tr' := by
  have heq : some (s, tr) = some (t, tr') := h.exec_eq.symm.trans h'.exec_eq
  simpa using heq

theorem Run.snoc_inv {ls : List L} {l : L} {s' : S} {tr' : List E}
    (h : M.Run (ls ++ [l]) s' tr') :
    ∃ s tr es, M.Run ls s tr ∧ M.step s l = some (s', es) ∧ tr' = tr ++ es := by
  generalize hks : ls ++ [l] = ks at h
  cases h with
  | nil => simp at hks
  | snoc hrun hstep =>
      obtain ⟨rfl, hl⟩ := List.append_inj' hks rfl
      obtain rfl : l = _ := by simpa using hl
      exact ⟨_, _, _, hrun, hstep, rfl⟩

/-- Every prefix of a run is a run. -/
theorem Run.exists_prefix {ls pre : List L} {s : S} {tr : List E}
    (h : M.Run ls s tr) (hpre : pre <+: ls) :
    ∃ s₀ tr₀, M.Run pre s₀ tr₀ ∧ tr₀ <+: tr := by
  induction h generalizing pre with
  | nil =>
      obtain rfl : pre = [] := List.prefix_nil.mp hpre
      exact ⟨_, _, .nil, List.prefix_rfl⟩
  | @snoc ls s tr l s' es hrun hstep ih =>
      rcases List.prefix_concat_iff.mp hpre with rfl | hpre'
      · exact ⟨_, _, hrun.snoc hstep, List.prefix_rfl⟩
      · obtain ⟨s₀, tr₀, hrun₀, htr₀⟩ := ih hpre'
        exact ⟨s₀, tr₀, hrun₀, htr₀.trans (List.prefix_append _ _)⟩

/-! ## Invariants -/

variable (M)

/-- `P` holds of the state and the events so far at every point of the run `ls`. -/
def Always (P : S → List E → Prop) (ls : List L) : Prop :=
  ∀ pre, pre <+: ls → ∀ s tr, M.Run pre s tr → P s tr

/-- Every step of the run `ls` meets `ok`, a condition on the state it is taken in
and on its label. -/
def StepsMeet (ok : S → L → Prop) (ls : List L) : Prop :=
  ∀ pre l, pre ++ [l] <+: ls → ∀ s tr s' es, M.Run pre s tr →
    M.step s l = some (s', es) → ok s l

variable {M}

theorem stepsMeet_nil {ok : S → L → Prop} : M.StepsMeet ok [] :=
  fun pre l hpre => by simp at hpre

theorem stepsMeet_true (ls : List L) : M.StepsMeet (fun _ _ => True) ls :=
  fun _ _ _ _ _ _ _ _ _ => trivial

theorem StepsMeet.of_concat {ok : S → L → Prop} {ls : List L} {l : L}
    (h : M.StepsMeet ok (ls ++ [l])) : M.StepsMeet ok ls :=
  fun pre k hpre => h pre k (hpre.trans (List.prefix_append _ _))

/-- A property kept by every step that meets `ok` holds at the end of every run
whose steps meet `ok`. -/
theorem invariant_of_stepsMeet {ok : S → L → Prop} {Inv : S → List E → Prop}
    (hinit : Inv M.init [])
    (hstep : ∀ s tr l s' es, Inv s tr → ok s l → M.step s l = some (s', es) →
      Inv s' (tr ++ es))
    {ls : List L} (hok : M.StepsMeet ok ls) {s : S} {tr : List E}
    (h : M.Run ls s tr) : Inv s tr := by
  induction h with
  | nil => exact hinit
  | snoc hrun hl ih =>
      have hmeets := hok _ _ List.prefix_rfl _ _ _ _ hrun hl
      exact hstep _ _ _ _ _ (ih hok.of_concat) hmeets hl

/-- A property kept by every step holds at the end of every run. -/
theorem invariant {Inv : S → List E → Prop} (hinit : Inv M.init [])
    (hstep : ∀ s tr l s' es, Inv s tr → M.step s l = some (s', es) →
      Inv s' (tr ++ es))
    {ls : List L} {s : S} {tr : List E} (h : M.Run ls s tr) : Inv s tr := by
  have hok : M.StepsMeet (fun _ _ => True) ls := stepsMeet_true ls
  exact invariant_of_stepsMeet hinit
    (fun s tr l s' es hinv _ hl => hstep s tr l s' es hinv hl) hok h

theorem StepsMeet.of_prefix {ok : S → L → Prop} {pre ls : List L}
    (h : M.StepsMeet ok ls) (hpre : pre <+: ls) : M.StepsMeet ok pre :=
  fun p l hp => h p l (hp.trans hpre)

theorem always_of_invariant {ok : S → L → Prop} {Inv P : S → List E → Prop}
    (hinit : Inv M.init [])
    (hstep : ∀ s tr l s' es, Inv s tr → ok s l → M.step s l = some (s', es) →
      Inv s' (tr ++ es))
    (hP : ∀ s tr, Inv s tr → P s tr) {ls : List L} (hok : M.StepsMeet ok ls) :
    M.Always P ls :=
  fun _ hpre s tr hrun =>
    hP s tr (invariant_of_stepsMeet hinit hstep (hok.of_prefix hpre) hrun)

variable (M) in
/-- `StepsMeet`, for a condition that reads the events so far as well. -/
def StepsMeetAfter (ok : S → List E → L → Prop) (ls : List L) : Prop :=
  ∀ pre l, pre ++ [l] <+: ls → ∀ s tr s' es, M.Run pre s tr →
    M.step s l = some (s', es) → ok s tr l

theorem always_of_stepsMeetAfter {ok : S → List E → L → Prop} {Inv P : S → List E → Prop}
    (hinit : Inv M.init [])
    (hstep : ∀ s tr l s' es, Inv s tr → ok s tr l → M.step s l = some (s', es) →
      Inv s' (tr ++ es))
    (hP : ∀ s tr, Inv s tr → P s tr) {ls : List L} (hok : M.StepsMeetAfter ok ls) :
    M.Always P ls := by
  intro pre hpre s tr hrun
  refine hP s tr ?_
  induction hrun with
  | nil => exact hinit
  | @snoc pre s tr l s' es hrun hl ih =>
      have hinv := ih ((List.prefix_append pre [l]).trans hpre)
      exact hstep s tr l s' es hinv (hok pre l hpre s tr s' es hrun hl) hl

/-- When the steps that meet `ok` keep an invariant that gives `P`, and a step that
does not meet `ok` breaks `P` at once, the runs that always have `P` are exactly
those whose steps all meet `ok`. -/
theorem always_iff_stepsMeet {ok : S → L → Prop} {Inv P : S → List E → Prop}
    (hinit : Inv M.init [])
    (hstep : ∀ s tr l s' es, Inv s tr → ok s l → M.step s l = some (s', es) →
      Inv s' (tr ++ es))
    (hP : ∀ s tr, Inv s tr → P s tr)
    (hbreak : ∀ s tr l s' es, Inv s tr → ¬ ok s l → M.step s l = some (s', es) →
      ¬ P s' (tr ++ es))
    (ls : List L) : M.Always P ls ↔ M.StepsMeet ok ls := by
  refine ⟨fun halways => ?_, always_of_invariant hinit hstep hP⟩
  -- the first step that misses `ok` is taken in a state where `Inv` still holds
  have hmeets : ∀ n pre l, pre.length = n → pre ++ [l] <+: ls →
      ∀ s tr s' es, M.Run pre s tr → M.step s l = some (s', es) → ok s l := by
    intro n
    induction n using Nat.strong_induction_on with
    | _ n ih =>
        intro pre l hlen hpre s tr s' es hrun hl
        have hokpre : M.StepsMeet ok pre := by
          intro p k hp
          have hshort : p.length < n := by
            have := hp.length_le
            simp only [List.length_append, List.length_singleton] at this
            omega
          exact ih p.length hshort p k rfl
            (hp.trans ((List.prefix_append _ _).trans hpre))
        have hinv := invariant_of_stepsMeet hinit hstep hokpre hrun
        by_contra hnot
        exact hbreak _ _ _ _ _ hinv hnot hl (halways _ hpre _ _ (hrun.snoc hl))
  exact fun pre l hpre => hmeets pre.length pre l rfl hpre

theorem stepsMeet_concat {ok : S → L → Prop} {ls : List L} {l : L} {s s' : S}
    {tr es : List E} (hrun : M.Run ls s tr) (hl : M.step s l = some (s', es)) :
    M.StepsMeet ok (ls ++ [l]) ↔ M.StepsMeet ok ls ∧ ok s l := by
  constructor
  · exact fun h => ⟨h.of_concat, h ls l List.prefix_rfl s tr s' es hrun hl⟩
  · rintro ⟨hls, hok⟩ pre k hpre s₀ tr₀ s₁ es₁ hrun₀ hk
    rcases List.prefix_concat_iff.mp hpre with heq | hpre'
    · obtain ⟨rfl, hkl⟩ := List.append_inj' heq rfl
      obtain rfl : k = l := by simpa using hkl
      obtain ⟨rfl, -⟩ := hrun.unique hrun₀
      exact hok
    · exact hls pre k hpre' s₀ tr₀ s₁ es₁ hrun₀ hk

/-- When a step from `Inv` leads to `Inv` if it meets `ok` and to `Doom` if not, and
`Doom` lasts, the end of a run tells whether its steps met `ok`. -/
theorem Run.decides {ok : S → L → Prop} {Inv Doom : S → List E → Prop}
    (hinit : Inv M.init [])
    (hstep : ∀ s tr l s' es, Inv s tr → M.step s l = some (s', es) →
      (ok s l → Inv s' (tr ++ es)) ∧ (¬ ok s l → Doom s' (tr ++ es)))
    (hdoom : ∀ s tr l s' es, Doom s tr → M.step s l = some (s', es) → Doom s' (tr ++ es))
    {ls : List L} {s : S} {tr : List E} (h : M.Run ls s tr) :
    M.StepsMeet ok ls ∧ Inv s tr ∨ ¬ M.StepsMeet ok ls ∧ Doom s tr := by
  induction h with
  | nil => exact Or.inl ⟨stepsMeet_nil, hinit⟩
  | @snoc ls s tr l s' es hrun hl ih =>
      rw [stepsMeet_concat hrun hl]
      rcases ih with ⟨hmeets, hinv⟩ | ⟨hmisses, hd⟩
      · obtain ⟨hkeep, hbreak⟩ := hstep s tr l s' es hinv hl
        by_cases hok : ok s l
        · exact Or.inl ⟨⟨hmeets, hok⟩, hkeep hok⟩
        · exact Or.inr ⟨fun h => hok h.2, hbreak hok⟩
      · exact Or.inr ⟨fun h => hmisses h.1, hdoom s tr l s' es hd hl⟩

theorem stepsMeetAfter_concat {ok : S → List E → L → Prop} {ls : List L} {l : L} {s s' : S}
    {tr es : List E} (hrun : M.Run ls s tr) (hl : M.step s l = some (s', es)) :
    M.StepsMeetAfter ok (ls ++ [l]) ↔ M.StepsMeetAfter ok ls ∧ ok s tr l := by
  constructor
  · intro h
    exact ⟨fun pre k hpre => h pre k (hpre.trans (List.prefix_append _ _)),
      h ls l List.prefix_rfl s tr s' es hrun hl⟩
  · rintro ⟨hls, hok⟩ pre k hpre s₀ tr₀ s₁ es₁ hrun₀ hk
    rcases List.prefix_concat_iff.mp hpre with heq | hpre'
    · obtain ⟨rfl, hkl⟩ := List.append_inj' heq rfl
      obtain rfl : k = l := by simpa using hkl
      obtain ⟨rfl, rfl⟩ := hrun.unique hrun₀
      exact hok
    · exact hls pre k hpre' s₀ tr₀ s₁ es₁ hrun₀ hk

/-- `Always`, unfolded along the labels still to be performed. -/
def AlwaysFrom (M : Machine S L E) (P : S → List E → Prop) :
    S → List E → List L → Prop
  | s, tr, [] => P s tr
  | s, tr, l :: ls =>
      P s tr ∧ ∀ s' es, M.step s l = some (s', es) → AlwaysFrom M P s' (tr ++ es) ls

theorem AlwaysFrom.head {P : S → List E → Prop} {s : S} {tr : List E} {ls : List L}
    (h : M.AlwaysFrom P s tr ls) : P s tr := by
  cases ls with
  | nil => exact h
  | cons l ls => exact h.1

theorem alwaysFrom_cons {P : S → List E → Prop} {s s' : S} {tr es : List E} {l : L}
    {ls : List L} (hstep : M.step s l = some (s', es)) :
    M.AlwaysFrom P s tr (l :: ls) ↔ P s tr ∧ M.AlwaysFrom P s' (tr ++ es) ls := by
  simp [AlwaysFrom, hstep]

theorem isSome_execFrom_cons {s : S} {l : L} {ls : List L}
    (h : (M.execFrom s (l :: ls)).isSome) :
    ∃ s' es, M.step s l = some (s', es) ∧ (M.execFrom s' ls).isSome := by
  simp only [execFrom, Option.isSome_bind, Option.any_eq_true, Option.isSome_map] at h
  obtain ⟨⟨s', es⟩, hstep, hrest⟩ := h
  exact ⟨s', es, hstep, hrest⟩

theorem Run.alwaysFrom_iff {P : S → List E → Prop} {ks : List L} {s : S} {tr : List E}
    (h : M.Run ks s tr) (ls : List L) :
    M.AlwaysFrom P s tr ls ↔
      ∀ pre, pre <+: ls → ∀ s' tr', M.Run (ks ++ pre) s' tr' → P s' tr' := by
  induction ls generalizing ks s tr with
  | nil =>
      constructor
      · intro hP pre hpre s' tr' hrun
        obtain rfl : pre = [] := List.prefix_nil.mp hpre
        obtain ⟨rfl, rfl⟩ := h.unique (by simpa using hrun)
        exact hP
      · exact fun hall => hall [] List.prefix_rfl s tr (by simpa using h)
  | cons l ls ih =>
      constructor
      · rintro ⟨hP, hnext⟩ pre hpre s' tr' hrun
        rcases pre with _ | ⟨k, pre⟩
        · obtain ⟨rfl, rfl⟩ := h.unique (by simpa using hrun)
          exact hP
        · obtain ⟨rfl, hpre'⟩ := List.cons_prefix_cons.mp hpre
          rw [List.append_cons] at hrun
          obtain ⟨s₁, tr₁, hrun₁, -⟩ := hrun.exists_prefix (List.prefix_append _ pre)
          obtain ⟨s₀, tr₀, es, hrun₀, hstep, rfl⟩ := hrun₁.snoc_inv
          obtain ⟨rfl, rfl⟩ := h.unique hrun₀
          exact (ih hrun₁).mp (hnext _ _ hstep) pre hpre' s' tr' hrun
      · intro hall
        refine ⟨hall [] List.nil_prefix s tr (by simpa using h), fun s₁ es hstep => ?_⟩
        refine (ih (h.snoc hstep)).mpr fun pre hpre s' tr' hrun => ?_
        exact hall (l :: pre) (List.cons_prefix_cons.mpr ⟨rfl, hpre⟩) s' tr' (by simpa using hrun)

theorem always_iff_alwaysFrom {P : S → List E → Prop} {ls : List L} :
    M.Always P ls ↔ M.AlwaysFrom P M.init [] ls := by
  rw [Run.nil.alwaysFrom_iff]
  simp only [List.nil_append]
  rfl

/-! ## Maximal runs -/

variable (M) in
/-- No label is enabled in `s`. -/
def Stuck (s : S) : Prop := ∀ l, M.step s l = none

/-- When every step decreases `μ`, each run can be continued until it is stuck.  It can
be continued with labels in `ok`, when these are enabled wherever some label is. -/
theorem Run.exists_stuck (μ : S → Nat) (ok : L → Prop)
    (hμ : ∀ s l s' es, M.step s l = some (s', es) → μ s' < μ s)
    (hok : ∀ s l, M.step s l ≠ none → ∃ l', ok l' ∧ M.step s l' ≠ none)
    {ls : List L} {s : S} {tr : List E} (h : M.Run ls s tr) :
    ∃ ks t es, (∀ k ∈ ks, ok k) ∧ M.Run (ls ++ ks) t (tr ++ es) ∧ M.Stuck t := by
  induction hn : μ s using Nat.strong_induction_on generalizing ls s tr with
  | _ n ih =>
      subst hn
      by_cases hstuck : M.Stuck s
      · exact ⟨[], s, [], by simp, by simpa using h, hstuck⟩
      · simp only [Stuck, not_forall] at hstuck
        obtain ⟨l, hl⟩ := hstuck
        obtain ⟨k, hk, hstep⟩ := hok s l hl
        obtain ⟨⟨s', es⟩, hstep⟩ := Option.ne_none_iff_exists'.mp hstep
        obtain ⟨ks, t, es', hks, hrun, ht⟩ := ih _ (hμ _ _ _ _ hstep) (h.snoc hstep) rfl
        refine ⟨k :: ks, t, es ++ es', ?_, by simpa using hrun, ht⟩
        simpa using ⟨hk, hks⟩

/-! ## Ways on -/

variable (M) in
/-- Some labels in `ok` lead from `s` to `t`, and emit `es`. -/
def Leads (ok : L → Prop) (s t : S) (es : List E) : Prop :=
  ∃ ls, (∀ l ∈ ls, ok l) ∧ M.execFrom s ls = some (t, es)

theorem Leads.refl {ok : L → Prop} (s : S) : M.Leads ok s s [] := ⟨[], by simp, rfl⟩

theorem leads_step {ok : L → Prop} {s t : S} {l : L} {es : List E} (hl : ok l)
    (hstep : M.step s l = some (t, es)) : M.Leads ok s t es :=
  ⟨[l], by simpa using hl, by simp [execFrom, hstep]⟩

theorem execFrom_append {ls ks : List L} {s t u : S} {es es' : List E}
    (hls : M.execFrom s ls = some (t, es)) (hks : M.execFrom t ks = some (u, es')) :
    M.execFrom s (ls ++ ks) = some (u, es ++ es') := by
  induction ls generalizing s es with
  | nil =>
      simp only [execFrom, Option.some.injEq, Prod.mk.injEq] at hls
      obtain ⟨rfl, rfl⟩ := hls
      simpa using hks
  | cons l ls ih =>
      simp only [execFrom, Option.bind_eq_some_iff, Option.map_eq_some_iff] at hls
      obtain ⟨⟨s₁, es₁⟩, hstep, ⟨s₂, es₂⟩, hrest, hpair⟩ := hls
      simp only [Prod.mk.injEq] at hpair
      obtain ⟨rfl, rfl⟩ := hpair
      simp [execFrom, hstep, ih hrest]

theorem Leads.trans {ok : L → Prop} {s t u : S} {es es' : List E} (hst : M.Leads ok s t es)
    (htu : M.Leads ok t u es') : M.Leads ok s u (es ++ es') := by
  obtain ⟨ls, hls, hexec⟩ := hst
  obtain ⟨ks, hks, hexec'⟩ := htu
  refine ⟨ls ++ ks, fun l hl => ?_, execFrom_append hexec hexec'⟩
  exact (List.mem_append.mp hl).elim (hls l) (hks l)

/-- A run can be continued where its end leads. -/
theorem Run.leads {ok : L → Prop} {ls : List L} {s t : S} {tr es : List E} (h : M.Run ls s tr)
    (hleads : M.Leads ok s t es) :
    ∃ ks, (∀ l ∈ ks, ok l) ∧ M.Run (ls ++ ks) t (tr ++ es) := by
  obtain ⟨ks, hks, hexec⟩ := hleads
  exact ⟨ks, hks, h.append_execFrom hexec⟩

/-! ## Refinement -/

/-- If every step of `M` is matched, through the abstraction `f`, by an execution of
`N` that emits the events `g` lets through, then so is every run. -/
theorem Run.refines {S' L' E' : Type*} {N : Machine S' L' E'} {f : S → S'}
    {g : E → Option E'} (hinit : f M.init = N.init)
    (hstep : ∀ s l s' es, M.step s l = some (s', es) →
      ∃ ks, N.execFrom (f s) ks = some (f s', es.filterMap g))
    {ls : List L} {s : S} {tr : List E} (h : M.Run ls s tr) :
    ∃ ks, N.Run ks (f s) (tr.filterMap g) := by
  induction h with
  | nil => exact ⟨[], by simpa [hinit] using Run.nil⟩
  | snoc _ hl ih =>
      obtain ⟨ks, hks⟩ := ih
      obtain ⟨ks', hks'⟩ := hstep _ _ _ _ hl
      exact ⟨ks ++ ks', by simpa using hks.append_execFrom hks'⟩

end Machine

end SfRs.Lib
