import Mathlib.Data.List.GetD
import Mathlib.Data.List.Indexes
import SfRs.Metrics.Exported
import SfRs.Metrics.Threads
/-!
# What a scrape reads

A scrape takes the exported text of metrics that threads have used.  Once no call is in
progress, the reader finds the value of every counter and gauge, and of every histogram
series the number, the sum and the counts per bucket of the values that were observed.
-/

namespace SfRs.Metrics

open SfRs.Lib

namespace Histograms

/-- The atomics, whose counts are as many as there are buckets. -/
def Atomics.sized (atomics : Atomics) (numBuckets : Nat) : HistogramAtomics ℚ numBuckets where
  bucketCounts := .ofFn fun i => atomics.bucketCounts.getD i 0
  sum := atomics.sum
  count := atomics.count

/-- The metrics with their series, in the order that the maps are iterated in. -/
def State.entries (s : State) : List (String × HistogramStorage ℚ) :=
  s.histograms.entries.map fun metric =>
    (metric.1,
      { buckets := (s.storages metric.2).buckets
        data := (s.storages metric.2).data.entries.map fun series =>
          (series.1, (s.atomics series.2).sized _) })

/-- The samples of a series on which the finite values `vs` were observed. -/
def observedSamples (display : ℚ → String) (series : Series) (buckets vs : List ℚ) :
    List (Sample (Number ℚ)) :=
  [⟨series.1 ++ "_count", series.2.labels, .count (.ofNat vs.length)⟩,
    ⟨series.1 ++ "_sum", series.2.labels, .float vs.sum⟩] ++
    (buckets.mapIdx fun i b =>
      bucketSample series.1 (display b) series.2.labels
        (.ofNat (vs.countP fun v => InBucket buckets i v))) ++
    [bucketSample series.1 "+Inf" series.2.labels
      (.ofNat (vs.countP fun v => InBucket buckets buckets.length v))]

theorem Counted.getD {buckets vs : List ℚ} {atomics : Atomics}
    (hcounted : Counted buckets vs atomics) {i : Nat} (hi : i ≤ buckets.length) :
    atomics.bucketCounts.getD i 0 = .ofNat (vs.countP fun v => InBucket buckets i v) := by
  have hlt : i < atomics.bucketCounts.length := by
    rw [hcounted.length]
    exact Nat.lt_succ_of_le hi
  rw [List.getD_eq_getElem _ _ hlt]
  exact hcounted.counts i _ (List.getElem?_eq_getElem hlt)

/-- What is printed of a series is what was observed on it. -/
theorem Counted.seriesSamples {display : ℚ → String} {name : String} {key : LabelKey}
    {buckets vs : List ℚ} {atomics : Atomics} (hcounted : Counted buckets vs atomics) :
    seriesSamples display name (key, atomics.sized buckets.length) =
      observedSamples display (name, key) buckets vs := by
  have hbuckets : (atomics.sized buckets.length).bucketSamples =
      buckets.mapIdx fun i b => (b, .ofNat (vs.countP fun v => InBucket buckets i v)) := by
    rw [List.mapIdx_eq_ofFn]
    refine congrArg List.ofFn (funext fun i => ?_)
    rw [← hcounted.getD i.2.le]
    simp [Atomics.sized]
  have hinf : (atomics.sized buckets.length).infBucketCount =
      .ofNat (vs.countP fun v => InBucket buckets buckets.length v) := by
    rw [← hcounted.getD le_rfl, infBucketCount_eq]
    simp [Atomics.sized]
  rw [Metrics.seriesSamples, observedSamples, hbuckets, hinf]
  simp only [List.mapIdx_eq_ofFn, List.map_ofFn, Atomics.sized, hcounted.count, hcounted.sum]
  rfl

/-! ## The series that are stored -/

section Stored

variable {s : State} {name : String} {key : LabelKey} {display : ℚ → String}
  {sample : Sample (Number ℚ)}

/-- A sample of the export is one of a series that is stored. -/
theorem mem_histogramSamples_entries :
    sample ∈ histogramSamples display s.entries ↔
      ∃ name key buckets atomics, s.series name key = some (buckets, atomics) ∧
        sample ∈ seriesSamples display name (key, atomics.sized buckets.length) := by
  constructor
  · intro hmem
    obtain ⟨metric, hmetric, hmem⟩ := List.mem_flatMap.mp hmem
    obtain ⟨⟨name, storage⟩, hname, rfl⟩ := List.mem_map.mp hmetric
    obtain ⟨entry, hentry, hsample⟩ := List.mem_flatMap.mp hmem
    obtain ⟨⟨key, cell⟩, hcell, rfl⟩ := List.mem_map.mp hentry
    refine ⟨name, key, _, _, State.series_eq_some_iff.mpr ⟨storage, cell, ?_, ?_, rfl, rfl⟩,
      hsample⟩
    · exact AList.mem_lookup_iff.mpr hname
    · exact AList.mem_lookup_iff.mpr hcell
  · rintro ⟨name, key, buckets, atomics, hseries, hsample⟩
    obtain ⟨storage, cell, hname, hcell, rfl, rfl⟩ := State.series_eq_some_iff.mp hseries
    refine List.mem_flatMap.mpr ⟨_, List.mem_map_of_mem (AList.mem_lookup_iff.mp hname), ?_⟩
    exact List.mem_flatMap.mpr ⟨_, List.mem_map_of_mem (AList.mem_lookup_iff.mp hcell), hsample⟩

end Stored

/-! ## Threads with printable names -/

/-- The names that the action introduces can be printed on one line. -/
def Action.Plain : Action → Prop
  | .call (.histogram name _) => isIdentifier name.toList
  | .call (.withLabels _ labels) => ∀ label ∈ labels, PlainLabel label
  | _ => True

def Event.Plain : Event → Prop
  | .registered name _ | .created name => isIdentifier name.toList
  | .labelled _ key => ∀ label ∈ key.labels, PlainLabel label
  | _ => True

def Frame.Plain : Frame → Prop
  | .histogram name _ => isIdentifier name.toList
  | _ => True

structure PlainSeries (series : Series) : Prop where
  name : isIdentifier series.1.toList
  labels : ∀ label ∈ series.2.labels, PlainLabel label

theorem plain_new {labels : Labels} (hlabels : ∀ label ∈ labels, PlainLabel label) :
    ∀ label ∈ (LabelKey.new labels).labels, PlainLabel label := by
  intro label hmem
  have hmem' := List.mem_toFinset.mpr hmem
  rw [toFinset_new] at hmem'
  exact hlabels label (List.mem_toFinset.mp hmem')

namespace Threads

variable {s s' : Threads} {es : List Event} {i : Nat}

theorem plain_observe (hframes : ∀ frame ∈ s.calls, frame.Plain) {v : Value}
    {timer : Option Nat} (hstep : s.observe i v timer = some (s', es)) :
    (∀ e ∈ es, e.Plain) ∧ ∀ frame ∈ s'.calls, frame.Plain := by
  obtain ⟨handle, -, hobserve⟩ := Option.map_eq_some_iff.mp hstep
  cases v with
  | finite v =>
      obtain ⟨rfl, rfl⟩ := Prod.mk.inj hobserve
      refine ⟨by simp [Event.Plain], fun frame hframe => ?_⟩
      rcases List.mem_append.mp hframe with hold | hnew
      · exact hframes frame hold
      · rw [List.mem_singleton.mp hnew]
        trivial
  | nan | negInf | posInf =>
      obtain ⟨rfl, rfl⟩ := Prod.mk.inj hobserve
      refine ⟨by simp [Event.Plain], ?_⟩
      rw [(settled_returned s timer).2.1]
      exact hframes

theorem plain_step (hframes : ∀ frame ∈ s.calls, frame.Plain) {a : Action} (ha : a.Plain)
    (hstep : s.step a = some (s', es)) :
    (∀ e ∈ es, e.Plain) ∧ ∀ frame ∈ s'.calls, frame.Plain := by
  have htimer : ∀ {i : Nat} {elapsed : ℚ} {phase : Timer.Phase},
      s.doObserve i elapsed phase = some (s', es) →
      (∀ e ∈ es, e.Plain) ∧ ∀ frame ∈ s'.calls, frame.Plain := by
    intro i elapsed phase hstep
    obtain ⟨t, called, -, -, heq, hcases⟩ := doObserve_cases hstep
    have hcalled : ∀ frame ∈ called.calls, frame.Plain := heq ▸ hframes
    rcases hcases with ⟨-, rfl, rfl⟩ | ⟨-, hobserve⟩
    · exact ⟨by simp, hcalled⟩
    · exact plain_observe hcalled hobserve
  cases a with
  | call op =>
      cases op with
      | histogram name buckets =>
          obtain ⟨rfl, rfl⟩ := Prod.mk.inj (Option.some.inj hstep)
          constructor
          · intro e he
            rcases List.mem_cons.mp he with rfl | he
            · exact ha
            · obtain ⟨w, -, rfl⟩ := List.mem_map.mp he
              trivial
          · intro frame hframe
            rcases List.mem_append.mp hframe with hold | hnew
            · exact hframes frame hold
            · rw [List.mem_singleton.mp hnew]
              exact ha
      | withLabels i labels =>
          obtain ⟨handle, -, hcreate⟩ := Option.map_eq_some_iff.mp hstep
          obtain ⟨rfl, rfl⟩ := Prod.mk.inj hcreate
          exact ⟨by simpa [Event.Plain] using plain_new ha, hframes⟩
      | withoutLabels i =>
          obtain ⟨handle, -, hcreate⟩ := Option.map_eq_some_iff.mp hstep
          obtain ⟨rfl, rfl⟩ := Prod.mk.inj hcreate
          exact ⟨by simp [Event.Plain, LabelKey.empty], hframes⟩
      | observe i v => exact plain_observe hframes hstep
  | startTimer i =>
      obtain ⟨-, -, hstart⟩ := Option.map_eq_some_iff.mp hstep
      obtain ⟨rfl, rfl⟩ := Prod.mk.inj hstart
      exact ⟨by simp, hframes⟩
  | observeDuration | dropTimer => exact htimer hstep
  | resume i =>
      obtain ⟨frame, hi, hresume⟩ := Option.map_eq_some_iff.mp hstep
      have hplain := hframes frame (List.mem_of_getElem? hi)
      have hrest : ∀ frame ∈ s.calls.eraseIdx i, frame.Plain :=
        fun frame hmem => hframes frame (List.mem_of_mem_eraseIdx hmem)
      cases frame with
      | histogram name metric =>
          obtain ⟨rfl, rfl⟩ := Prod.mk.inj hresume
          exact ⟨by simpa [Event.Plain, Frame.Plain] using hplain, hrest⟩
      | sum cell v timer =>
          obtain ⟨rfl, rfl⟩ := Prod.mk.inj hresume
          refine ⟨by simp, fun frame hframe => ?_⟩
          rcases List.mem_append.mp hframe with hold | hnew
          · exact hrest frame hold
          · rw [List.mem_singleton.mp hnew]
            trivial
      | count cell timer =>
          obtain ⟨rfl, rfl⟩ := Prod.mk.inj hresume
          refine ⟨by simp, ?_⟩
          rw [(settled_returned _ timer).2.1]
          exact hrest

end Threads

theorem plain_of_run {acts : List Action} {s : Threads} {tr : List Event}
    (hrun : threads.Run acts s tr) (hacts : ∀ a ∈ acts, a.Plain) :
    (∀ e ∈ tr, e.Plain) ∧ ∀ frame ∈ s.calls, frame.Plain := by
  induction hrun with
  | nil => exact ⟨by simp, by simp [threads, Threads.init]⟩
  | @snoc acts s tr a s' es _ hstep ih =>
      obtain ⟨hevents, hframes⟩ := ih fun a ha => hacts a (List.mem_append_left _ ha)
      obtain ⟨hes, hframes'⟩ := Threads.plain_step hframes (hacts a (by simp)) hstep
      exact ⟨List.forall_mem_append.mpr ⟨hevents, hes⟩, hframes'⟩

theorem plain_ofEvents {tr : List Event} (htr : ∀ e ∈ tr, e.Plain) :
    ∀ series ∈ (History.ofEvents tr).handles, PlainSeries series := by
  induction tr using List.reverseRecOn with
  | nil => simp [History.ofEvents]
  | append_singleton tr e ih =>
      have hplain := ih fun e he => htr e (List.mem_append_left _ he)
      have he : e.Plain := htr e (by simp)
      have hadd : ∀ {series : Series}, PlainSeries series →
          ∀ series' ∈ ((History.ofEvents tr).addHandle series).handles, PlainSeries series' := by
        intro series hseries series' hmem
        rcases List.mem_append.mp hmem with hold | hnew
        · exact hplain series' hold
        · rw [List.mem_singleton.mp hnew]
          exact hseries
      rw [History.ofEvents_append, List.foldl_cons, List.foldl_nil]
      cases e with
      | registered | warned => exact hplain
      | created name => exact hadd ⟨he, by simp [LabelKey.empty]⟩
      | labelled handle key =>
          rw [History.record]
          cases hseries : (History.ofEvents tr).handles[handle]? with
          | none => exact hplain
          | some series => exact hadd ⟨(hplain series (List.mem_of_getElem? hseries)).1, he⟩
      | observed handle v timer =>
          rw [History.record]
          cases (History.ofEvents tr).handles[handle]? <;> exact hplain

end Histograms

/-! ## The whole text -/

open Histograms (threads observedSamples)

/-- The contents of metrics, the counters and gauges of which are in one state and the
histograms in another. -/
def stores (s : State) (histograms : Histograms.State) : Stores ℚ where
  counters := s.entries .counter
  gauges := s.entries .gauge
  histograms := histograms.entries

variable {V : Type*} {t : NumberFormat ℚ V} {ops : List Op} {s : State} {ws : List Warning}
  {acts : List Histograms.Action} {h : Histograms.Threads} {tr : List Histograms.Event}

theorem isOf_of_mem {display : ℚ → String} {sample : Sample (Number ℚ)}
    (hfollows : h.Follows (.ofEvents tr)) (hcalls : h.calls = [])
    (hmem : sample ∈ histogramSamples display h.shared.entries) :
    ∃ series ∈ (Histograms.History.ofEvents tr).handles, sample.IsOf display series := by
  have htracks := hfollows.tracks_shared hcalls
  obtain ⟨name, key, buckets, atomics, hseries, hsample⟩ :=
    Histograms.mem_histogramSamples_entries.mp hmem
  refine ⟨(name, key), (htracks.mem_handles_iff name key).mpr ?_, isOf_seriesSamples hsample⟩
  rw [hseries]
  rfl

/-- The histogram samples are those of the values that were observed. -/
theorem mem_histogramSamples_iff {display : ℚ → String} {sample : Sample (Number ℚ)}
    (hfollows : h.Follows (.ofEvents tr)) (hcalls : h.calls = []) :
    sample ∈ histogramSamples display h.shared.entries ↔
      ∃ series ∈ (Histograms.History.ofEvents tr).handles, ∃ layout,
        (Histograms.History.ofEvents tr).layout series.1 = some layout ∧
        sample ∈ observedSamples display series (newBuckets layout)
          ((Histograms.History.ofEvents tr).finite series) := by
  have htracks := hfollows.tracks_shared hcalls
  rw [Histograms.mem_histogramSamples_entries]
  constructor
  · rintro ⟨name, key, buckets, atomics, hseries, hsample⟩
    obtain ⟨layout, hlayout, rfl, hcounted⟩ := htracks.counted_series hseries
    rw [hcounted.seriesSamples] at hsample
    refine ⟨(name, key), (htracks.mem_handles_iff name key).mpr ?_, layout, hlayout, hsample⟩
    rw [hseries]
    rfl
  · rintro ⟨⟨name, key⟩, hhandle, layout, hlayout, hsample⟩
    obtain ⟨⟨buckets, atomics⟩, hseries⟩ :=
      Option.isSome_iff_exists.mp ((htracks.mem_handles_iff name key).mp hhandle)
    obtain ⟨layout', hlayout', rfl, hcounted⟩ := htracks.counted_series hseries
    obtain rfl : layout = layout' := Option.some.inj (hlayout.symm.trans hlayout')
    refine ⟨name, key, _, atomics, hseries, ?_⟩
    rwa [hcounted.seriesSamples]

/-- Values that are displayed as fractions; the reader keeps the text of a number. -/
def fractions : NumberFormat ℚ String where
  display v := v.num.repr ++ if v.den = 1 then "" else "/" ++ v.den.repr
  read := some
  value
    | .float v => v.num.repr ++ if v.den = 1 then "" else "/" ++ v.den.repr
    | .count n => toString n

theorem isDigit_of_mem_intRepr {n : Int} {c : Char} (h : c ∈ n.repr.toList) :
    c = '-' ∨ c.isDigit := by
  cases n with
  | ofNat m => exact Or.inr (isDigit_of_mem_repr h)
  | negSucc m =>
      rw [Int.repr, String.toList_append] at h
      rcases List.mem_append.mp h with hsign | hdigit
      · exact Or.inl (List.mem_singleton.mp hsign)
      · exact Or.inr (isDigit_of_mem_repr hdigit)

theorem lawful_fractions : fractions.Lawful where
  read_text n := by cases n <;> rfl
  plain := by
    intro v c hc
    have hchar : c = '-' ∨ c = '/' ∨ c.isDigit := by
      rw [fractions, String.toList_append] at hc
      rcases List.mem_append.mp hc with hnum | hden
      · exact (isDigit_of_mem_intRepr hnum).imp_right Or.inr
      · split at hden
        · exact absurd hden (List.not_mem_nil)
        · rw [String.toList_append] at hden
          rcases List.mem_append.mp hden with hslash | hdigit
          · exact Or.inr (Or.inl (List.mem_singleton.mp hslash))
          · exact Or.inr (Or.inr (isDigit_of_mem_repr hdigit))
    refine ⟨?_, ?_, ?_⟩ <;> rintro rfl <;> exact absurd hchar (by decide)


deriving instance DecidableEq for Number

instance (key : LabelKey) : Decidable key.Canonical :=
  inferInstanceAs (Decidable (key.labels.Pairwise fun a b => a.1 < b.1))

end SfRs.Metrics
