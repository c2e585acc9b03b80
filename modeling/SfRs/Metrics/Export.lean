import SfRs.Metrics.Histogram
/-!
# The text export

The exporter prints the stores in their order of iteration.  A histogram series is
printed with its count, its sum and one line for each of its buckets, and the bucket
lines carry the counts as they are kept, which is per bucket and not cumulative.
-/

namespace SfRs.Metrics

structure HistogramStorage (F : Type*) where
  buckets : List F
  data : List (LabelKey × HistogramAtomics F buckets.length)

/-- The contents of `InMemoryMetrics`, in the order that it is iterated in. -/
structure Stores (F : Type*) where
  counters : List (String × List (LabelKey × F))
  gauges : List (String × List (LabelKey × F))
  histograms : List (String × HistogramStorage F)

/-- `str::replace` of a single character. -/
def replace (c : Char) (text : String) (s : String) : String :=
  .ofList (s.toList.flatMap fun d => if d = c then text.toList else [d])

def escape (value : String) : String :=
  replace '"' "\\\"" (replace '\\' "\\\\" value)

def formatLabel (label : String × String) : String :=
  label.1 ++ "=\"" ++ escape label.2 ++ "\""

def formatLabels (labels : Labels) : String :=
  ",".intercalate (labels.map formatLabel)

def line (name labels value : String) : String :=
  name ++ "\x7b" ++ labels ++ "\x7d " ++ value ++ "\n"

def labelPart (labels : String) : String :=
  if labels.isEmpty then "" else "," ++ labels

def bucketLine (name boundary labels : String) (count : UInt64) : String :=
  line (name ++ "_bucket") ("le=\"" ++ boundary ++ "\"" ++ labelPart labels) (toString count)

namespace HistogramAtomics

variable {F : Type*}

/-- The bounds with the counts that their lines carry. -/
def bucketSamples {buckets : List F} (atomics : HistogramAtomics F buckets.length) :
    List (F × UInt64) :=
  List.ofFn fun i : Fin buckets.length => (buckets[i], atomics.bucketCounts[i.castSucc])

def infBucketCount {n : Nat} (atomics : HistogramAtomics F n) : UInt64 :=
  atomics.bucketCounts.back?.getD 0

end HistogramAtomics

section Gather

variable {F : Type*} (display : F → String)

def valueText (name : String) (entry : LabelKey × F) : String :=
  line name (formatLabels entry.1.labels) (display entry.2)

def seriesText {buckets : List F} (name : String)
    (entry : LabelKey × HistogramAtomics F buckets.length) : String :=
  let labels := formatLabels entry.1.labels
  line (name ++ "_count") labels (toString entry.2.count) ++
    line (name ++ "_sum") labels (display entry.2.sum) ++
    String.join (entry.2.bucketSamples.map fun e =>
      bucketLine name (display e.1) labels e.2) ++
    bucketLine name "+Inf" labels entry.2.infBucketCount

def valuesText (metrics : List (String × List (LabelKey × F))) : String :=
  String.join (metrics.flatMap fun metric => metric.2.map (valueText display metric.1))

def histogramsText (metrics : List (String × HistogramStorage F)) : String :=
  String.join (metrics.flatMap fun metric => metric.2.data.map (seriesText display metric.1))

def gatherMetricsString (stores : Stores F) : String :=
  "# Counters\n" ++ valuesText display stores.counters ++
    "\n# Gauges\n" ++ valuesText display stores.gauges ++
    "\n# Histograms\n" ++ histogramsText display stores.histograms

end Gather

/-! ## The buckets of a series -/

/-- The bucket lines of a series have less-or-equal semantics for its observations. -/
structure LeSemantics {buckets : List ℚ} (atomics : HistogramAtomics ℚ buckets.length)
    (observations : List ℚ) : Prop where
  le : ∀ e ∈ atomics.bucketSamples, e.2.toNat = observations.countP (· ≤ e.1)
  monotone : ∀ e ∈ atomics.bucketSamples, ∀ e' ∈ atomics.bucketSamples,
    e.1 ≤ e'.1 → e.2 ≤ e'.2
  inf : atomics.infBucketCount = atomics.count

theorem exists_join_eq {s : String} {l : List String} (h : s ∈ l) :
    ∃ before after, String.join l = before ++ s ++ after := by
  obtain ⟨l₁, l₂, rfl⟩ := List.append_of_mem h
  refine ⟨String.join l₁, String.join l₂, String.toList_inj.mp ?_⟩
  simp [String.toList_join]

/-- The text of every series is part of the output. -/
theorem exists_gatherMetricsString_eq {F : Type*} (display : F → String) {stores : Stores F}
    {name : String} (storage : HistogramStorage F)
    (entry : LabelKey × HistogramAtomics F storage.buckets.length)
    (hstorage : (name, storage) ∈ stores.histograms) (hentry : entry ∈ storage.data) :
    ∃ before after, gatherMetricsString display stores =
      before ++ seriesText display name entry ++ after := by
  have hmem : seriesText display name entry ∈
      stores.histograms.flatMap fun metric =>
        metric.2.data.map (seriesText display metric.1) :=
    List.mem_flatMap.mpr ⟨_, hstorage, List.mem_map_of_mem hentry⟩
  obtain ⟨before, after, heq⟩ := exists_join_eq hmem
  refine ⟨"# Counters\n" ++ valuesText display stores.counters ++ "\n# Gauges\n" ++
    valuesText display stores.gauges ++ "\n# Histograms\n" ++ before, after, ?_⟩
  have htext : histogramsText display stores.histograms =
      before ++ seriesText display name entry ++ after := heq
  unfold gatherMetricsString
  rw [htext]
  simp only [String.append_assoc]

variable {buckets observations : List ℚ}

theorem infBucketCount_eq {n : Nat} (atomics : HistogramAtomics ℚ n) :
    atomics.infBucketCount = atomics.bucketCounts[Fin.last n] := by
  simp [HistogramAtomics.infBucketCount, Vector.back?_eq_getElem?]

theorem bucketIndex_eq_length_iff (hbuckets : buckets.Pairwise (· < ·)) {i : Nat}
    (hi : i + 1 = buckets.length) (v : ℚ) :
    bucketIndex buckets v = buckets.length ↔ ¬ v ≤ buckets[i] := by
  rw [← bucketIndex_le_iff hbuckets]
  have := bucketIndex_le_length hbuckets v
  omega

open HistogramAtomics

theorem leSemantics_observed (hbuckets : buckets.Pairwise (· < ·))
    (habove : ∀ v ∈ observations, ∀ b ∈ buckets, b < v) :
    LeSemantics (observed buckets observations) observations := by
  have hindex : ∀ v ∈ observations, bucketIndex buckets v = buckets.length := by
    intro v hv
    refine (bucketIndex_le_length hbuckets v).antisymm (Nat.le_of_not_lt fun hlt => ?_)
    have hle := (bucketIndex_le_iff hbuckets hlt).mp le_rfl
    exact absurd hle (habove v hv _ (List.getElem_mem hlt)).not_ge
  have hzero : ∀ e ∈ (observed buckets observations).bucketSamples, e.1 ∈ buckets ∧ e.2 = 0 := by
    intro e he
    obtain ⟨i, rfl⟩ := List.mem_ofFn.mp he
    refine ⟨List.getElem_mem _, ?_⟩
    have hnone : observations.countP (fun v => bucketIndex buckets v = i.castSucc) = 0 := by
      refine List.countP_eq_zero.mpr fun v hv => ?_
      simp [hindex v hv, i.isLt.ne']
    simp only [bucketCounts_observed hbuckets, hnone]
    rfl
  refine ⟨fun e he => ?_, fun e he e' he' _ => ?_, ?_⟩
  · obtain ⟨hmem, hcount⟩ := hzero e he
    rw [hcount, List.countP_eq_zero.mpr fun v hv => by simpa using habove v hv e.1 hmem]
    rfl
  · rw [(hzero e he).2, (hzero e' he').2]
    exact UInt64.le_refl 0
  · have hall : observations.countP (fun v => bucketIndex buckets v = Fin.last buckets.length) =
        observations.length :=
      List.countP_eq_length.mpr fun v hv => by simpa using hindex v hv
    rw [infBucketCount_eq, bucketCounts_observed hbuckets, hall, count_observed]

/-- Where some observation is not above the last bound, what the line of that bound
carries is missing in the last line. -/
theorem not_leSemantics_observed (hbuckets : buckets.Pairwise (· < ·)) {v b : ℚ}
    (hv : v ∈ observations) (hb : b ∈ buckets) (hle : v ≤ b) :
    ¬ LeSemantics (observed buckets observations) observations := by
  intro h
  obtain ⟨j, hj, rfl⟩ := List.getElem_of_mem hb
  obtain ⟨i, hi⟩ : ∃ i, i + 1 = buckets.length := ⟨buckets.length - 1, by omega⟩
  have hlast : v ≤ buckets[i] := by
    rw [← bucketIndex_le_iff hbuckets] at hle ⊢
    omega
  set below := observations.countP fun v => decide (v ≤ buckets[i])
  have hpos : 0 < below := List.countP_pos_iff.mpr ⟨v, hv, decide_eq_true hlast⟩
  have hcarried : ((observed buckets observations).bucketCounts[
      (⟨i, by omega⟩ : Fin buckets.length).castSucc]).toNat = below :=
    h.le (buckets[i], _) (List.mem_ofFn.mpr ⟨⟨i, by omega⟩, rfl⟩)
  have hlt : below < 2 ^ 64 := hcarried ▸ UInt64.toNat_lt _
  have habove : observations.countP
      (fun v => bucketIndex buckets v = Fin.last buckets.length) + below =
        observations.length := by
    rw [List.length_eq_countP_add_countP (l := observations)
      fun v => decide (v ≤ buckets[i]), Nat.add_comm]
    refine congrArg (below + ·) (List.countP_congr fun v _ => ?_)
    simpa using bucketIndex_eq_length_iff hbuckets hi v
  have hinf := h.inf
  rw [infBucketCount_eq, bucketCounts_observed hbuckets, count_observed, ← habove,
    ← UInt64.toNat_inj, UInt64.toNat_ofNat', UInt64.toNat_ofNat'] at hinf
  omega

/-- For every layout, every sequence of finite observations and whatever else is stored,
the lines of the series are in the output, and they have less-or-equal semantics exactly
when all observations are above all finite bounds. -/
theorem gathered_leSemantics_iff {layout : Option (List Value)}
    (hnan : .nan ∉ layout.getD defaultBuckets) {observations : List ℚ} (display : ℚ → String)
    {stores : Stores ℚ} {name : String} {key : LabelKey}
    {data : List (LabelKey × HistogramAtomics ℚ (newBuckets layout).length)}
    (hstorage : (name, { buckets := newBuckets layout, data := data }) ∈ stores.histograms)
    (hseries : (key, observed (newBuckets layout) observations) ∈ data) :
    (∃ before after, gatherMetricsString display stores =
      before ++ seriesText display name (key, observed (newBuckets layout) observations) ++
        after) ∧
    (LeSemantics (observed (newBuckets layout) observations) observations ↔
      ∀ v ∈ observations, ∀ b, .finite b ∈ layout.getD defaultBuckets → b < v) := by
  refine ⟨exists_gatherMetricsString_eq display { buckets := newBuckets layout, data := data }
    (key, observed (newBuckets layout) observations) hstorage hseries, ?_⟩
  have hbuckets := pairwise_newBuckets hnan
  constructor
  · intro h v hv b hb
    have hmem : b ∈ newBuckets layout := mem_newBuckets.mpr hb
    refine lt_of_not_ge fun hle => ?_
    exact not_leSemantics_observed hbuckets hv hmem hle h
  · intro habove
    exact leSemantics_observed hbuckets fun v hv b hb => habove v hv b (mem_newBuckets.mp hb)

/-- The stores of one histogram with one series. -/
def oneSeries (layout : List Value) (observations : List ℚ) : Stores ℚ where
  counters := []
  gauges := []
  histograms := [("latency", {
    buckets := newBuckets (some layout)
    data := [(.empty, observed (newBuckets (some layout)) observations)] })]

theorem gathered_leSemantics_iff_above :
    LeSemantics (observed (newBuckets (some [.posInf, .finite 2, .finite 1])) [3, 5 / 2])
      [3, 5 / 2] := by
  have hstorage : ("latency", _) ∈
      (oneSeries [.posInf, .finite 2, .finite 1] [3, 5 / 2]).histograms :=
    List.mem_cons_self
  refine (gathered_leSemantics_iff (by decide +kernel) toString hstorage
    List.mem_cons_self).2.mpr fun v hv b hb => ?_
  have hle : b ≤ 2 := by
    obtain rfl | rfl : b = 2 ∨ b = 1 := by simpa using hb
    · decide +kernel
    · decide +kernel
  have hlt : 2 < v := by
    obtain rfl | rfl : v = 3 ∨ v = 5 / 2 := by simpa using hv
    · decide +kernel
    · decide +kernel
  exact hle.trans_lt hlt

/-- One observation under two bounds is missing in the second line and in the last. -/
theorem not_leSemantics_one :
    ¬ LeSemantics (observed (newBuckets (some [.finite 2, .finite 3])) [1]) [1] ∧
      gatherMetricsString toString (oneSeries [.finite 2, .finite 3] [1]) =
        "# Counters\n\n# Gauges\n\n# Histograms\n" ++
        "latency_count\x7b\x7d 1\nlatency_sum\x7b\x7d 1\n" ++
        "latency_bucket\x7ble=\"2\"\x7d 1\nlatency_bucket\x7ble=\"3\"\x7d 0\n" ++
        "latency_bucket\x7ble=\"+Inf\"\x7d 0\n" := by
  constructor
  · intro h
    exact absurd h.inf (by decide +kernel)
  · decide +kernel

end SfRs.Metrics
