import SfRs.Metrics.ReadBack
import SfRs.Metrics.Values
/-!
# What a program exports

The exporter goes through the storages of the counters and of the gauges, and prints each
series with what its cell holds.  After any program its samples are exactly the values of
the history, and they can be printed as long as the names can.
-/

namespace SfRs.Metrics

open SfRs.Lib

namespace State

/-- The metrics of a kind with their series, in the order that the maps are iterated in. -/
def entries (s : State) (kind : Kind) : List (String × List (LabelKey × ℚ)) :=
  (s.metrics.field kind).entries.map fun metric =>
    (metric.1, (s.heap.storages metric.2).entries.map fun series =>
      (series.1, s.heap.cells series.2))

variable {s : State} {h : History} {keys : List ((Kind × String) × LabelKey)} {kind : Kind}
  {name : String} {labels : Labels} {v : ℚ}

theorem mem_valueSamples_entries :
    ⟨name, labels, .float v⟩ ∈ valueSamples (s.entries kind) ↔
      ∃ cell, s.directory.Reaches (kind, name) ⟨labels⟩ cell ∧ s.heap.cells cell = v := by
  constructor
  · intro hmem
    obtain ⟨metric, hmetric, hmem⟩ := List.mem_flatMap.mp hmem
    obtain ⟨⟨name', storage⟩, hname, rfl⟩ := List.mem_map.mp hmetric
    obtain ⟨entry, hentry, hsample⟩ := List.mem_map.mp hmem
    obtain ⟨⟨key, cell⟩, hcell, rfl⟩ := List.mem_map.mp hentry
    cases hsample
    exact ⟨cell, ⟨storage, AList.mem_lookup_iff.mpr hname, AList.mem_lookup_iff.mpr hcell⟩, rfl⟩
  · rintro ⟨cell, ⟨storage, hname, hcell⟩, rfl⟩
    refine List.mem_flatMap.mpr ⟨_, List.mem_map_of_mem (AList.mem_lookup_iff.mp hname), ?_⟩
    exact List.mem_map.mpr ⟨_, List.mem_map_of_mem (AList.mem_lookup_iff.mp hcell), rfl⟩

/-- The samples of a kind are the values of the history, with the labels in order. -/
theorem Tracks.mem_valueSamples (htracks : s.Tracks h keys) :
    ⟨name, labels, .float v⟩ ∈ valueSamples (s.entries kind) ↔
      LabelKey.Canonical ⟨labels⟩ ∧ h.value ⟨kind, name, labels.toFinset⟩ = some v := by
  have hvalue : ∀ {cell}, s.directory.Reaches (kind, name) ⟨labels⟩ cell →
      s.heap.cells cell = h.total ⟨kind, name, labels.toFinset⟩ := htracks.holds.contents
  rw [mem_valueSamples_entries]
  constructor
  · rintro ⟨cell, hcell, rfl⟩
    have hkey := htracks.canonical _ (htracks.holds.listed hcell)
    rw [hvalue hcell]
    exact ⟨hkey, if_pos ((htracks.mem_handles_iff hkey).mpr ⟨cell, hcell⟩)⟩
  · rintro ⟨hkey, hsome⟩
    obtain ⟨hseries, htotal⟩ := Option.ite_none_right_eq_some.mp hsome
    obtain ⟨cell, hcell⟩ := (htracks.mem_handles_iff hkey).mp hseries
    exact ⟨cell, hcell, (hvalue hcell).trans (Option.some.inj htotal)⟩

/-- A series is exported once. -/
theorem nodup_valueSamples_entries (s : State) (kind : Kind) :
    ((valueSamples (s.entries kind)).map fun sample => (sample.name, sample.labels)).Nodup := by
  have hseries : (valueSamples (s.entries kind)).map (fun sample => (sample.name, sample.labels)) =
      (s.metrics.field kind).entries.flatMap fun metric =>
        (s.heap.storages metric.2).keys.map fun key => (metric.1, key.labels) := by
    simp [valueSamples, entries, AList.keys, List.keys, List.map_flatMap, List.flatMap_map]
    rfl
  rw [hseries, List.nodup_flatMap]
  constructor
  · intro metric _
    refine (s.heap.storages metric.2).keys_nodup.map fun key key' heq => ?_
    cases key
    cases key'
    simpa using heq
  · have hnames := (s.metrics.field kind).keys_nodup
    rw [AList.keys, List.keys, List.Nodup, List.pairwise_map] at hnames
    refine hnames.imp fun hne => List.disjoint_left.mpr ?_
    intro series hseries hseries'
    obtain ⟨key, -, rfl⟩ := List.mem_map.mp hseries
    obtain ⟨key', -, heq⟩ := List.mem_map.mp hseries'
    exact hne (congrArg Prod.fst heq).symm

end State

/-! ## Programs with printable names -/

/-- The key is an identifier, and the value has no newline. -/
def PlainLabel (label : String × String) : Prop :=
  isIdentifier label.1.toList ∧ '\n' ∉ label.2.toList

/-- The names that the operation introduces can be printed on one line. -/
def Op.Plain : Op → Prop
  | .counter name | .gauge name => isIdentifier name.toList
  | .withLabels _ labels => ∀ label ∈ labels, PlainLabel label
  | _ => True

instance (label : String × String) : Decidable (PlainLabel label) :=
  inferInstanceAs (Decidable (_ ∧ _))

instance : DecidablePred Op.Plain
  | .counter name | .gauge name => inferInstanceAs (Decidable (isIdentifier name.toList))
  | .withLabels _ labels => inferInstanceAs (Decidable (∀ label ∈ labels, PlainLabel label))
  | .withoutLabels _ | .clone _ | .update _ _ => .isTrue trivial

structure Series.Plain (series : Series) : Prop where
  name : isIdentifier series.name.toList
  labels : ∀ label ∈ series.labels, PlainLabel label

namespace History

theorem plain_target {h : History} (hplain : ∀ series ∈ h.handles, series.Plain) {op : Op}
    (hop : op.Plain) {series : Series} (htarget : h.target op = some series) : series.Plain := by
  cases op with
  | counter name | gauge name =>
      cases htarget
      exact ⟨hop, by simp⟩
  | withLabels handle labels =>
      obtain ⟨old, hold, rfl⟩ := Option.map_eq_some_iff.mp htarget
      refine ⟨(hplain old (List.mem_of_getElem? hold)).1, fun label hlabel => ?_⟩
      exact hop label (List.mem_toFinset.mp hlabel)
  | withoutLabels handle =>
      obtain ⟨old, hold, rfl⟩ := Option.map_eq_some_iff.mp htarget
      exact ⟨(hplain old (List.mem_of_getElem? hold)).1, by simp⟩
  | clone | update => exact hplain series (List.mem_of_getElem? htarget)

theorem plain_ofOps {ops : List Op} (hops : ∀ op ∈ ops, op.Plain) :
    ∀ series ∈ (ofOps ops).handles, series.Plain := by
  induction ops using List.reverseRecOn with
  | nil => simp [ofOps]
  | append_singleton ops op ih =>
      have hplain := ih fun op' hmem => hops op' (List.mem_append_left _ hmem)
      have hop : op.Plain := hops op (by simp)
      rw [ofOps_concat]
      unfold extend
      split
      case h_1 => exact hplain
      case h_2 series _ htarget =>
          intro series' hmem
          rcases List.mem_append.mp hmem with hold | hnew
          · exact hplain series' hold
          · rw [List.mem_singleton.mp hnew]
            exact plain_target hplain hop htarget
      case h_3 => exact hplain

end History

namespace State

variable {s : State} {h : History} {keys : List ((Kind × String) × LabelKey)} {kind : Kind}
  {sample : Sample (Number ℚ)}

theorem exists_float (hmem : sample ∈ valueSamples (s.entries kind)) :
    ∃ v, sample = ⟨sample.name, sample.labels, .float v⟩ := by
  obtain ⟨metric, -, hentry⟩ := List.mem_flatMap.mp hmem
  obtain ⟨entry, -, rfl⟩ := List.mem_map.mp hentry
  exact ⟨entry.2, rfl⟩

/-- What is exported of a series can be printed if the series can. -/
theorem Tracks.printable (htracks : s.Tracks h keys) (hplain : ∀ series ∈ h.handles, series.Plain)
    (hmem : sample ∈ valueSamples (s.entries kind)) : sample.Identifiers ∧ sample.OneLine := by
  obtain ⟨v, heq⟩ := exists_float hmem
  rw [heq] at hmem
  obtain ⟨-, hvalue⟩ := htracks.mem_valueSamples.mp hmem
  obtain ⟨hseries, -⟩ := Option.ite_none_right_eq_some.mp hvalue
  obtain ⟨hname, hlabels⟩ := hplain _ hseries
  have hlabel := fun label hmem => hlabels label (List.mem_toFinset.mpr hmem)
  exact ⟨⟨hname, fun label hmem => (hlabel label hmem).1⟩, fun label hmem =>
    (hlabel label hmem).2⟩

end State

end SfRs.Metrics
