import SfRs.Lib.Sort
import SfRs.Metrics.Histogram
/-!
# The stored bounds

The bounds are sorted first and rid of NaN and infinities after.  NaN compares as equal to
everything, so the sort of a short slice moves no bound across a NaN, and what is stored
is in order only if the finite bounds were in order across every NaN of the input.
-/

namespace SfRs.Metrics

open SfRs.Lib

/-- `a.partial_cmp(b).unwrap_or(Equal)`. -/
def Value.sortCmp (a b : Value) : Ordering := (a.partialCmp b).getD .eq

/-- The bounds that `HistogramStorage::new` keeps of what `sort_unstable_by` returns. -/
def storedBuckets (sort : List Value → List Value) (inputBuckets : Option (List Value)) :
    List ℚ :=
  ((sort (inputBuckets.getD defaultBuckets)).filterMap Value.finite?).destutter (· ≠ ·)

/-- The finite ones of the input bounds, each once and in order. -/
structure KeepsFinite (inputBuckets : Option (List Value)) (buckets : List ℚ) : Prop where
  increasing : buckets.Pairwise (· < ·)
  mem : ∀ b, b ∈ buckets ↔ .finite b ∈ inputBuckets.getD defaultBuckets

/-- What is stored keeps the finite bounds, however the sort treats long slices for which
the comparison is no order. -/
def StoresFinite (inputBuckets : Option (List Value)) : Prop :=
  ∀ sort, SortUnstableBy Value.sortCmp sort →
    KeepsFinite inputBuckets (storedBuckets sort inputBuckets)

/-- No NaN stands between finite bounds that are not in order.  In a slice that is too
long for the insertion sort it may not stand anywhere, unless the finite bounds are equal. -/
def InOrderAcrossNan (bounds : List Value) : Prop :=
  if bounds.length ≤ 20 then
    ∀ before after, bounds = before ++ .nan :: after →
      ∀ a b, .finite a ∈ before → .finite b ∈ after → a ≤ b
  else
    .nan ∈ bounds → ∀ a b, .finite a ∈ bounds → .finite b ∈ bounds → a = b

/-! ## The comparison -/

namespace Value

variable {a b : Value} {l : List Value}

theorem finite?_eq_some {v : ℚ} : a.finite? = some v ↔ a = .finite v := by
  cases a <;> simp [finite?]

theorem sortCmp_swap (a b : Value) : b.sortCmp a = (a.sortCmp b).swap := by
  cases a <;> cases b
  case finite.finite v w =>
      show compare w v = (compare v w).swap
      exact Std.OrientedCmp.eq_swap
  all_goals rfl

theorem sortCmp_nan_left (a : Value) : nan.sortCmp a = .eq := rfl

theorem sortCmp_nan_right (a : Value) : a.sortCmp nan = .eq := by
  cases a <;> rfl

theorem sortCmp_ne_gt_iff (ha : a ≠ nan) (hb : b ≠ nan) :
    a.sortCmp b ≠ .gt ↔ a.key ≤ b.key :=
  notAfter_iff ha hb

theorem orderOn_of_nan_not_mem (hnan : nan ∉ l) : OrderOn sortCmp l where
  swap := fun a _ b _ => sortCmp_swap a b
  trans := by
    intro a ha b hb c hc
    have hne : ∀ {v}, v ∈ l → v ≠ nan := fun hv => ne_of_mem_of_not_mem hv hnan
    rw [sortCmp_ne_gt_iff (hne ha) (hne hb), sortCmp_ne_gt_iff (hne hb) (hne hc),
      sortCmp_ne_gt_iff (hne ha) (hne hc)]
    exact le_trans

end Value

/-! ## What is left after sorting -/

section Sorted

variable {l : List Value} {inputBuckets : Option (List Value)} {sort : List Value → List Value}

theorem mem_filterMap_finite {b : ℚ} : b ∈ l.filterMap Value.finite? ↔ .finite b ∈ l := by
  simp [List.mem_filterMap, Value.finite?_eq_some]

theorem pairwise_filterMap_finite
    (hsorted : l.Pairwise fun a b => a.sortCmp b ≠ .gt) :
    (l.filterMap Value.finite?).Pairwise (· ≤ ·) := by
  refine List.Pairwise.filterMap _ (fun a b hab v hv w hw => ?_) hsorted
  rw [Value.finite?_eq_some.mp hv, Value.finite?_eq_some.mp hw] at hab
  simpa [Value.sortCmp, Value.partialCmp, compare_gt_iff_gt] using hab

theorem mem_storedBuckets (hsort : SortUnstableBy Value.sortCmp sort) (b : ℚ) :
    b ∈ storedBuckets sort inputBuckets ↔ .finite b ∈ inputBuckets.getD defaultBuckets := by
  rw [storedBuckets, mem_destutter, mem_filterMap_finite, (hsort.perm _).mem_iff]

theorem keepsFinite_iff (hsort : SortUnstableBy Value.sortCmp sort) :
    KeepsFinite inputBuckets (storedBuckets sort inputBuckets) ↔
      ((sort (inputBuckets.getD defaultBuckets)).filterMap Value.finite?).Pairwise (· ≤ ·) := by
  rw [← pairwise_destutter_iff]
  exact ⟨KeepsFinite.increasing, fun h => ⟨h, mem_storedBuckets hsort⟩⟩

/-! ## Short slices -/

/-- The insertion sort keeps what stands before a NaN before it. -/
theorem shiftLeft_append_nan (before after : List Value) :
    insertionSortShiftLeft Value.sortCmp (before ++ .nan :: after) =
      insertionSortShiftLeft Value.sortCmp before ++
        .nan :: insertionSortShiftLeft Value.sortCmp after :=
  insertionSortShiftLeft_append_cons (fun a => by simp [Value.sortCmp_nan_right])
    (fun a => by simp [Value.sortCmp_nan_left]) before after

theorem mem_filterMap_shiftLeft {b : ℚ} :
    b ∈ (insertionSortShiftLeft Value.sortCmp l).filterMap Value.finite? ↔ .finite b ∈ l := by
  rw [mem_filterMap_finite, (perm_insertionSortShiftLeft _ l).mem_iff]

theorem pairwise_shiftLeft_iff (l : List Value) :
    ((insertionSortShiftLeft Value.sortCmp l).filterMap Value.finite?).Pairwise (· ≤ ·) ↔
      ∀ before after, l = before ++ .nan :: after →
        ∀ a b, .finite a ∈ before → .finite b ∈ after → a ≤ b := by
  constructor
  · rintro hsorted before after rfl a b ha hb
    rw [shiftLeft_append_nan, List.filterMap_append, List.filterMap_cons_none rfl,
      List.pairwise_append] at hsorted
    exact hsorted.2.2 a (mem_filterMap_shiftLeft.mpr ha) b (mem_filterMap_shiftLeft.mpr hb)
  · -- from one NaN of the slice to the next
    intro horder
    induction hlength : l.length using Nat.strong_induction_on generalizing l with
    | _ n ih =>
        subst hlength
        by_cases hnan : .nan ∈ l
        · obtain ⟨before, after, rfl, hbefore⟩ := List.eq_append_cons_of_mem hnan
          rw [shiftLeft_append_nan, List.filterMap_append, List.filterMap_cons_none rfl,
            List.pairwise_append]
          refine ⟨?_, ?_, ?_⟩
          · exact pairwise_filterMap_finite
              (Value.orderOn_of_nan_not_mem hbefore).pairwise_insertionSortShiftLeft
          · have hlt : after.length < (before ++ .nan :: after).length := by
              rw [List.length_append, List.length_cons]
              omega
            refine ih after.length hlt after (fun before' after' heq a b ha hb => ?_) rfl
            refine horder (before ++ .nan :: before') after' (by simp [heq]) a b ?_ hb
            exact List.mem_append_right _ (List.mem_cons_of_mem _ ha)
          · intro a ha b hb
            exact horder before after rfl a b (mem_filterMap_shiftLeft.mp ha)
              (mem_filterMap_shiftLeft.mp hb)
        · exact pairwise_filterMap_finite
            (Value.orderOn_of_nan_not_mem hnan).pairwise_insertionSortShiftLeft

/-! ## Long slices -/

theorem not_orderOn {a b : ℚ} (hnan : .nan ∈ l) (ha : .finite a ∈ l) (hb : .finite b ∈ l)
    (hlt : a < b) : ¬ OrderOn Value.sortCmp l := by
  intro horder
  have hle : (Value.finite b).sortCmp (.finite a) ≠ .gt :=
    horder.trans _ hb _ hnan _ ha (by simp [Value.sortCmp_nan_right])
      (by simp [Value.sortCmp_nan_left])
  exact hle (compare_gt_iff_gt.mpr hlt)

/-- A long slice for which the comparison is no order may be left in descending order. -/
theorem exists_sort_descending (hlong : 20 < l.length) (hnot : ¬ OrderOn Value.sortCmp l) :
    ∃ sort, SortUnstableBy Value.sortCmp sort ∧
      (sort l).Pairwise fun a b => b.key ≤ a.key := by
  let descending : List Value := l.insertionSort fun a b => b.key ≤ a.key
  refine ⟨fun l' => if l' = l then descending else insertionSortShiftLeft Value.sortCmp l',
    ⟨fun l' => ?_, fun l' horder => ?_, fun l' hshort => ?_⟩, ?_⟩
  · by_cases heq : l' = l
    · rw [if_pos heq, heq]
      exact List.perm_insertionSort _ _
    · rw [if_neg heq]
      exact perm_insertionSortShiftLeft _ _
  · have hne : l' ≠ l := fun heq => hnot (heq ▸ horder)
    rw [if_neg hne]
    exact horder.pairwise_insertionSortShiftLeft
  · have hne : l' ≠ l := by
      rintro rfl
      omega
    rw [if_neg hne]
  · simp only [if_true]
    have hkey : ∀ a b : Value, b.key ≤ a.key ↔
        OrderDual.toDual a.key ≤ OrderDual.toDual b.key := fun _ _ => Iff.rfl
    exact pairwise_insertionSort_key hkey l

theorem finite_eq_of_descending {sorted : List Value}
    (hdescending : sorted.Pairwise fun a b => b.key ≤ a.key)
    (hascending : (sorted.filterMap Value.finite?).Pairwise (· ≤ ·)) {a b : ℚ}
    (ha : .finite a ∈ sorted) (hb : .finite b ∈ sorted) : a = b := by
  have hge : (sorted.filterMap Value.finite?).Pairwise (fun a b => b ≤ a) := by
    refine List.Pairwise.filterMap _ (fun a b hab v hv w hw => ?_) hdescending
    rw [Value.finite?_eq_some.mp hv, Value.finite?_eq_some.mp hw] at hab
    simpa [Value.key] using hab
  have heq : (sorted.filterMap Value.finite?).Pairwise (· = ·) :=
    (hascending.and hge).imp fun h => le_antisymm h.1 h.2
  exact heq.forall_of_forall (fun _ _ => rfl) (mem_filterMap_finite.mpr ha)
    (mem_filterMap_finite.mpr hb)

/-! ## What is stored -/

/-- The stored bounds are the finite input bounds, strictly increasing, exactly when no
NaN stands between finite bounds that are out of order.  With a NaN among more than 20
bounds the sort may also panic, which its contract leaves out. -/
theorem storesFinite_iff (inputBuckets : Option (List Value)) :
    StoresFinite inputBuckets ↔ InOrderAcrossNan (inputBuckets.getD defaultBuckets) := by
  unfold StoresFinite InOrderAcrossNan
  generalize hbounds : inputBuckets.getD defaultBuckets = bounds
  have hstores : ∀ {sort}, SortUnstableBy Value.sortCmp sort →
      (KeepsFinite inputBuckets (storedBuckets sort inputBuckets) ↔
        ((sort bounds).filterMap Value.finite?).Pairwise (· ≤ ·)) := by
    intro sort hsort
    rw [keepsFinite_iff hsort, hbounds]
  split
  case isTrue hshort =>
      rw [← pairwise_shiftLeft_iff]
      constructor
      · intro hall
        exact (hstores (sortUnstableBy_shiftLeft _)).mp (hall _ (sortUnstableBy_shiftLeft _))
      · intro hsorted sort hsort
        rw [hstores hsort, hsort.short _ hshort]
        exact hsorted
  case isFalse hlong =>
      constructor
      · intro hall hnan a b ha hb
        by_contra hne
        have hnot : ¬ OrderOn Value.sortCmp bounds := by
          rcases lt_or_gt_of_ne hne with hlt | hgt
          · exact not_orderOn hnan ha hb hlt
          · exact not_orderOn hnan hb ha hgt
        obtain ⟨sort, hsort, hdescending⟩ := exists_sort_descending (by omega) hnot
        have hascending := (hstores hsort).mp (hall sort hsort)
        exact hne (finite_eq_of_descending hdescending hascending
          ((hsort.perm _).mem_iff.mpr ha) ((hsort.perm _).mem_iff.mpr hb))
      · intro hequal sort hsort
        rw [hstores hsort]
        by_cases hnan : .nan ∈ bounds
        · refine List.pairwise_of_forall_mem_list fun a ha b hb => ?_
          rw [mem_filterMap_finite, (hsort.perm _).mem_iff] at ha hb
          exact (hequal hnan a b ha hb).le
        · exact pairwise_filterMap_finite (hsort.sorted _ (Value.orderOn_of_nan_not_mem hnan))

/-- What stands on both sides of a NaN stays unsorted. -/
theorem not_storesFinite_nan : ¬ StoresFinite (some [.finite 2, .nan, .finite 1]) := by
  intro hall
  have hkeeps := hall _ (sortUnstableBy_shiftLeft _)
  exact absurd hkeeps.increasing (by decide +kernel)

theorem KeepsFinite.unique {buckets buckets' : List ℚ} (h : KeepsFinite inputBuckets buckets)
    (h' : KeepsFinite inputBuckets buckets') : buckets = buckets' := by
  have hnodup : ∀ {l : List ℚ}, l.Pairwise (· < ·) → l.Nodup :=
    fun hl => hl.imp fun hlt => hlt.ne
  have hperm : buckets.Perm buckets' :=
    (List.perm_ext_iff_of_nodup (hnodup h.increasing) (hnodup h'.increasing)).mpr
      fun b => (h.mem b).trans (h'.mem b).symm
  exact hperm.eq_of_pairwise (fun _ _ _ _ hlt hgt => absurd hgt hlt.asymm) h.increasing
    h'.increasing

/-- Without NaN, every sort that meets its contract leaves the same bounds. -/
theorem storedBuckets_eq_newBuckets (hsort : SortUnstableBy Value.sortCmp sort)
    (hnan : .nan ∉ inputBuckets.getD defaultBuckets) :
    storedBuckets sort inputBuckets = newBuckets inputBuckets := by
  have hstored : KeepsFinite inputBuckets (storedBuckets sort inputBuckets) :=
    (keepsFinite_iff hsort).mpr
      (pairwise_filterMap_finite (hsort.sorted _ (Value.orderOn_of_nan_not_mem hnan)))
  exact hstored.unique ⟨pairwise_newBuckets hnan, fun _ => mem_newBuckets⟩

end Sorted

end SfRs.Metrics
