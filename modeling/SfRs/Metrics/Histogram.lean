import Mathlib.Algebra.Order.Ring.Rat
import Mathlib.Data.List.Destutter
import Mathlib.Order.Compare
import Mathlib.Order.WithBot
import SfRs.Lib.Search
import SfRs.Metrics.Common
/-!
# Histograms

An observation is counted in the first bucket whose bound is not below it.  The counts
are kept per bucket, and the last one takes what lies above all bounds.
-/

namespace SfRs.Metrics

open SfRs.Lib

/-- An `f64`, the finite ones as exact numbers. -/
inductive Value where
  | nan
  | negInf
  | finite (v : ℚ)
  | posInf
  deriving DecidableEq

namespace Value

def partialCmp : Value → Value → Option Ordering
  | nan, _ | _, nan => none
  | negInf, negInf | posInf, posInf => some .eq
  | negInf, _ | _, posInf => some .lt
  | posInf, _ | _, negInf => some .gt
  | finite v, finite w => some (compare v w)

def finite? : Value → Option ℚ
  | finite v => some v
  | _ => none

/-- The order that bounds are sorted by. -/
def NotAfter (a b : Value) : Prop := (a.partialCmp b).getD .eq ≠ .gt

instance : DecidableRel NotAfter := fun a b =>
  inferInstanceAs (Decidable ((a.partialCmp b).getD .eq ≠ .gt))

end Value

structure HistogramAtomics (F : Type*) (numBuckets : Nat) where
  bucketCounts : Vector UInt64 (numBuckets + 1)
  sum : F
  count : UInt64

inductive HistogramWarning where
  | nonFinite (v : Value)
  | outOfBounds (bucketIndex numBuckets : Nat) (v : ℚ)

def defaultBuckets : List Value :=
  [1 / 200, 1 / 100, 1 / 40, 1 / 20, 1 / 10, 1 / 4, 1 / 2, 1, 5 / 2, 5, 10].map .finite

/-- The bounds that `HistogramStorage::new` keeps. -/
def newBuckets (inputBuckets : Option (List Value)) : List ℚ :=
  (((inputBuckets.getD defaultBuckets).insertionSort Value.NotAfter).filterMap
    Value.finite?).destutter (· ≠ ·)

def bucketIndex (buckets : List ℚ) (v : ℚ) : Nat :=
  match binarySearchBy buckets fun probe => compare probe v with
  | .ok i => i
  | .error insertionPoint => insertionPoint

namespace HistogramAtomics

def new (numBuckets : Nat) : HistogramAtomics ℚ numBuckets where
  bucketCounts := .replicate _ 0
  sum := 0
  count := 0

def increment {F : Type*} {n : Nat} (atomics : HistogramAtomics F n) (i : Fin (n + 1)) :
    Vector UInt64 (n + 1) :=
  atomics.bucketCounts.set i (atomics.bucketCounts[i] + 1)

/-- `InMemoryHistogram::observe`. -/
def observe {buckets : List ℚ} (atomics : HistogramAtomics ℚ buckets.length) :
    Value → HistogramAtomics ℚ buckets.length × List HistogramWarning
  | .finite v =>
      let index := bucketIndex buckets v
      let r :=
        if h : index < buckets.length + 1 then (atomics.increment ⟨index, h⟩, [])
        else (atomics.increment (.last _), [.outOfBounds index buckets.length v])
      ({ bucketCounts := r.1, sum := atomics.sum + v, count := atomics.count + 1 }, r.2)
  | v => (atomics, [.nonFinite v])

/-- The atomics of a series after the finite observations `vs`. -/
def observed (buckets vs : List ℚ) : HistogramAtomics ℚ buckets.length :=
  vs.foldl (fun atomics v => (atomics.observe (.finite v)).1) (new _)

end HistogramAtomics

/-! ## The bounds -/

theorem mem_destutter' {α : Type*} [DecidableEq α] {a b : α} {l : List α} :
    a ∈ l.destutter' (· ≠ ·) b ↔ a = b ∨ a ∈ l := by
  induction l generalizing b with
  | nil => simp
  | cons c l ih =>
      by_cases hne : b ≠ c
      · rw [List.destutter'_cons_pos _ hne, List.mem_cons, ih, List.mem_cons]
      · rw [List.destutter'_cons_neg _ hne, ih, List.mem_cons, not_not.mp hne]
        simp

theorem mem_destutter {α : Type*} [DecidableEq α] {a : α} {l : List α} :
    a ∈ l.destutter (· ≠ ·) ↔ a ∈ l := by
  cases l with
  | nil => rfl
  | cons b l => rw [List.destutter_cons', mem_destutter', List.mem_cons]

/-- The finite bounds of a layout are the bounds that are kept. -/
theorem mem_newBuckets {inputBuckets : Option (List Value)} {b : ℚ} :
    b ∈ newBuckets inputBuckets ↔ .finite b ∈ inputBuckets.getD defaultBuckets := by
  have hfinite : ∀ v : Value, v.finite? = some b ↔ v = .finite b := by
    intro v
    cases v <;> simp [Value.finite?]
  simp [newBuckets, mem_destutter, List.mem_filterMap, hfinite]

/-- The place of a number that is not NaN on the extended line. -/
def Value.key : Value → WithBot (WithTop ℚ)
  | nan | negInf => ⊥
  | finite v => ((v : WithTop ℚ) : WithBot (WithTop ℚ))
  | posInf => ((⊤ : WithTop ℚ) : WithBot (WithTop ℚ))

theorem Value.notAfter_iff {a b : Value} (ha : a ≠ .nan) (hb : b ≠ .nan) :
    a.NotAfter b ↔ a.key ≤ b.key := by
  unfold NotAfter
  cases a <;> cases b
  case finite.finite v w => simp [partialCmp, key, compare_gt_iff_gt]
  all_goals first | contradiction | simp [partialCmp, key]

theorem pairwise_newBuckets {inputBuckets : Option (List Value)}
    (hnan : .nan ∉ inputBuckets.getD defaultBuckets) :
    (newBuckets inputBuckets).Pairwise (· < ·) := by
  set layout := inputBuckets.getD defaultBuckets
  have hkeys : ((layout.insertionSort Value.NotAfter).map Value.key).Pairwise (· ≤ ·) := by
    rw [List.map_insertionSort Value.NotAfter (· ≤ ·) Value.key layout fun a ha b hb =>
      Value.notAfter_iff (ne_of_mem_of_not_mem ha hnan) (ne_of_mem_of_not_mem hb hnan)]
    exact List.pairwise_insertionSort _ _
  have hsorted : ((layout.insertionSort Value.NotAfter).filterMap Value.finite?).Pairwise
      (· ≤ ·) := by
    refine (List.pairwise_map.mp hkeys).filterMap _ fun a b hle v hv w hw => ?_
    cases a <;> cases b <;> simp_all [Value.finite?, Value.key]
  have hle : (newBuckets inputBuckets).IsChain (· ≤ ·) :=
    (hsorted.sublist (List.destutter_sublist _ _)).isChain
  have hne : (newBuckets inputBuckets).IsChain (· ≠ ·) := List.isChain_destutter _ _
  rw [← List.isChain_iff_pairwise]
  rw [List.isChain_iff_getElem] at hle hne ⊢
  exact fun i hi => lt_of_le_of_ne (hle i hi) (hne i hi)

/-! ## The bucket of an observation -/

variable {buckets : List ℚ} {v : ℚ} {i : Nat}

theorem ascending_orderAt (hbuckets : buckets.Pairwise (· < ·)) (v : ℚ) :
    Ascending (orderAt (fun probe => compare probe v) buckets) := by
  intro i j hij
  rcases Nat.lt_or_ge j buckets.length with hj | hj
  · have hi : i < buckets.length := by omega
    have hle : buckets[i] ≤ buckets[j] := by
      rcases hij.lt_or_eq with hlt | rfl
      · exact (List.pairwise_iff_getElem.mp hbuckets i j hi hj hlt).le
      · exact le_rfl
    rw [orderAt_of_lt hi, orderAt_of_lt hj, compare_gt_iff_gt, compare_gt_iff_gt,
      compare_lt_iff_lt, compare_lt_iff_lt]
    exact ⟨fun h => h.trans_le hle, fun h => hle.trans_lt h⟩
  · rw [orderAt_of_le hj]
    simp

/-- The buckets before the one that counts `v` have bounds below `v`, and the bounds
from it on are not below. -/
theorem bucketIndex_le_iff (hbuckets : buckets.Pairwise (· < ·)) (hi : i < buckets.length) :
    bucketIndex buckets v ≤ i ↔ v ≤ buckets[i] := by
  have hcmp := ascending_orderAt hbuckets v
  obtain ⟨hok, herror⟩ := binarySearchBy_spec hcmp
  have horder : ∀ {o}, orderAt (fun probe => compare probe v) buckets i = o ↔
      compare buckets[i] v = o := by
    intro o
    rw [orderAt_of_lt hi]
  unfold bucketIndex
  cases hsearch : binarySearchBy buckets fun probe => compare probe v with
  | ok index =>
      have heq := hok index hsearch
      have hindex : index < buckets.length := by
        by_contra hge
        simp [orderAt_of_le (Nat.le_of_not_lt hge)] at heq
      rw [orderAt_of_lt hindex, compare_eq_iff_eq] at heq
      simp only
      rw [← heq]
      constructor
      · intro hle
        rcases hle.lt_or_eq with hlt | rfl
        · exact (List.pairwise_iff_getElem.mp hbuckets index i hindex hi hlt).le
        · exact le_rfl
      · intro hle
        by_contra hlt
        have := List.pairwise_iff_getElem.mp hbuckets i index hi hindex (Nat.lt_of_not_le hlt)
        exact absurd hle this.not_ge
  | error index =>
      obtain ⟨hbefore, hfrom⟩ := herror index hsearch
      simp only
      constructor
      · intro hle
        exact (compare_gt_iff_gt.mp (horder.mp (hfrom i hle))).le
      · intro hle
        by_contra hlt
        have := compare_lt_iff_lt.mp (horder.mp (hbefore i (Nat.lt_of_not_le hlt)))
        exact absurd hle this.not_ge

theorem bucketIndex_le_length (hbuckets : buckets.Pairwise (· < ·)) (v : ℚ) :
    bucketIndex buckets v ≤ buckets.length := by
  obtain ⟨hok, herror⟩ := binarySearchBy_spec (ascending_orderAt hbuckets v)
  unfold bucketIndex
  cases hsearch : binarySearchBy buckets fun probe => compare probe v with
  | ok index =>
      by_contra hge
      have := hok index hsearch
      simp [orderAt_of_le (Nat.le_of_not_le hge)] at this
  | error index =>
      by_contra hge
      have := (herror index hsearch).1 buckets.length (Nat.lt_of_not_le hge)
      simp [orderAt_of_le] at this

/-! ## The counts of a series -/

namespace HistogramAtomics

variable {vs : List ℚ}

theorem getElem_increment {F : Type*} {n : Nat} (atomics : HistogramAtomics F n)
    (i j : Fin (n + 1)) :
    (atomics.increment i)[j] = atomics.bucketCounts[j] + if i = j then 1 else 0 := by
  rcases eq_or_ne i j with rfl | hne
  · simp [increment]
  · have : (i : Nat) ≠ j := fun h => hne (Fin.ext h)
    simp [increment, hne, Vector.getElem_set_ne _ _ this]

/-- A finite observation is counted in its bucket, and never out of bounds. -/
theorem observe_finite (hbuckets : buckets.Pairwise (· < ·))
    (atomics : HistogramAtomics ℚ buckets.length) (v : ℚ) :
    atomics.observe (.finite v) =
      ({ bucketCounts := atomics.increment
            ⟨bucketIndex buckets v, Nat.lt_succ_of_le (bucketIndex_le_length hbuckets v)⟩
         sum := atomics.sum + v
         count := atomics.count + 1 }, []) := by
  simp only [observe, Nat.lt_succ_of_le (bucketIndex_le_length hbuckets v), dif_pos]

theorem observed_concat (vs : List ℚ) (v : ℚ) :
    observed buckets (vs ++ [v]) = ((observed buckets vs).observe (.finite v)).1 :=
  List.foldl_concat ..

theorem count_observed (buckets vs : List ℚ) :
    (observed buckets vs).count = UInt64.ofNat vs.length := by
  induction vs using List.reverseRecOn with
  | nil => rfl
  | append_singleton vs v ih =>
      have hcount : (observed buckets (vs ++ [v])).count = (observed buckets vs).count + 1 := by
        rw [observed_concat]
        rfl
      rw [hcount, ih, List.length_append, UInt64.ofNat_add]
      rfl

theorem bucketCounts_observed (hbuckets : buckets.Pairwise (· < ·)) (vs : List ℚ)
    (i : Fin (buckets.length + 1)) :
    (observed buckets vs).bucketCounts[i] =
      UInt64.ofNat (vs.countP fun v => bucketIndex buckets v = i) := by
  induction vs using List.reverseRecOn with
  | nil => simp [observed, new]
  | append_singleton vs v ih =>
      rw [observed_concat, observe_finite hbuckets, getElem_increment, ih, List.countP_append,
        UInt64.ofNat_add]
      by_cases hindex : bucketIndex buckets v = i
      · simp [hindex]
      · simp [Fin.ext_iff, hindex]

end HistogramAtomics

end SfRs.Metrics
