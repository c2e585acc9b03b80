import Mathlib.Data.Finset.Dedup
import Mathlib.Data.Finset.Insert
import Mathlib.Data.List.Sort
import Mathlib.Data.String.Basic
/-!
# Label sets

A label set is kept as a list sorted by key, so that the same labels in another order
are the same `LabelKey`.  Strings compare as their UTF-8 bytes do.
-/

namespace SfRs.Metrics

abbrev Labels := List (String × String)

structure LabelKey where
  labels : Labels
  deriving DecidableEq

/-- The comparison that labels are sorted by. -/
def ByKey (a b : String × String) : Prop := a.1 ≤ b.1

instance : DecidableRel ByKey := fun a b => inferInstanceAs (Decidable (a.1 ≤ b.1))

instance : Std.Total ByKey := ⟨fun a b => le_total a.1 b.1⟩

instance : IsTrans (String × String) ByKey := ⟨fun _ _ _ => le_trans⟩

namespace LabelKey

def empty : LabelKey := ⟨[]⟩

/-- The insertion sort gives what `sort_unstable_by` does if the keys are distinct.  Where a
key is repeated it does so up to 20 labels, and more may come out in another order. -/
def new (labels : Labels) : LabelKey :=
  if labels.isEmpty then empty
  else ⟨labels.insertionSort ByKey⟩

/-- The keys are pairwise distinct and in order. -/
def Canonical (key : LabelKey) : Prop := key.labels.Pairwise fun a b => a.1 < b.1

end LabelKey

def DistinctKeys (labels : Labels) : Prop := (labels.map Prod.fst).Nodup

instance (labels : Labels) : Decidable (DistinctKeys labels) :=
  inferInstanceAs (Decidable (labels.map Prod.fst).Nodup)

theorem labels_new (labels : Labels) :
    (LabelKey.new labels).labels = labels.insertionSort ByKey := by
  unfold LabelKey.new
  split
  case isTrue hempty =>
      rw [List.isEmpty_iff.mp hempty]
      rfl
  case isFalse => rfl

theorem labels_new_perm (labels : Labels) : (LabelKey.new labels).labels.Perm labels := by
  rw [labels_new]
  exact List.perm_insertionSort _ _

theorem toFinset_new (labels : Labels) :
    (LabelKey.new labels).labels.toFinset = labels.toFinset :=
  List.toFinset_eq_of_perm _ _ (labels_new_perm labels)

@[simp] theorem toFinset_empty : LabelKey.empty.labels.toFinset = ∅ := rfl

theorem canonical_empty : LabelKey.empty.Canonical := List.Pairwise.nil

theorem canonical_new {labels : Labels} (hdistinct : DistinctKeys labels) :
    (LabelKey.new labels).Canonical := by
  have hsorted : (LabelKey.new labels).labels.Pairwise ByKey := by
    rw [labels_new]
    exact List.pairwise_insertionSort ByKey labels
  have hnodup : ((LabelKey.new labels).labels.map Prod.fst).Nodup :=
    ((labels_new_perm labels).map Prod.fst).nodup_iff.mpr hdistinct
  rw [List.Nodup, List.pairwise_map] at hnodup
  exact (hsorted.and hnodup).imp fun h => lt_of_le_of_ne h.1 h.2

/-- A label set has one canonical form. -/
theorem LabelKey.Canonical.eq_of_toFinset {key key' : LabelKey} (h : key.Canonical)
    (h' : key'.Canonical) (heq : key.labels.toFinset = key'.labels.toFinset) : key = key' := by
  have hnodup : ∀ {key : LabelKey}, key.Canonical → key.labels.Nodup := by
    intro key hkey
    exact hkey.imp fun hlt heq => absurd (congrArg Prod.fst heq) hlt.ne
  have hperm : key.labels.Perm key'.labels :=
    List.perm_of_nodup_nodup_toFinset_eq (hnodup h) (hnodup h') heq
  have hlabels : key.labels = key'.labels :=
    List.Perm.eq_of_pairwise (fun _ _ _ _ hlt hgt => absurd hgt hlt.asymm) h h' hperm
  cases key
  cases key'
  exact congrArg LabelKey.mk hlabels

end SfRs.Metrics
