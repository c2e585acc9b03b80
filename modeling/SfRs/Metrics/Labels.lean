import SfRs.Lib.Sort
import SfRs.Metrics.ReadBack
/-!
# Label keys and label blocks

Labels are sorted by key and not by value, so that two pairs with the same key stay in
the order in which they were passed.  A label block names every label unambiguously: the
key ends at the first equals sign and the value at the first quote that is not escaped.
-/

namespace SfRs.Metrics

open SfRs.Lib

/-! ## The order of the labels -/

/-- A call that `Hash::hash` makes on the hasher. -/
inductive HasherWrite where
  | lengthPrefix (n : Nat)
  | bytes (bytes : ByteArray)
  | u8 (byte : UInt8)

/-- `Hash for str`. -/
def hashStr (s : String) : List HasherWrite := [.bytes s.toUTF8, .u8 0xff]

namespace LabelKey

/-- `Hash for LabelKey`: what it feeds to the hasher. -/
def hash (key : LabelKey) : List HasherWrite :=
  .lengthPrefix key.labels.length ::
    key.labels.flatMap fun label => hashStr label.1 ++ hashStr label.2

theorem labels_inj {key key' : LabelKey} : key.labels = key'.labels ↔ key = key' := by
  cases key
  cases key'
  rw [LabelKey.mk.injEq]

/-- Keys that feed the same data to the hasher are equal. -/
theorem hash_inj {key key' : LabelKey} : key.hash = key'.hash ↔ key = key' := by
  refine ⟨fun h => ?_, congrArg hash⟩
  rw [← labels_inj]
  have hpairs := (List.cons.inj h).2
  clear h
  generalize key.labels = labels at hpairs ⊢
  generalize key'.labels = labels' at hpairs ⊢
  induction labels generalizing labels' with
  | nil =>
      cases labels' with
      | nil => rfl
      | cons label labels' => simp [hashStr] at hpairs
  | cons label labels ih =>
      cases labels' with
      | nil => simp [hashStr] at hpairs
      | cons label' labels' =>
          simp only [hashStr, List.flatMap_cons, List.cons_append, List.nil_append,
            List.cons.injEq, HasherWrite.bytes.injEq, true_and] at hpairs
          obtain ⟨hkey, hvalue, hrest⟩ := hpairs
          have hlabel : label = label' :=
            Prod.ext (String.toByteArray_inj.mp hkey) (String.toByteArray_inj.mp hvalue)
          rw [hlabel, ih labels' hrest]

/-- The keys of two slices are equal, and feed the same to the hasher, exactly when one
slice is a permutation of the other. -/
def OrderIrrelevant (labels labels' : Labels) : Prop :=
  (new labels = new labels' ↔ labels.Perm labels') ∧
    ((new labels).hash = (new labels').hash ↔ labels.Perm labels')

end LabelKey

/-- The pairs with the given key, in their order. -/
def pairsOf (key : String) (labels : Labels) : Labels :=
  labels.filter fun label => label.1 = key

variable {labels labels' : Labels}

theorem byKey_iff (a b : String × String) : ByKey a b ↔ a.1 ≤ b.1 := Iff.rfl

theorem new_eq_iff :
    LabelKey.new labels = LabelKey.new labels' ↔
      ∀ key, pairsOf key labels = pairsOf key labels' := by
  rw [← LabelKey.labels_inj, labels_new, labels_new]
  exact insertionSort_eq_iff byKey_iff

/-- The labels of a key are in the order that shifting them to the left gives. -/
theorem labels_new_eq_shiftLeft (labels : Labels) :
    (LabelKey.new labels).labels =
      insertionSortShiftLeft (fun a b => compare a.1 b.1) labels := by
  rw [labels_new, insertionSortShiftLeft_key (fun _ _ => rfl) byKey_iff]

theorem perm_of_new_eq (h : LabelKey.new labels = LabelKey.new labels') :
    labels.Perm labels' := by
  refine (labels_new_perm labels).symm.trans ?_
  rw [h]
  exact labels_new_perm labels'

/-- The order of the labels is irrelevant unless the slices differ in the order of the
values of one key.  Slices of more than 20 labels are taken to be sorted by insertion, which
`std` only does up to that length. -/
theorem orderIrrelevant_iff (labels labels' : Labels) :
    LabelKey.OrderIrrelevant labels labels' ↔
      (labels.Perm labels' → ∀ key, pairsOf key labels = pairsOf key labels') := by
  rw [LabelKey.OrderIrrelevant, LabelKey.hash_inj, and_self]
  constructor
  · intro h hperm
    exact new_eq_iff.mp (h.mpr hperm)
  · intro h
    exact ⟨perm_of_new_eq, fun hperm => new_eq_iff.mpr (h hperm)⟩

/-- The same two labels in another order are another key. -/
theorem not_orderIrrelevant_repeated :
    ¬ LabelKey.OrderIrrelevant [("a", "1"), ("a", "2")] [("a", "2"), ("a", "1")] := by
  intro h
  have heq := h.1.mpr (List.Perm.swap _ _ _)
  exact absurd heq (by decide)

theorem pairsOf_eq_of_distinct (hdistinct : DistinctKeys labels) (hperm : labels.Perm labels')
    (key : String) : pairsOf key labels = pairsOf key labels' := by
  have hlength : (pairsOf key labels).length ≤ 1 := by
    have hnodup : ((pairsOf key labels).map Prod.fst).Nodup :=
      hdistinct.sublist (List.filter_sublist.map _)
    have hall : ∀ k ∈ (pairsOf key labels).map Prod.fst, k = key := by
      intro k hk
      obtain ⟨label, hlabel, rfl⟩ := List.mem_map.mp hk
      simpa using (List.mem_filter.mp hlabel).2
    have hreplicate := List.eq_replicate_of_mem hall
    rw [hreplicate, List.nodup_replicate, List.length_map] at hnodup
    exact hnodup
  have hfiltered : (pairsOf key labels).Perm (pairsOf key labels') := hperm.filter _
  rcases Nat.le_one_iff_eq_zero_or_eq_one.mp hlength with hzero | hone
  · rw [List.length_eq_zero_iff.mp hzero, List.nil_perm] at hfiltered
    rw [List.length_eq_zero_iff.mp hzero, hfiltered]
  · obtain ⟨label, hlabel⟩ := List.length_eq_one_iff.mp hone
    rw [hlabel, List.singleton_perm] at hfiltered
    rw [hlabel, hfiltered]

/-- With distinct keys the order of the labels is irrelevant. -/
theorem new_eq_of_perm (hdistinct : DistinctKeys labels) (hperm : labels.Perm labels') :
    LabelKey.new labels = LabelKey.new labels' :=
  new_eq_iff.mpr fun key => pairsOf_eq_of_distinct hdistinct hperm key

/-! ## Reading a label block -/

/-- A label whose key is everything up to the equals sign. -/
def readRawLabel : Reader (String × String) := fun cs =>
  (readUntil '=' cs).bind fun r =>
    (labelEscaping.read r.2).map fun q => ((.ofList r.1, .ofList q.1), q.2)

/-- The labels of a block that is followed by a closing brace. -/
def decodeLabels (block : String) : Option Labels :=
  if block.isEmpty then some []
  else
    let cs := block.toList ++ ['\x7d']
    (readSeq readRawLabel '\x7d' cs.length cs).bind fun r =>
      if r.2 = [] then some r.1 else none

def PlainKeys (labels : Labels) : Prop := ∀ label ∈ labels, '=' ∉ label.1.toList

instance (labels : Labels) : Decidable (PlainKeys labels) :=
  inferInstanceAs (Decidable (∀ label ∈ labels, '=' ∉ label.1.toList))

theorem readRawLabel_labelText {label : String × String} (hkey : '=' ∉ label.1.toList)
    (rest : List Char) : readRawLabel (labelText label ++ rest) = some (label, rest) := by
  rw [labelText, toList_formatLabel, List.append_assoc, List.cons_append]
  simp [readRawLabel, readUntil_append hkey, lawful_labelEscaping.read_write]

theorem labelText_ne_nil (label : String × String) : labelText label ≠ [] := by
  simp [labelText, toList_formatLabel]

theorem decodeLabels_of_plainKeys (hkeys : PlainKeys labels) :
    decodeLabels (formatLabels labels) = some labels := by
  cases labels with
  | nil => rfl
  | cons label labels =>
      have htext := toList_formatLabels (label :: labels)
      have hne : (formatLabels (label :: labels)).isEmpty = false := by
        obtain ⟨tail, htail⟩ : ∃ tail, writeSeq labelText (label :: labels) =
            labelText label ++ tail := exists_writeSeq_eq label labels
        rw [Bool.eq_false_iff, Ne, String.isEmpty_iff, ← String.toList_eq_nil_iff, htext, htail]
        simp [labelText_ne_nil]
      have hread : ∀ l ∈ label :: labels, ∀ c rest, c = ',' ∨ c = '\x7d' →
          readRawLabel (labelText l ++ c :: rest) = some (l, c :: rest) :=
        fun l hl _ _ _ => readRawLabel_labelText (hkeys l hl) _
      have hfuel : (label :: labels).length ≤
          (writeSeq labelText (label :: labels) ++ ['\x7d']).length := by
        rw [List.length_append]
        exact Nat.le_trans (length_le_writeSeq fun l _ => labelText_ne_nil l)
          (Nat.le_add_right _ _)
      simp only [decodeLabels, hne, htext]
      rw [readSeq_writeSeq (by decide) (List.cons_ne_nil _ _) hread hfuel []]
      rfl

/-- Every label block whose keys have no equals sign is decoded, and so no two lists of
labels have the same block. -/
theorem formatLabels_decodes :
    (∀ labels, PlainKeys labels → decodeLabels (formatLabels labels) = some labels) ∧
    ∀ labels labels', PlainKeys labels → PlainKeys labels' →
      formatLabels labels = formatLabels labels' → labels = labels' := by
  refine ⟨fun labels hkeys => decodeLabels_of_plainKeys hkeys, ?_⟩
  intro labels labels' hkeys hkeys' heq
  have hdecode := decodeLabels_of_plainKeys hkeys
  rw [heq, decodeLabels_of_plainKeys hkeys'] at hdecode
  exact (Option.some.inj hdecode).symm

/-- Labels with quotes, commas, backslashes and braces in their keys and values. -/
def awkward : Labels := [("a,\"", "x\\\",b="), ("", ""), ("\\\x7b", "\",c=\"")]

/-- Their block is read back, and fewer labels with more text in a value have another. -/
theorem formatLabels_decodes_awkward :
    formatLabels awkward =
        "a,\"=\"x\\\\\\\",b=\",=\"\",\\\x7b=\"\\\",c=\\\"\"" ∧
      decodeLabels (formatLabels awkward) = some awkward ∧
      formatLabels awkward ≠ formatLabels [("a,\"", "x\\\",b=\",=\""), ("\\\x7b", "\",c=\"")] := by
  have hkeys : PlainKeys awkward := by decide +kernel
  refine ⟨by decide +kernel, formatLabels_decodes.1 awkward hkeys, fun heq => ?_⟩
  have hlabels := formatLabels_decodes.2 _ _ hkeys (by decide +kernel) heq
  exact absurd hlabels (by decide +kernel)

end SfRs.Metrics
