import SfRs.Lib.Text
import SfRs.Metrics.Export
/-!
# Reading the export back

The reader splits the text at newlines and reads each line as `name{labels} value`.  What
it needs of the numbers is that the text of each is read back, and that it holds no
quote, backslash or newline.
-/

namespace SfRs.Metrics

open SfRs.Lib

/-! ## The samples of the stores -/

/-- What an exported line ends in. -/
inductive Number (F : Type*) where
  | float (v : F)
  | count (n : UInt64)

structure Sample (V : Type*) where
  name : String
  labels : Labels
  value : V
  deriving DecidableEq

section Samples

variable {F : Type*} (display : F → String)

def Number.text : Number F → String
  | float v => display v
  | count n => toString n

def valueSamples (metrics : List (String × List (LabelKey × F))) : List (Sample (Number F)) :=
  metrics.flatMap fun metric =>
    metric.2.map fun entry => ⟨metric.1, entry.1.labels, .float entry.2⟩

def bucketSample (name boundary : String) (labels : Labels) (n : UInt64) : Sample (Number F) :=
  ⟨name ++ "_bucket", ("le", boundary) :: labels, .count n⟩

/-- One count, one sum, and a bucket for each bound and one more. -/
def seriesSamples {buckets : List F} (name : String)
    (entry : LabelKey × HistogramAtomics F buckets.length) : List (Sample (Number F)) :=
  [⟨name ++ "_count", entry.1.labels, .count entry.2.count⟩,
    ⟨name ++ "_sum", entry.1.labels, .float entry.2.sum⟩] ++
    (entry.2.bucketSamples.map fun e =>
      bucketSample name (display e.1) entry.1.labels e.2) ++
    [bucketSample name "+Inf" entry.1.labels entry.2.infBucketCount]

def histogramSamples (metrics : List (String × HistogramStorage F)) :
    List (Sample (Number F)) :=
  metrics.flatMap fun metric => metric.2.data.flatMap (seriesSamples display metric.1)

def Stores.samples (stores : Stores F) : List (Sample (Number F)) :=
  valueSamples stores.counters ++ valueSamples stores.gauges ++
    histogramSamples display stores.histograms

end Samples

/-! ## The reader -/

def isIdentifierStart (c : Char) : Bool := c.isAlpha || c == '_' || c == '.'

def isIdentifierRest (c : Char) : Bool := c.isAlphanum || c == '_' || c == '.'

/-- `[A-Za-z_.][A-Za-z0-9_.]*` -/
def isIdentifier : List Char → Bool
  | [] => false
  | c :: cs => isIdentifierStart c && cs.all isIdentifierRest

def readIdentifier (stop : Char) : Reader String := fun cs =>
  (readUntil stop cs).bind fun r =>
    if isIdentifier r.1 then some (.ofList r.1, r.2) else none

/-- The escapes of label values. -/
def labelEscaping : Escaping where
  quote := '"'
  encode c := if c = '\\' then ['\\', '\\'] else if c = '"' then ['\\', '"'] else [c]
  decode
    | '\\' :: '\\' :: cs => some ('\\', cs)
    | '\\' :: '"' :: cs => some ('"', cs)
    | '\\' :: _ => none
    | c :: cs => some (c, cs)
    | [] => none

def readLabel : Reader (String × String) := fun cs =>
  (readIdentifier '=' cs).bind fun r =>
    (labelEscaping.read r.2).map fun q => ((r.1, .ofList q.1), q.2)

/-- The texts of numbers, and how a reader takes them. -/
structure NumberFormat (F V : Type*) where
  display : F → String
  read : String → Option V
  value : Number F → V

/-- Each text is read as the number that it stands for, and can stand between quotes. -/
structure NumberFormat.Lawful {F V : Type*} (t : NumberFormat F V) : Prop where
  read_text : ∀ n, t.read (n.text t.display) = some (t.value n)
  plain : ∀ v, ∀ c ∈ (t.display v).toList, c ≠ '"' ∧ c ≠ '\\' ∧ c ≠ '\n'

section Read

variable {F V : Type*} (t : NumberFormat F V)

def readLine (cs : List Char) : Option (Sample V) :=
  (readIdentifier '\x7b' cs).bind fun r =>
    (readList readLabel '\x7d' r.2).bind fun q =>
      match q.2 with
      | ' ' :: rest => (t.read (.ofList rest)).map fun v => ⟨r.1, q.1, v⟩
      | _ => none

/-- Neither empty nor a comment. -/
def significant (cs : List Char) : Bool := !cs.isEmpty && cs.head? != some '#'

def readBack (text : String) : Option (List (Sample V)) :=
  ((text.toList.splitOn '\n').filter significant).mapM (readLine t)

end Read

/-! ## Labels -/

theorem lawful_labelEscaping : labelEscaping.Lawful where
  decode_encode := by
    intro c rest
    by_cases hslash : c = '\\'
    · simp [labelEscaping, hslash]
    · by_cases hquote : c = '"'
      · simp [labelEscaping, hquote]
      · simp [labelEscaping, hslash, hquote]
  head?_encode := by
    intro c
    by_cases hslash : c = '\\'
    · exact ⟨'\\', by simp [labelEscaping, hslash]⟩
    · by_cases hquote : c = '"'
      · exact ⟨'\\', by simp [labelEscaping, hquote]⟩
      · exact ⟨c, by simp [labelEscaping, hslash, hquote]⟩

theorem toList_escape (value : String) :
    (escape value).toList = value.toList.flatMap labelEscaping.encode := by
  have hpasses : ∀ c : Char,
      (if c = '\\' then "\\\\".toList else [c]).flatMap
        (fun d => if d = '"' then "\\\"".toList else [d]) = labelEscaping.encode c := by
    intro c
    by_cases hslash : c = '\\'
    · simp [labelEscaping, hslash]
    · by_cases hquote : c = '"'
      · simp [labelEscaping, hquote]
      · simp [labelEscaping, hslash, hquote]
  simp only [escape, replace, String.toList_ofList, List.flatMap_assoc, hpasses]

theorem toList_formatLabel (label : String × String) :
    (formatLabel label).toList =
      label.1.toList ++ '=' :: labelEscaping.write label.2.toList := by
  simp [formatLabel, toList_escape, Escaping.write, labelEscaping]

theorem isIdentifierRest_of_start {c : Char} (h : isIdentifierStart c) :
    isIdentifierRest c := by
  simp only [isIdentifierStart, isIdentifierRest, Char.isAlphanum, Bool.or_eq_true] at h ⊢
  tauto

theorem not_mem_of_isIdentifier {cs : List Char} {stop : Char} (h : isIdentifier cs)
    (hstop : isIdentifierRest stop = false) : stop ∉ cs := by
  cases cs with
  | nil => exact List.not_mem_nil
  | cons c cs =>
      obtain ⟨hfirst, hrest⟩ : isIdentifierStart c ∧ ∀ d ∈ cs, isIdentifierRest d := by
        simpa [isIdentifier] using h
      rintro (_ | ⟨_, hmem⟩)
      · rw [isIdentifierRest_of_start hfirst] at hstop
        exact Bool.noConfusion hstop
      · rw [hrest stop hmem] at hstop
        exact Bool.noConfusion hstop

theorem readIdentifier_append (stop : Char) (hstop : isIdentifierRest stop = false)
    {name : String} (hname : isIdentifier name.toList) (rest : List Char) :
    readIdentifier stop (name.toList ++ stop :: rest) = some (name, rest) := by
  simp [readIdentifier, readUntil_append (not_mem_of_isIdentifier hname hstop), hname]

theorem readLabel_formatLabel {label : String × String} (hlabel : isIdentifier label.1.toList)
    (rest : List Char) :
    readLabel ((formatLabel label).toList ++ rest) = some (label, rest) := by
  rw [toList_formatLabel, List.append_assoc, List.cons_append]
  simp [readLabel, readIdentifier_append '=' (by decide) hlabel, lawful_labelEscaping.read_write]

/-- A label whose value is not closed is not read. -/
theorem readLabel_open {key : String} (hkey : isIdentifier key.toList) (value : List Char) :
    readLabel (key.toList ++ '=' :: '"' :: value.flatMap labelEscaping.encode) = none := by
  have hopen : labelEscaping.read ('"' :: value.flatMap labelEscaping.encode) = none :=
    lawful_labelEscaping.read_open value
  simp [readLabel, readIdentifier_append '=' (by decide) hkey, hopen]

def Keys (labels : Labels) : Prop := ∀ label ∈ labels, isIdentifier label.1.toList

variable {labels : Labels} {rest : List Char}

def labelText (label : String × String) : List Char := (formatLabel label).toList

theorem toList_formatLabels (labels : Labels) :
    (formatLabels labels).toList = writeSeq labelText labels := by
  simp only [formatLabels, String.toList_intercalate, List.map_map, writeSeq]
  rfl

theorem readLabel_labelText (hkeys : Keys labels) :
    ∀ label ∈ labels, ∀ c rest, c = ',' ∨ c = '\x7d' →
      readLabel (labelText label ++ c :: rest) = some (label, c :: rest) :=
  fun label hlabel _ _ _ => readLabel_formatLabel (hkeys label hlabel) _

/-! ## Lines -/

namespace Sample

/-- The names that the format can carry. -/
structure Identifiers {V : Type*} (s : Sample V) : Prop where
  name : isIdentifier s.name.toList
  labels : Keys s.labels

def OneLine {V : Type*} (s : Sample V) : Prop := ∀ label ∈ s.labels, '\n' ∉ label.2.toList

def content {F : Type*} (display : F → String) (s : Sample (Number F)) : String :=
  s.name ++ "\x7b" ++ formatLabels s.labels ++ "\x7d " ++ s.value.text display

end Sample

theorem head?_identifier {name : List Char} (hname : isIdentifier name) (rest : List Char) :
    ∃ c, (name ++ rest).head? = some c ∧ c ≠ '\x7d' := by
  cases name with
  | nil => exact Bool.noConfusion hname
  | cons c cs =>
      refine ⟨c, rfl, ?_⟩
      rintro rfl
      simp [isIdentifier, isIdentifierStart] at hname

section Lines

variable {F V : Type*} {t : NumberFormat F V} {s : Sample (Number F)}

theorem toList_content (display : F → String) (s : Sample (Number F)) :
    (s.content display).toList =
      s.name.toList ++ '\x7b' :: ((formatLabels s.labels).toList ++
        '\x7d' :: ' ' :: (s.value.text display).toList) := by
  simp [Sample.content]

theorem head?_labelText {label : String × String} (hlabel : isIdentifier label.1.toList) :
    ∃ c, (labelText label).head? = some c ∧ c ≠ '\x7d' := by
  rw [labelText, toList_formatLabel]
  exact head?_identifier hlabel _

theorem readLabels_formatLabels (hkeys : Keys labels) (rest : List Char) :
    readList readLabel '\x7d' ((formatLabels labels).toList ++ '\x7d' :: rest) =
      some (labels, rest) := by
  rw [toList_formatLabels]
  exact readList_writeSeq (by decide) (readLabel_labelText hkeys)
    (fun label hlabel => head?_labelText (hkeys label hlabel)) rest

theorem readLine_content (ht : t.Lawful) (hs : s.Identifiers) :
    readLine t (s.content t.display).toList =
      some ⟨s.name, s.labels, t.value s.value⟩ := by
  rw [toList_content]
  simp [readLine, readIdentifier_append '\x7b' (by decide) hs.name,
    readLabels_formatLabels hs.labels, ht.read_text]

theorem mem_flatMap_encode {value : List Char} :
    '\n' ∈ value.flatMap labelEscaping.encode ↔ '\n' ∈ value := by
  have hencode : ∀ c, '\n' ∈ labelEscaping.encode c ↔ '\n' = c := by
    intro c
    by_cases hslash : c = '\\'
    · simp [labelEscaping, hslash]
    · by_cases hquote : c = '"'
      · simp [labelEscaping, hquote]
      · simp [labelEscaping, hslash, hquote]
  simp [List.mem_flatMap, hencode]

theorem mem_formatLabel {label : String × String} (hkey : isIdentifier label.1.toList) :
    '\n' ∈ (formatLabel label).toList ↔ '\n' ∈ label.2.toList := by
  have hnotin : '\n' ∉ label.1.toList := not_mem_of_isIdentifier hkey (by decide)
  have hquote : labelEscaping.quote = '"' := rfl
  simp [toList_formatLabel, Escaping.write, hnotin, mem_flatMap_encode, hquote,
    -List.mem_flatMap]

theorem mem_writeSeq_labelText (hkeys : Keys labels) :
    '\n' ∈ writeSeq labelText labels ↔ ∃ label ∈ labels, '\n' ∈ label.2.toList := by
  induction labels with
  | nil => simp [writeSeq]
  | cons label labels ih =>
      obtain ⟨hlabel, hlabels⟩ := List.forall_mem_cons.mp hkeys
      by_cases hlast : labels = []
      · subst hlast
        simp [writeSeq_singleton, labelText, mem_formatLabel hlabel]
      · simp [writeSeq_cons hlast, labelText, mem_formatLabel hlabel, ih hlabels]

theorem newline_not_mem_text (ht : t.Lawful) (n : Number F) :
    '\n' ∉ (n.text t.display).toList := by
  cases n with
  | float v => exact fun h => (ht.plain v _ h).2.2 rfl
  | count n =>
      intro h
      have hdigit := Nat.isDigit_of_mem_toDigits (by decide) (by decide)
        (Nat.toList_repr ▸ h : '\n' ∈ Nat.toDigits 10 n.toNat)
      exact absurd hdigit (by decide)

/-- A line is one line when its label values are. -/
theorem newline_not_mem_content (ht : t.Lawful) (hs : s.Identifiers) (hone : s.OneLine) :
    '\n' ∉ (s.content t.display).toList := by
  have hname : '\n' ∉ s.name.toList := not_mem_of_isIdentifier hs.name (by decide)
  have hlabels : '\n' ∉ (formatLabels s.labels).toList := by
    rw [toList_formatLabels, mem_writeSeq_labelText hs.labels]
    rintro ⟨label, hlabel, hmem⟩
    exact hone label hlabel hmem
  simp [toList_content, hname, hlabels, newline_not_mem_text ht]

theorem significant_name {name : String} (hname : isIdentifier name.toList) (rest : List Char) :
    significant (name.toList ++ rest) := by
  cases hcs : name.toList with
  | nil => rw [hcs] at hname; exact Bool.noConfusion hname
  | cons c cs =>
      have hc : c ≠ '#' := by
        rintro rfl
        simp [hcs, isIdentifier, isIdentifierStart] at hname
      simp [significant, hc]

theorem exists_writeSeq_append (init : Labels) (label : String × String) (labels : Labels) :
    ∃ tail, writeSeq labelText (init ++ label :: labels) =
      (init.flatMap fun l => labelText l ++ [',']) ++ (labelText label ++ tail) := by
  induction init with
  | nil =>
      by_cases hlast : labels = []
      · subst hlast
        exact ⟨[], by simp [writeSeq_singleton]⟩
      · exact ⟨_, by simpa using writeSeq_cons hlast⟩
  | cons first init ih =>
      obtain ⟨tail, htail⟩ := ih
      refine ⟨tail, ?_⟩
      rw [List.cons_append, writeSeq_cons (by simp), htail]
      simp

theorem exists_first_broken (hmany : ¬ s.OneLine) :
    ∃ init label labels, s.labels = init ++ label :: labels ∧ '\n' ∈ label.2.toList ∧
      ∀ l ∈ init, '\n' ∉ l.2.toList := by
  have hfind : (s.labels.find? fun l => decide ('\n' ∈ l.2.toList)).isSome := by
    simpa [Sample.OneLine, List.find?_isSome] using hmany
  obtain ⟨label, hlabel⟩ := Option.isSome_iff_exists.mp hfind
  obtain ⟨hmem, init, labels, heq, hinit⟩ := List.find?_eq_some_iff_append.mp hlabel
  exact ⟨init, label, labels, heq, by simpa using hmem, by simpa using hinit⟩

/-- What a label set with a newline leaves on its first line. -/
def openLabels (init : Labels) (key : String) (value : List Char) : List Char :=
  (init.flatMap fun l => labelText l ++ [',']) ++
    (key.toList ++ '=' :: '"' :: value.flatMap labelEscaping.encode)

theorem readLabels_openLabels {init : Labels} (hinit : Keys init) {key : String}
    (hkey : isIdentifier key.toList) (value : List Char) :
    readList readLabel '\x7d' (openLabels init key value) = none := by
  have hhead : ∃ c, (openLabels init key value).head? = some c ∧ c ≠ '\x7d' := by
    cases init with
    | nil => exact head?_identifier hkey _
    | cons first init =>
        obtain ⟨c, hc, hne⟩ := head?_labelText (hinit first List.mem_cons_self)
        exact ⟨c, by simp [openLabels, List.head?_append, hc], hne⟩
  rw [readList_eq_readSeq hhead]
  exact readSeq_eq_none (by decide) (readLabel_labelText hinit) (readLabel_open hkey value) _

theorem newline_not_mem_openLabels {init : Labels} (hinit : Keys init) {key : String}
    (hkey : isIdentifier key.toList) {value : List Char} (hvalue : '\n' ∉ value)
    (hvalues : ∀ l ∈ init, '\n' ∉ l.2.toList) : '\n' ∉ openLabels init key value := by
  have hopen : '\n' ∉ value.flatMap labelEscaping.encode :=
    fun h => hvalue (mem_flatMap_encode.mp h)
  have hformat : '\n' ∉ init.flatMap fun l => labelText l ++ [','] := by
    rw [List.mem_flatMap]
    rintro ⟨l, hl, hmem⟩
    have hmem' : '\n' ∈ (formatLabel l).toList := by simpa [labelText] using hmem
    exact hvalues l hl ((mem_formatLabel (hinit l hl)).mp hmem')
  have hname : '\n' ∉ key.toList := not_mem_of_isIdentifier hkey (by decide)
  simp [openLabels, hname, hopen, hformat, -List.mem_flatMap]

/-- The first newline in a label value leaves a line that cannot be read. -/
theorem exists_broken_line (t : NumberFormat F V) (hs : s.Identifiers) (hmany : ¬ s.OneLine) :
    ∃ cs rest, (s.content t.display).toList = cs ++ '\n' :: rest ∧ '\n' ∉ cs ∧
      significant cs ∧ readLine t cs = none := by
  obtain ⟨init, label, labels, heq, hmem, hinit⟩ := exists_first_broken hmany
  obtain ⟨value, after, hvalue, hnotin⟩ := List.eq_append_cons_of_mem hmem
  obtain ⟨tail, htail⟩ := exists_writeSeq_append init label labels
  have hkeys : Keys (init ++ label :: labels) := heq ▸ hs.labels
  have hkeysInit : Keys init := fun l hl => hkeys l (List.mem_append_left _ hl)
  have hkey : isIdentifier label.1.toList :=
    hkeys label (List.mem_append_right _ List.mem_cons_self)
  have hname : '\n' ∉ s.name.toList := not_mem_of_isIdentifier hs.name (by decide)
  refine ⟨s.name.toList ++ '\x7b' :: openLabels init label.1 value,
    after.flatMap labelEscaping.encode ++ '"' :: (tail ++
      '\x7d' :: ' ' :: (s.value.text t.display).toList), ?_, ?_, significant_name hs.name _, ?_⟩
  · have hnewline : labelEscaping.encode '\n' = ['\n'] := by decide
    have hquote : labelEscaping.quote = '"' := rfl
    rw [toList_content, heq, toList_formatLabels, htail, labelText, toList_formatLabel,
      Escaping.write, hvalue,
      List.flatMap_append, List.flatMap_cons, hnewline, hquote, openLabels]
    simp only [List.append_assoc, List.cons_append, List.nil_append]
  · simp [hname, newline_not_mem_openLabels hkeysInit hkey hnotin hinit]
  · simp [readLine, readIdentifier_append '\x7b' (by decide) hs.name,
      readLabels_openLabels hkeysInit hkey]

end Lines

/-! ## The text as a list of lines -/

section Lines

variable {F V : Type*} (display : F → String)

def Sample.print (s : Sample (Number F)) : String := s.content display ++ "\n"

theorem valuesText_eq (metrics : List (String × List (LabelKey × F))) :
    valuesText display metrics =
      String.join ((valueSamples metrics).map (Sample.print display)) := by
  simp only [valuesText, valueSamples, List.map_flatMap, List.map_map]
  rfl

theorem formatLabels_cons (label : String × String) (labels : Labels) :
    formatLabels (label :: labels) = formatLabel label ++ labelPart (formatLabels labels) := by
  apply String.toList_inj.mp
  by_cases hlast : labels = []
  · subst hlast
    have hpart : labelPart (formatLabels []) = "" := by decide
    simp [toList_formatLabels, writeSeq_singleton, labelText, hpart]
  · have hne : formatLabels labels ≠ "" := by
      obtain ⟨next, labels, rfl⟩ := List.exists_cons_of_ne_nil hlast
      intro hempty
      have htext : writeSeq labelText (next :: labels) = [] := by
        rw [← toList_formatLabels, hempty]
        rfl
      obtain ⟨tail, htail⟩ : ∃ tail, writeSeq labelText (next :: labels) = _ ++ tail :=
        exists_writeSeq_eq next labels
      simp [htail, labelText, toList_formatLabel] at htext
    have hpart : labelPart (formatLabels labels) = "," ++ formatLabels labels := by
      rw [labelPart, if_neg (by simpa using hne)]
    rw [toList_formatLabels, writeSeq_cons hlast, hpart]
    simp [toList_formatLabels, labelText]

theorem bucketLine_eq {boundary : String} (hplain : escape boundary = boundary) (name : String)
    (labels : Labels) (n : UInt64) :
    bucketLine name boundary (formatLabels labels) n =
      (bucketSample name boundary labels n).print display := by
  have hlabel : formatLabel ("le", boundary) = "le=\"" ++ boundary ++ "\"" := by
    rw [formatLabel, hplain]
    rfl
  rw [bucketLine, ← hlabel, ← formatLabels_cons]
  rfl

theorem escape_plain {text : String} (h : ∀ c ∈ text.toList, c ≠ '"' ∧ c ≠ '\\') :
    escape text = text := by
  have hencode : ∀ c ∈ text.toList, labelEscaping.encode c = [c] := by
    intro c hc
    simp [labelEscaping, h c hc]
  rw [← String.toList_inj, toList_escape, List.flatMap_congr hencode]
  exact List.flatMap_singleton' _

theorem seriesText_eq {t : NumberFormat F V} (ht : t.Lawful) {buckets : List F} (name : String)
    (entry : LabelKey × HistogramAtomics F buckets.length) :
    seriesText t.display name entry =
      String.join ((seriesSamples t.display name entry).map (Sample.print t.display)) := by
  have hinf : escape "+Inf" = "+Inf" := by decide
  have hboundary : ∀ v, escape (t.display v) = t.display v := fun v =>
    escape_plain fun c hc => ⟨(ht.plain v c hc).1, (ht.plain v c hc).2.1⟩
  have hlines : (entry.2.bucketSamples.map fun e =>
      bucketLine name (t.display e.1) (formatLabels entry.1.labels) e.2) =
      (entry.2.bucketSamples.map fun e =>
        bucketSample name (t.display e.1) entry.1.labels e.2).map (Sample.print t.display) := by
    rw [List.map_map]
    exact List.map_congr_left fun e _ => bucketLine_eq t.display (hboundary e.1) _ _ _
  simp only [seriesText, hlines, bucketLine_eq t.display hinf]
  apply String.toList_inj.mp
  simp [seriesSamples, String.toList_join, Sample.print, Sample.content, line, Number.text]

/-- The lines of the output. -/
def outputLines (stores : Stores F) : List (List Char) :=
  let contents := List.map fun s => (Sample.content display s).toList
  "# Counters".toList :: contents (valueSamples stores.counters) ++
    ([] :: "# Gauges".toList :: contents (valueSamples stores.gauges)) ++
    ([] :: "# Histograms".toList :: contents (histogramSamples display stores.histograms))

theorem toList_join_print (samples : List (Sample (Number F))) :
    (String.join (samples.map (Sample.print display))).toList =
      (samples.map fun s => (s.content display).toList).flatMap (· ++ ['\n']) := by
  simp [String.toList_join, Sample.print, List.flatMap_map]

theorem histogramsText_eq {t : NumberFormat F V} (ht : t.Lawful)
    (metrics : List (String × HistogramStorage F)) :
    histogramsText t.display metrics =
      String.join ((histogramSamples t.display metrics).map (Sample.print t.display)) := by
  apply String.toList_inj.mp
  simp [histogramsText, histogramSamples, seriesText_eq ht, String.toList_join,
    List.flatMap_map, List.flatMap_assoc]

theorem toList_gatherMetricsString {t : NumberFormat F V} (ht : t.Lawful) (stores : Stores F) :
    (gatherMetricsString t.display stores).toList =
      (outputLines t.display stores).flatMap (· ++ ['\n']) := by
  unfold gatherMetricsString
  simp only [valuesText_eq, histogramsText_eq ht, String.toList_append, toList_join_print,
    outputLines, List.flatMap_append, List.flatMap_cons]
  simp

end Lines

/-! ## The series of the stores -/

section Series

variable {F V : Type*}

/-- Every series with the name of its metric. -/
def Stores.series (stores : Stores F) : List (String × LabelKey) :=
  let ofValues := List.flatMap fun metric : String × List (LabelKey × F) =>
    metric.2.map fun entry => (metric.1, entry.1)
  ofValues stores.counters ++ ofValues stores.gauges ++
    stores.histograms.flatMap fun metric => metric.2.data.map fun entry => (metric.1, entry.1)

theorem isIdentifier_append {name suffix : String} (hname : isIdentifier name.toList)
    (hsuffix : suffix.toList.all isIdentifierRest) : isIdentifier (name ++ suffix).toList := by
  rw [String.toList_append]
  cases hcs : name.toList with
  | nil => rw [hcs] at hname; exact Bool.noConfusion hname
  | cons c cs =>
      rw [hcs] at hname
      simp only [isIdentifier, List.cons_append, List.all_append, Bool.and_eq_true] at hname ⊢
      exact ⟨hname.1, hname.2, hsuffix⟩

/-- A sample carries the name and the labels of a series, with a suffix and a bound. -/
structure Sample.IsOf (display : F → String) (s : Sample (Number F))
    (series : String × LabelKey) : Prop where
  name : s.name = series.1 ∨
    ∃ suffix ∈ ["_count", "_sum", "_bucket"], s.name = series.1 ++ suffix
  labels : s.labels = series.2.labels ∨
    ∃ le, (le = "+Inf" ∨ ∃ v, le = display v) ∧ s.labels = ("le", le) :: series.2.labels

theorem isOf_seriesSamples {display : F → String} {buckets : List F} {name : String}
    {entry : LabelKey × HistogramAtomics F buckets.length} {s : Sample (Number F)}
    (h : s ∈ seriesSamples display name entry) : s.IsOf display (name, entry.1) := by
  simp only [seriesSamples, List.mem_append, List.mem_cons, List.mem_map, List.not_mem_nil,
    or_false] at h
  rcases h with ((rfl | rfl) | ⟨e, -, rfl⟩) | rfl
  · exact ⟨.inr ⟨"_count", by simp, rfl⟩, .inl rfl⟩
  · exact ⟨.inr ⟨"_sum", by simp, rfl⟩, .inl rfl⟩
  · exact ⟨.inr ⟨"_bucket", by simp, rfl⟩, .inr ⟨_, .inr ⟨_, rfl⟩, rfl⟩⟩
  · exact ⟨.inr ⟨"_bucket", by simp, rfl⟩, .inr ⟨_, .inl rfl, rfl⟩⟩

theorem exists_isOf {display : F → String} {stores : Stores F} {s : Sample (Number F)}
    (h : s ∈ stores.samples display) : ∃ series ∈ stores.series, s.IsOf display series := by
  have hvalues : ∀ {metrics : List (String × List (LabelKey × F))}, s ∈ valueSamples metrics →
      ∃ series ∈ metrics.flatMap fun metric => metric.2.map fun entry => (metric.1, entry.1),
        s.IsOf display series := by
    intro metrics hs
    obtain ⟨metric, hmetric, hs⟩ := List.mem_flatMap.mp hs
    obtain ⟨entry, hentry, rfl⟩ := List.mem_map.mp hs
    exact ⟨_, List.mem_flatMap.mpr ⟨metric, hmetric, List.mem_map_of_mem hentry⟩,
      .inl rfl, .inl rfl⟩
  rcases List.mem_append.mp h with hvalue | hhistogram
  · rcases List.mem_append.mp hvalue with hcounter | hgauge
    · obtain ⟨series, hseries, hof⟩ := hvalues hcounter
      exact ⟨series, List.mem_append_left _ (List.mem_append_left _ hseries), hof⟩
    · obtain ⟨series, hseries, hof⟩ := hvalues hgauge
      exact ⟨series, List.mem_append_left _ (List.mem_append_right _ hseries), hof⟩
  · obtain ⟨metric, hmetric, hs⟩ := List.mem_flatMap.mp hhistogram
    obtain ⟨entry, hentry, hs⟩ := List.mem_flatMap.mp hs
    exact ⟨_, List.mem_append_right _ (List.mem_flatMap.mpr ⟨metric, hmetric,
      List.mem_map_of_mem hentry⟩), isOf_seriesSamples hs⟩

/-- Every series has a sample with its labels. -/
theorem exists_sample (display : F → String) {stores : Stores F} {series : String × LabelKey}
    (h : series ∈ stores.series) :
    ∃ s ∈ stores.samples display, s.labels = series.2.labels := by
  have hvalues : ∀ {metrics : List (String × List (LabelKey × F))},
      series ∈ (metrics.flatMap fun metric => metric.2.map fun entry => (metric.1, entry.1)) →
      ∃ s ∈ valueSamples metrics, s.labels = series.2.labels := by
    intro metrics hseries
    obtain ⟨metric, hmetric, hseries⟩ := List.mem_flatMap.mp hseries
    obtain ⟨entry, hentry, rfl⟩ := List.mem_map.mp hseries
    exact ⟨_, List.mem_flatMap.mpr ⟨metric, hmetric, List.mem_map_of_mem hentry⟩, rfl⟩
  rcases List.mem_append.mp h with hvalue | hhistogram
  · rcases List.mem_append.mp hvalue with hcounter | hgauge
    · obtain ⟨s, hs, hlabels⟩ := hvalues hcounter
      exact ⟨s, List.mem_append_left _ (List.mem_append_left _ hs), hlabels⟩
    · obtain ⟨s, hs, hlabels⟩ := hvalues hgauge
      exact ⟨s, List.mem_append_left _ (List.mem_append_right _ hs), hlabels⟩
  · obtain ⟨metric, hmetric, hseries⟩ := List.mem_flatMap.mp hhistogram
    obtain ⟨entry, hentry, rfl⟩ := List.mem_map.mp hseries
    refine ⟨⟨metric.1 ++ "_count", entry.1.labels, .count entry.2.count⟩,
      List.mem_append_right _ (List.mem_flatMap.mpr ⟨metric, hmetric,
        List.mem_flatMap.mpr ⟨entry, hentry, ?_⟩⟩), rfl⟩
    exact List.mem_append_left _ (List.mem_append_left _ List.mem_cons_self)

theorem Sample.IsOf.identifiers {display : F → String} {s : Sample (Number F)}
    {series : String × LabelKey} (h : s.IsOf display series)
    (hname : isIdentifier series.1.toList) (hkeys : Keys series.2.labels) : s.Identifiers := by
  constructor
  · rcases h.name with heq | ⟨suffix, hsuffix, heq⟩
    · rwa [heq]
    · rw [heq]
      refine isIdentifier_append hname ?_
      simp only [List.mem_cons, List.not_mem_nil, or_false] at hsuffix
      rcases hsuffix with rfl | rfl | rfl <;> decide
  · rcases h.labels with heq | ⟨le, -, heq⟩
    · rwa [heq]
    · rw [heq]
      have hle : isIdentifier "le".toList := by decide
      exact List.forall_mem_cons.mpr ⟨hle, hkeys⟩

theorem Sample.IsOf.oneLine {t : NumberFormat F V} (ht : t.Lawful) {s : Sample (Number F)}
    {series : String × LabelKey} (h : s.IsOf t.display series)
    (hvalues : ∀ label ∈ series.2.labels, '\n' ∉ label.2.toList) : s.OneLine := by
  unfold Sample.OneLine
  rcases h.labels with heq | ⟨le, hle, heq⟩
  · rwa [heq]
  · rw [heq]
    refine List.forall_mem_cons.mpr ⟨?_, hvalues⟩
    rcases hle with rfl | ⟨v, rfl⟩
    · decide
    · exact fun hmem => (ht.plain v _ hmem).2.2 rfl

/-! ## Reading the output -/

/-- The samples as a reader sees them. -/
def NumberFormat.samples (t : NumberFormat F V) (stores : Stores F) : List (Sample V) :=
  (stores.samples t.display).map fun s => ⟨s.name, s.labels, t.value s.value⟩

variable {t : NumberFormat F V} {stores : Stores F}

theorem mem_outputLines {display : F → String} {l : List Char} :
    l ∈ outputLines display stores ↔
      l ∈ [[], "# Counters".toList, "# Gauges".toList, "# Histograms".toList] ∨
        ∃ s ∈ stores.samples display, (s.content display).toList = l := by
  simp only [outputLines, Stores.samples, List.cons_append, List.mem_cons, List.mem_append,
    List.mem_map, List.not_mem_nil, or_and_right, exists_or]
  generalize "# Counters".toList = counters, "# Gauges".toList = gauges,
    "# Histograms".toList = histograms
  grind

/-- The samples are the lines that are neither empty nor comments. -/
theorem filter_outputLines (hs : ∀ s ∈ stores.samples t.display, s.Identifiers) :
    (outputLines t.display stores).filter significant =
      (stores.samples t.display).map fun s => (s.content t.display).toList := by
  have hkeep : ∀ samples : List (Sample (Number F)), (∀ s ∈ samples, s.Identifiers) →
      (samples.map fun s => (s.content t.display).toList).filter significant =
        samples.map fun s => (s.content t.display).toList := by
    intro samples hsamples
    refine List.filter_eq_self.mpr fun cs hcs => ?_
    obtain ⟨s, hmem, rfl⟩ := List.mem_map.mp hcs
    rw [toList_content]
    exact significant_name (hsamples s hmem).name _
  simp only [Stores.samples, List.forall_mem_append] at hs
  obtain ⟨⟨hcounters, hgauges⟩, hhistograms⟩ := hs
  have hempty : significant [] = false := rfl
  have hheaders : significant "# Counters".toList = false ∧
      significant "# Gauges".toList = false ∧ significant "# Histograms".toList = false := by
    decide
  simp only [outputLines, List.filter_append, List.cons_append, List.filter_cons, hempty,
    hheaders, hkeep _ hcounters, hkeep _ hgauges, hkeep _ hhistograms, Stores.samples,
    List.map_append]
  simp

theorem newline_not_mem_outputLines (ht : t.Lawful)
    (hs : ∀ s ∈ stores.samples t.display, s.Identifiers)
    (hone : ∀ s ∈ stores.samples t.display, s.OneLine) :
    ∀ l ∈ outputLines t.display stores, '\n' ∉ l := by
  intro l hl
  have hheaders : ∀ h ∈ [[], "# Counters".toList, "# Gauges".toList, "# Histograms".toList],
      '\n' ∉ h := by decide
  rcases mem_outputLines.mp hl with hheader | ⟨s, hmem, rfl⟩
  · exact hheaders l hheader
  · exact newline_not_mem_content ht (hs s hmem) (hone s hmem)

theorem readBack_eq_some (ht : t.Lawful)
    (hs : ∀ s ∈ stores.samples t.display, s.Identifiers)
    (hone : ∀ s ∈ stores.samples t.display, s.OneLine) :
    readBack t (gatherMetricsString t.display stores) = some (t.samples stores) := by
  have hlines : (outputLines t.display stores).flatMap (·.splitOn '\n') =
      outputLines t.display stores := by
    rw [List.flatMap_congr fun l hl =>
      List.splitOn_eq_singleton (newline_not_mem_outputLines ht hs hone l hl)]
    exact List.flatMap_singleton' _
  rw [readBack, toList_gatherMetricsString ht, splitOn_flatMap_concat, hlines,
    List.filter_append, filter_outputLines hs]
  have hrest : [[]].filter significant = [] := rfl
  rw [hrest, List.append_nil]
  exact mapM_map_eq_some fun s hmem => readLine_content ht (hs s hmem)

theorem readBack_eq_none (ht : t.Lawful)
    (hs : ∀ s ∈ stores.samples t.display, s.Identifiers) {s : Sample (Number F)}
    (hmem : s ∈ stores.samples t.display) (hmany : ¬ s.OneLine) :
    readBack t (gatherMetricsString t.display stores) = none := by
  obtain ⟨cs, rest, heq, hnotin, hsignificant, hnone⟩ := exists_broken_line t (hs s hmem) hmany
  have hpiece : cs ∈ (s.content t.display).toList.splitOn '\n' := by
    rw [heq, List.splitOn_append_cons_self_of_not_mem hnotin]
    exact List.mem_cons_self
  refine mapM_eq_none (List.mem_filter.mpr ⟨?_, hsignificant⟩) hnone
  rw [toList_gatherMetricsString ht, splitOn_flatMap_concat]
  exact List.mem_append_left _
    (List.mem_flatMap.mpr ⟨_, mem_outputLines.mpr (.inr ⟨s, hmem, rfl⟩), hpiece⟩)

/-- The output reads back as the samples of the stores exactly when no label value has a
newline. -/
theorem readBack_iff (ht : t.Lawful)
    (hnames : ∀ series ∈ stores.series,
      isIdentifier series.1.toList ∧ Keys series.2.labels) :
    (∃ read, readBack t (gatherMetricsString t.display stores) = some read ∧
      read.Perm (t.samples stores)) ↔
    ∀ series ∈ stores.series, ∀ label ∈ series.2.labels, '\n' ∉ label.2.toList := by
  have hs : ∀ s ∈ stores.samples t.display, s.Identifiers := by
    intro s hs
    obtain ⟨series, hseries, hof⟩ := exists_isOf hs
    exact hof.identifiers (hnames series hseries).1 (hnames series hseries).2
  constructor
  · rintro ⟨read, hread, -⟩ series hseries
    obtain ⟨s, hmem, hlabels⟩ := exists_sample t.display hseries
    by_contra hmany
    have hnone := readBack_eq_none ht hs hmem (by rwa [Sample.OneLine, hlabels])
    exact Option.some_ne_none read (hread.symm.trans hnone)
  · intro hvalues
    refine ⟨_, readBack_eq_some ht hs fun s hmem => ?_, .refl _⟩
    obtain ⟨series, hseries, hof⟩ := exists_isOf hmem
    exact hof.oneLine ht (hvalues series hseries)

end Series

/-! ## Whole numbers -/

/-- Values that are whole numbers, which are displayed and read as decimals. -/
def wholeNumbers : NumberFormat Nat Nat where
  display := Nat.repr
  read text :=
    if text.toList.all Char.isDigit then some (Nat.ofDigitChars 10 text.toList 0) else none
  value
    | .float v => v
    | .count n => n.toNat

theorem isDigit_of_mem_repr {n : Nat} {c : Char} (h : c ∈ n.repr.toList) : c.isDigit :=
  Nat.isDigit_of_mem_toDigits (by decide) (by decide) (Nat.toList_repr ▸ h)

theorem lawful_wholeNumbers : wholeNumbers.Lawful where
  read_text := by
    have hread : ∀ n : Nat, wholeNumbers.read n.repr = some n := by
      intro n
      have hdigits : n.repr.toList.all Char.isDigit :=
        List.all_eq_true.mpr fun c hc => isDigit_of_mem_repr hc
      simp only [wholeNumbers, hdigits, if_true]
      rw [Nat.toList_repr, Nat.ofDigitChars_ten_toDigits]
    intro n
    cases n with
    | float v => exact hread v
    | count n => exact hread n.toNat
  plain := by
    intro v c hc
    have hdigit : c.isDigit := isDigit_of_mem_repr hc
    refine ⟨?_, ?_, ?_⟩ <;> rintro rfl <;> exact absurd hdigit (by decide)

/-- A counter with a quote, a backslash and a brace in a label, and a histogram. -/
def quotedStores : Stores Nat where
  counters := [("http.requests", [(⟨[("path", "/a\"\\\x7d, b=c")]⟩, 3)])]
  gauges := []
  histograms := [("latency", {
    buckets := [5]
    data := [(⟨[("method", "GET"), ("path", "")]⟩,
      { bucketCounts := ⟨#[2, 1], rfl⟩, sum := 14, count := 3 })] })]

theorem readBack_iff_quoted :
    ∃ read, readBack wholeNumbers (gatherMetricsString wholeNumbers.display quotedStores) =
        some read ∧
      read.Perm (wholeNumbers.samples quotedStores) :=
  (readBack_iff lawful_wholeNumbers (by unfold Keys; decide +kernel)).mpr (by decide +kernel)

/-- A newline in a label value breaks its line in two, and neither can be read. -/
theorem not_readBack_newline :
    ¬ ∃ read, readBack wholeNumbers (gatherMetricsString wholeNumbers.display
        { counters := [("requests", [(⟨[("path", "a\nb")]⟩, 3)])]
          gauges := []
          histograms := [] }) = some read ∧
      read.Perm (wholeNumbers.samples
        { counters := [("requests", [(⟨[("path", "a\nb")]⟩, 3)])]
          gauges := []
          histograms := [] }) := by
  rintro ⟨read, hread, -⟩
  exact Option.some_ne_none read (hread.symm.trans (by decide +kernel))

end SfRs.Metrics
