import Mathlib.Data.List.Basic
/-!
# Reading text

A `Reader` takes what it recognises from the front of a text.  Strings stand between
quotes, and are written character by character through an `Escaping`.
-/

namespace SfRs.Lib

/-- What is read, and the text after it. -/
abbrev Reader (α : Type*) := List Char → Option (α × List Char)

/-- Read up to the first `stop`, and drop it. -/
def readUntil (stop : Char) : Reader (List Char)
  | [] => none
  | c :: cs =>
      if c = stop then some ([], cs)
      else (readUntil stop cs).map fun r => (c :: r.1, r.2)

theorem readUntil_append {stop : Char} {l : List Char} (h : stop ∉ l) (rest : List Char) :
    readUntil stop (l ++ stop :: rest) = some (l, rest) := by
  induction l with
  | nil => simp [readUntil]
  | cons c l ih =>
      rw [List.mem_cons, not_or] at h
      simp [readUntil, Ne.symm h.1, ih h.2]

/-- One item or more, separated by commas, and what closes them. -/
def readSeq {α : Type*} (one : Reader α) (close : Char) : Nat → Reader (List α)
  | 0, _ => none
  | fuel + 1, cs =>
      (one cs).bind fun r =>
        match r.2 with
        | [] => none
        | c :: rest =>
            if c = close then some ([r.1], rest)
            else if c = ',' then
              (readSeq one close fuel rest).map fun q => (r.1 :: q.1, q.2)
            else none

/-- Items separated by commas, which may be none. -/
def readList {α : Type*} (one : Reader α) (close : Char) : Reader (List α)
  | [] => none
  | c :: cs =>
      if c = close then some ([], cs)
      else readSeq one close (cs.length + 1) (c :: cs)

def writeSeq {α : Type*} (write : α → List Char) (items : List α) : List Char :=
  [','].intercalate (items.map write)

section Seq

variable {α : Type*} {one : Reader α} {write : α → List Char} {close : Char} {items : List α}
  {fuel : Nat}

theorem writeSeq_cons {item : α} (hne : items ≠ []) :
    writeSeq write (item :: items) = write item ++ ',' :: writeSeq write items := by
  obtain ⟨next, items, rfl⟩ := List.exists_cons_of_ne_nil hne
  simp [writeSeq]

theorem writeSeq_singleton (item : α) : writeSeq write [item] = write item := by
  simp [writeSeq]

/-- Items that are read in front of a comma or the closing character are read in
sequence. -/
theorem readSeq_writeSeq (hclose : close ≠ ',') (hne : items ≠ [])
    (hread : ∀ item ∈ items, ∀ c rest, c = ',' ∨ c = close →
      one (write item ++ c :: rest) = some (item, c :: rest))
    (hfuel : items.length ≤ fuel) (rest : List Char) :
    readSeq one close fuel (writeSeq write items ++ close :: rest) = some (items, rest) := by
  induction items generalizing fuel with
  | nil => exact absurd rfl hne
  | cons item items ih =>
      obtain ⟨fuel, rfl⟩ := Nat.exists_eq_succ_of_ne_zero (Nat.ne_zero_of_lt hfuel)
      obtain ⟨hitem, hitems⟩ := List.forall_mem_cons.mp hread
      by_cases hlast : items = []
      · subst hlast
        simp [writeSeq_singleton, readSeq, hitem close rest (.inr rfl)]
      · have htail := ih hlast hitems (Nat.le_of_succ_le_succ hfuel)
        rw [writeSeq_cons hlast, List.append_assoc]
        simp [readSeq, hitem ',' _ (.inl rfl), hclose.symm, htail]

/-- Items that are read do not help one that is not. -/
theorem readSeq_eq_none (hclose : close ≠ ',')
    (hread : ∀ item ∈ items, ∀ c rest, c = ',' ∨ c = close →
      one (write item ++ c :: rest) = some (item, c :: rest))
    {last : List Char} (hlast : one last = none) (fuel : Nat) :
    readSeq one close fuel ((items.flatMap fun item => write item ++ [',']) ++ last) = none := by
  induction items generalizing fuel with
  | nil =>
      cases fuel with
      | zero => rfl
      | succ fuel => simp [readSeq, hlast]
  | cons item items ih =>
      obtain ⟨hitem, hitems⟩ := List.forall_mem_cons.mp hread
      cases fuel with
      | zero => rfl
      | succ fuel =>
          rw [List.flatMap_cons, List.append_assoc, List.append_assoc]
          simpa [readSeq, hitem ',' _ (.inl rfl), hclose.symm] using ih hitems fuel

theorem length_le_writeSeq (hwrite : ∀ item ∈ items, write item ≠ []) :
    items.length ≤ (writeSeq write items).length := by
  induction items with
  | nil => exact Nat.zero_le _
  | cons item items ih =>
      obtain ⟨hitem, hitems⟩ := List.forall_mem_cons.mp hwrite
      have hpos : 0 < (write item).length := List.length_pos_of_ne_nil hitem
      by_cases hlast : items = []
      · subst hlast
        rw [writeSeq_singleton]
        exact hpos
      · have := ih hitems
        rw [writeSeq_cons hlast]
        simp only [List.length_append, List.length_cons]
        omega

theorem exists_writeSeq_eq (item : α) (items : List α) :
    ∃ tail, writeSeq write (item :: items) = write item ++ tail := by
  by_cases hlast : items = []
  · subst hlast
    exact ⟨[], by rw [writeSeq_singleton, List.append_nil]⟩
  · exact ⟨_, writeSeq_cons hlast⟩

/-- Text that does not begin with the closing character is a sequence. -/
theorem readList_eq_readSeq {cs : List Char} (hcs : ∃ c, cs.head? = some c ∧ c ≠ close) :
    readList one close cs = readSeq one close cs.length cs := by
  obtain ⟨c, hhead, hne⟩ := hcs
  obtain ⟨tail, rfl⟩ := List.head?_eq_some_iff.mp hhead
  rw [readList, if_neg hne]
  rfl

theorem readList_writeSeq (hclose : close ≠ ',')
    (hread : ∀ item ∈ items, ∀ c rest, c = ',' ∨ c = close →
      one (write item ++ c :: rest) = some (item, c :: rest))
    (hhead : ∀ item ∈ items, ∃ c, (write item).head? = some c ∧ c ≠ close)
    (rest : List Char) :
    readList one close (writeSeq write items ++ close :: rest) = some (items, rest) := by
  cases items with
  | nil => simp [writeSeq, readList]
  | cons item items =>
      obtain ⟨c, hc, hne⟩ := hhead item List.mem_cons_self
      obtain ⟨tail, htail⟩ : ∃ tail, writeSeq write (item :: items) = write item ++ tail :=
        exists_writeSeq_eq item items
      have hfirst : (writeSeq write (item :: items) ++ close :: rest).head? = some c := by
        rw [htail, List.append_assoc, List.head?_append, hc]
        rfl
      have hwrite : ∀ i ∈ item :: items, write i ≠ [] := by
        intro i hi hnil
        obtain ⟨d, hd, -⟩ := hhead i hi
        simp [hnil] at hd
      rw [readList_eq_readSeq ⟨c, hfirst, hne⟩]
      refine readSeq_writeSeq hclose (List.cons_ne_nil _ _) hread ?_ rest
      rw [List.length_append]
      exact Nat.le_trans (length_le_writeSeq hwrite) (Nat.le_add_right _ _)

theorem length_le_writeSeq_of_mem (write : α → List Char) {item : α} (h : item ∈ items) :
    (write item).length ≤ (writeSeq write items).length := by
  induction items with
  | nil => exact absurd h List.not_mem_nil
  | cons first items ih =>
      by_cases hlast : items = []
      · subst hlast
        exact Nat.le_of_eq (by rw [List.mem_singleton.mp h, writeSeq_singleton])
      · rw [writeSeq_cons hlast]
        simp only [List.length_append, List.length_cons]
        rcases List.mem_cons.mp h with rfl | htail
        · omega
        · have := ih htail
          omega

end Seq

/-- A decimal number. -/
def readNat : Reader Nat := fun cs =>
  let digits := cs.takeWhile Char.isDigit
  if digits = [] then none
  else some (Nat.ofDigitChars 10 digits 0, cs.dropWhile Char.isDigit)

/-- A number is read up to what is not a digit. -/
theorem readNat_toDigits (n : Nat) {rest : List Char}
    (hrest : ∀ c ∈ rest.head?, c.isDigit = false) :
    readNat (Nat.toDigits 10 n ++ rest) = some (n, rest) := by
  have hdigits : ∀ c ∈ Nat.toDigits 10 n, c.isDigit :=
    fun c hc => Nat.isDigit_of_mem_toDigits (by decide) (by decide) hc
  have htake : rest.takeWhile Char.isDigit = [] := by
    cases rest with
    | nil => rfl
    | cons c rest => simp [hrest c rfl]
  have hdrop : rest.dropWhile Char.isDigit = rest := by
    cases rest with
    | nil => rfl
    | cons c rest => simp [hrest c rfl]
  simp only [readNat, List.takeWhile_append_of_pos hdigits, List.dropWhile_append_of_pos hdigits,
    htake, hdrop, List.append_nil, Nat.toDigits_ne_nil, if_false, Nat.ofDigitChars_ten_toDigits]

/-- Text that ends every line with `sep` splits into its lines and an empty rest. -/
theorem splitOn_flatMap_concat {α : Type*} [BEq α] [ReflBEq α] (sep : α)
    (lines : List (List α)) :
    (lines.flatMap (· ++ [sep])).splitOn sep = lines.flatMap (·.splitOn sep) ++ [[]] := by
  induction lines with
  | nil => rfl
  | cons l lines ih =>
      rw [List.flatMap_cons, List.append_assoc, List.singleton_append,
        List.splitOn_append_cons_self, ih, List.flatMap_cons, List.append_assoc]

theorem mapM_eq_none {α β : Type*} {f : α → Option β} {l : List α} {a : α} (hmem : a ∈ l)
    (ha : f a = none) : l.mapM f = none := by
  induction l with
  | nil => exact absurd hmem List.not_mem_nil
  | cons b l ih =>
      rcases List.mem_cons.mp hmem with rfl | htail
      · simp [ha]
      · simp [ih htail]

theorem mapM_map_eq_some {α β γ : Type*} {f : α → Option β} {g : γ → α} {h : γ → β}
    {l : List γ} (hl : ∀ c ∈ l, f (g c) = some (h c)) : (l.map g).mapM f = some (l.map h) := by
  induction l with
  | nil => rfl
  | cons c l ih =>
      obtain ⟨hc, htail⟩ := List.forall_mem_cons.mp hl
      simp [hc, ih htail]

/-- How one character is written, and how one is read back. -/
structure Escaping where
  quote : Char
  encode : Char → List Char
  decode : Reader Char

namespace Escaping

/-- What is written is read back, and does not begin with the quote. -/
structure Lawful (E : Escaping) : Prop where
  decode_encode : ∀ c rest, E.decode (E.encode c ++ rest) = some (c, rest)
  head?_encode : ∀ c, ∃ d, (E.encode c).head? = some d ∧ d ≠ E.quote

variable (E : Escaping)

/-- The characters up to the closing quote. -/
def readBody : Nat → Reader (List Char)
  | 0, _ => none
  | _ + 1, [] => none
  | fuel + 1, c :: cs =>
      if c = E.quote then some ([], cs)
      else
        (E.decode (c :: cs)).bind fun r =>
          (readBody fuel r.2).map fun q => (r.1 :: q.1, q.2)

def write (s : List Char) : List Char := E.quote :: s.flatMap E.encode ++ [E.quote]

def read : Reader (List Char)
  | [] => none
  | c :: cs => if c = E.quote then E.readBody (cs.length + 1) cs else none

variable {E} {s : List Char} {fuel : Nat}

theorem Lawful.encode_eq_cons (hE : E.Lawful) (c : Char) :
    ∃ d ds, E.encode c = d :: ds ∧ d ≠ E.quote := by
  obtain ⟨d, hd, hne⟩ := hE.head?_encode c
  obtain ⟨ds, hds⟩ := List.head?_eq_some_iff.mp hd
  exact ⟨d, ds, hds, hne⟩

theorem Lawful.readBody_encode (hE : E.Lawful) (c : Char) (rest : List Char) :
    E.readBody (fuel + 1) (E.encode c ++ rest) =
      (E.readBody fuel rest).map fun q => (c :: q.1, q.2) := by
  obtain ⟨d, ds, heq, hne⟩ := hE.encode_eq_cons c
  have hdecode := hE.decode_encode c rest
  rw [heq, List.cons_append] at hdecode ⊢
  simp [readBody, hne, hdecode]

theorem Lawful.readBody_flatMap (hE : E.Lawful) (hfuel : s.length < fuel) (rest : List Char) :
    E.readBody fuel (s.flatMap E.encode ++ E.quote :: rest) = some (s, rest) := by
  induction s generalizing fuel with
  | nil =>
      obtain ⟨fuel, rfl⟩ := Nat.exists_eq_succ_of_ne_zero (Nat.ne_zero_of_lt hfuel)
      simp [readBody]
  | cons c s ih =>
      obtain ⟨fuel, rfl⟩ := Nat.exists_eq_succ_of_ne_zero (Nat.ne_zero_of_lt hfuel)
      have hs : s.length < fuel := by simpa using hfuel
      rw [List.flatMap_cons, List.append_assoc, hE.readBody_encode, ih hs]
      rfl

/-- A string that is not closed is not read. -/
theorem Lawful.readBody_eq_none (hE : E.Lawful) (fuel : Nat) (s : List Char) :
    E.readBody fuel (s.flatMap E.encode) = none := by
  induction s generalizing fuel with
  | nil => cases fuel <;> rfl
  | cons c s ih =>
      cases fuel with
      | zero => rfl
      | succ fuel => rw [List.flatMap_cons, hE.readBody_encode, ih fuel]; rfl

theorem Lawful.length_le (hE : E.Lawful) (s : List Char) :
    s.length ≤ (s.flatMap E.encode).length := by
  induction s with
  | nil => exact Nat.zero_le _
  | cons c s ih =>
      obtain ⟨d, ds, heq, -⟩ := hE.encode_eq_cons c
      simp only [List.flatMap_cons, heq, List.length_cons, List.length_append]
      omega

theorem Lawful.read_write (hE : E.Lawful) (s rest : List Char) :
    E.read (E.write s ++ rest) = some (s, rest) := by
  have hlength := hE.length_le s
  have hread : E.readBody ((s.flatMap E.encode ++ E.quote :: rest).length + 1)
      (s.flatMap E.encode ++ E.quote :: rest) = some (s, rest) :=
    hE.readBody_flatMap (by simp only [List.length_append]; omega) rest
  simpa [write, read] using hread

theorem Lawful.read_open (hE : E.Lawful) (s : List Char) :
    E.read (E.quote :: s.flatMap E.encode) = none := by
  simp only [read, if_true]
  exact hE.readBody_eq_none _ _

end Escaping

end SfRs.Lib
