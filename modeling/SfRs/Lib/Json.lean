import SfRs.Lib.Text
/-!
# JSON documents

Documents of strings, natural numbers, null, arrays and objects, with the text that a
compact printer writes and a reader of that text.  Strings are written through an
`Escaping` whose quote is the double quote.
-/

namespace SfRs.Lib

inductive Json where
  | null
  | number (n : Nat)
  | string (s : String)
  | array (items : List Json)
  | object (fields : List (String × Json))

namespace Json

theorem induct {P : Json → Prop} (hnull : P null) (hnumber : ∀ n, P (number n))
    (hstring : ∀ s, P (string s)) (harray : ∀ items, (∀ item ∈ items, P item) → P (array items))
    (hobject : ∀ fields, (∀ field ∈ fields, P field.2) → P (object fields)) (v : Json) : P v :=
  @Json.rec P (fun items => ∀ item ∈ items, P item) (fun fields => ∀ field ∈ fields, P field.2)
    (fun field => P field.2) hnull hnumber hstring harray hobject
    (fun _ h => absurd h List.not_mem_nil)
    (fun _ _ hitem hitems => List.forall_mem_cons.mpr ⟨hitem, hitems⟩)
    (fun _ h => absurd h List.not_mem_nil)
    (fun _ _ hfield hfields => List.forall_mem_cons.mpr ⟨hfield, hfields⟩)
    (fun _ _ h => h) v

section Write

variable (E : Escaping)

mutual

def write : Json → List Char
  | null => "null".toList
  | number n => Nat.toDigits 10 n
  | string s => E.write s.toList
  | array items => '[' :: [','].intercalate (writeItems items) ++ [']']
  | object fields => '\x7b' :: [','].intercalate (writeFields fields) ++ ['\x7d']

def writeItems : List Json → List (List Char)
  | [] => []
  | item :: items => write item :: writeItems items

def writeFields : List (String × Json) → List (List Char)
  | [] => []
  | (key, value) :: fields =>
      (E.write key.toList ++ ':' :: write value) :: writeFields fields

end

def writeField (field : String × Json) : List Char :=
  E.write field.1.toList ++ ':' :: write E field.2

def readField (readValue : Reader Json) : Reader (String × Json) := fun cs =>
  (E.read cs).bind fun r =>
    match r.2 with
    | ':' :: rest => (readValue rest).map fun q => ((.ofList r.1, q.1), q.2)
    | _ => none

def readNull : Reader Json
  | 'n' :: 'u' :: 'l' :: 'l' :: rest => some (null, rest)
  | _ => none

/-- The reader takes compact documents, as the printer writes them: no white space, no sign,
fraction, exponent or boolean, and no pair of surrogates.  It also takes a number that starts
with zeros, which JSON does not. -/
def read : Nat → Reader Json
  | 0, _ => none
  | _ + 1, [] => none
  | fuel + 1, c :: cs =>
      if c = '"' then (E.read (c :: cs)).map fun r => (string (.ofList r.1), r.2)
      else if c = '[' then
        (readList (read fuel) ']' cs).map fun r => (array r.1, r.2)
      else if c = '\x7b' then
        (readList (readField E (read fuel)) '\x7d' cs).map fun r => (object r.1, r.2)
      else if c = 'n' then readNull (c :: cs)
      else (readNat (c :: cs)).map fun r => (number r.1, r.2)

/-- A text that is one document. -/
def ofText (text : String) : Option Json :=
  (read E (text.toList.length + 1) text.toList).bind fun r =>
    if r.2 = [] then some r.1 else none

def toText (v : Json) : String := .ofList (write E v)

end Write

variable {E : Escaping}

theorem writeItems_eq (items : List Json) : writeItems E items = items.map (write E) := by
  induction items with
  | nil => rfl
  | cons item items ih => rw [writeItems, ih, List.map_cons]

theorem writeFields_eq (fields : List (String × Json)) :
    writeFields E fields = fields.map (writeField E) := by
  induction fields with
  | nil => rfl
  | cons field fields ih =>
      obtain ⟨key, value⟩ := field
      rw [writeFields, ih, List.map_cons]
      rfl

theorem write_array (items : List Json) :
    write E (array items) = '[' :: (writeSeq (write E) items ++ [']']) := by
  rw [write, writeItems_eq]
  rfl

theorem write_object (fields : List (String × Json)) :
    write E (object fields) = '\x7b' :: (writeSeq (writeField E) fields ++ ['\x7d']) := by
  rw [write, writeFields_eq]
  rfl

/-- No document begins as a list ends. -/
theorem head?_write (hquote : E.quote = '"') (v : Json) :
    ∃ c, (write E v).head? = some c ∧ c ≠ ']' := by
  cases v with
  | null => exact ⟨'n', rfl, by decide⟩
  | number n =>
      obtain ⟨c, cs, hcs⟩ := List.exists_cons_of_ne_nil (Nat.toDigits_ne_nil (n := n) (b := 10))
      have hdigit : c.isDigit := Nat.isDigit_of_mem_toDigits (by decide) (by decide)
        (hcs ▸ List.mem_cons_self : c ∈ Nat.toDigits 10 n)
      refine ⟨c, by rw [write, hcs, List.head?_cons], ?_⟩
      rintro rfl
      exact absurd hdigit (by decide)
  | string s => exact ⟨'"', by rw [write, Escaping.write, hquote]; rfl, by decide⟩
  | array items => exact ⟨'[', by rw [write_array, List.head?_cons], by decide⟩
  | object fields => exact ⟨'\x7b', by rw [write_object, List.head?_cons], by decide⟩

theorem exists_fuel (hquote : E.quote = '"') {v : Json} {fuel : Nat}
    (h : (write E v).length ≤ fuel) : ∃ n, fuel = n + 1 := by
  obtain ⟨c, hc, -⟩ := head?_write hquote v
  obtain ⟨cs, hcs⟩ := List.head?_eq_some_iff.mp hc
  rw [hcs, List.length_cons] at h
  exact ⟨fuel - 1, by omega⟩

theorem readNat_of_digit {c : Char} {cs : List Char} {fuel : Nat} (hc : c.isDigit) :
    read E (fuel + 1) (c :: cs) = (readNat (c :: cs)).map fun r => (number r.1, r.2) := by
  have hne : ∀ d : Char, d.isDigit = false → c ≠ d := by
    rintro d hd rfl
    exact Bool.noConfusion (hc.symm.trans hd)
  simp [read, hne '"' (by decide), hne '[' (by decide), hne '\x7b' (by decide),
    hne 'n' (by decide)]

theorem read_write (hE : E.Lawful) (hquote : E.quote = '"') (v : Json) :
    ∀ fuel rest, (write E v).length ≤ fuel → (∀ c ∈ rest.head?, c.isDigit = false) →
      read E fuel (write E v ++ rest) = some (v, rest) := by
  induction v using induct with
  | hnull =>
      intro fuel rest hfuel _
      obtain ⟨fuel, rfl⟩ := exists_fuel hquote hfuel
      simp [write, read, readNull]
  | hnumber n =>
      intro fuel rest hfuel hrest
      obtain ⟨fuel, rfl⟩ := exists_fuel hquote hfuel
      have hread := readNat_toDigits n hrest
      obtain ⟨c, cs, hcs⟩ := List.exists_cons_of_ne_nil (Nat.toDigits_ne_nil (n := n) (b := 10))
      have hdigit : c.isDigit := Nat.isDigit_of_mem_toDigits (by decide) (by decide)
        (hcs ▸ List.mem_cons_self : c ∈ Nat.toDigits 10 n)
      rw [hcs, List.cons_append] at hread
      rw [write, hcs, List.cons_append, readNat_of_digit hdigit, hread]
      rfl
  | hstring s =>
      intro fuel rest hfuel _
      obtain ⟨fuel, rfl⟩ := exists_fuel hquote hfuel
      have hread := hE.read_write s.toList rest
      rw [Escaping.write, hquote, List.cons_append, List.cons_append] at hread
      rw [write, Escaping.write, hquote, List.cons_append, List.cons_append, read, if_pos rfl,
        hread]
      simp
  | harray items ih =>
      intro fuel rest hfuel _
      obtain ⟨fuel, rfl⟩ := exists_fuel hquote hfuel
      rw [write_array, List.length_cons, List.length_append] at hfuel
      have hitems : readList (read E fuel) ']' (writeSeq (write E) items ++ ']' :: rest) =
          some (items, rest) := by
        refine readList_writeSeq (by decide) (fun item hitem c tail hc => ?_)
          (fun item _ => head?_write hquote item) rest
        have hlength := length_le_writeSeq_of_mem (write E) hitem
        refine ih item hitem fuel (c :: tail) (by omega) ?_
        rcases hc with rfl | rfl <;> simp
      rw [write_array, List.cons_append, List.append_assoc, List.singleton_append]
      simp [read, hitems]
  | hobject fields ih =>
      intro fuel rest hfuel _
      obtain ⟨fuel, rfl⟩ := exists_fuel hquote hfuel
      rw [write_object, List.length_cons, List.length_append] at hfuel
      have hfields : readList (readField E (read E fuel)) '\x7d'
          (writeSeq (writeField E) fields ++ '\x7d' :: rest) = some (fields, rest) := by
        refine readList_writeSeq (by decide) (fun field hfield c tail hc => ?_)
          (fun field _ => ⟨'"', by rw [writeField, Escaping.write, hquote]; rfl, by decide⟩) rest
        have hlength := length_le_writeSeq_of_mem (writeField E) hfield
        have hvalue : (write E field.2).length ≤ (writeField E field).length := by
          simp [writeField]
          omega
        have hread := ih field hfield fuel (c :: tail) (by omega)
          (by rcases hc with rfl | rfl <;> simp)
        rw [writeField, List.append_assoc, List.cons_append]
        simp [readField, hE.read_write, hread]
      rw [write_object, List.cons_append, List.append_assoc, List.singleton_append]
      simp [read, hfields]

/-- The text of a document reads as that document. -/
theorem ofText_toText (hE : E.Lawful) (hquote : E.quote = '"') (v : Json) :
    ofText E (toText E v) = some v := by
  have hread := read_write hE hquote v ((write E v).length + 1) [] (Nat.le_succ _) (by simp)
  rw [List.append_nil] at hread
  simp [ofText, toText, hread]

/-! ## Escapes -/

def hexDigit (n : Nat) : Char := if n < 10 then Char.ofNat (48 + n) else Char.ofNat (87 + n)

def hexValue (c : Char) : Option Nat :=
  if '0' ≤ c ∧ c ≤ '9' then some (c.toNat - 48)
  else if 'a' ≤ c ∧ c ≤ 'f' then some (c.toNat - 87)
  else if 'A' ≤ c ∧ c ≤ 'F' then some (c.toNat - 55)
  else none

/-- The escapes of `serde_json`, which reads surrogate pairs as well. -/
def escaping : Escaping where
  quote := '"'
  encode c :=
    if c = '"' then ['\\', '"']
    else if c = '\\' then ['\\', '\\']
    else if c.toNat = 8 then ['\\', 'b']
    else if c.toNat = 9 then ['\\', 't']
    else if c.toNat = 10 then ['\\', 'n']
    else if c.toNat = 12 then ['\\', 'f']
    else if c.toNat = 13 then ['\\', 'r']
    else if c.toNat < 32 then
      ['\\', 'u', '0', '0', hexDigit (c.toNat / 16), hexDigit (c.toNat % 16)]
    else [c]
  decode
    | '\\' :: '"' :: cs => some ('"', cs)
    | '\\' :: '\\' :: cs => some ('\\', cs)
    | '\\' :: '/' :: cs => some ('/', cs)
    | '\\' :: 'b' :: cs => some (Char.ofNat 8, cs)
    | '\\' :: 't' :: cs => some (Char.ofNat 9, cs)
    | '\\' :: 'n' :: cs => some (Char.ofNat 10, cs)
    | '\\' :: 'f' :: cs => some (Char.ofNat 12, cs)
    | '\\' :: 'r' :: cs => some (Char.ofNat 13, cs)
    | '\\' :: 'u' :: a :: b :: c :: d :: cs => do
        let n := (← hexValue a) * 4096 + (← hexValue b) * 256 + (← hexValue c) * 16 +
          (← hexValue d)
        if 0xD800 ≤ n ∧ n < 0xE000 then none else some (Char.ofNat n, cs)
    | '\\' :: _ => none
    | c :: cs => if c.toNat < 32 then none else some (c, cs)
    | [] => none

theorem hexValue_hexDigit {n : Nat} (h : n < 16) : hexValue (hexDigit n) = some n := by
  have hall : ∀ n : Fin 16, hexValue (hexDigit n) = some n.val := by decide
  exact hall ⟨n, h⟩

theorem decode_control {c : Char} (hcontrol : c.toNat < 32) (rest : List Char) :
    escaping.decode (escaping.encode c ++ rest) = some (c, rest) := by
  have hofNat : ∀ n, c.toNat = n → c = Char.ofNat n := fun n h => by rw [← h, Char.ofNat_toNat]
  by_cases hshort : c.toNat = 8 ∨ c.toNat = 9 ∨ c.toNat = 10 ∨ c.toNat = 12 ∨ c.toNat = 13
  · rcases hshort with h | h | h | h | h <;> rw [hofNat _ h] <;> rfl
  · simp only [not_or] at hshort
    obtain ⟨h8, h9, h10, h12, h13⟩ := hshort
    have hquote : c ≠ '"' := by
      rintro rfl
      exact absurd hcontrol (by decide)
    have hslash : c ≠ '\\' := by
      rintro rfl
      exact absurd hcontrol (by decide)
    have hencode : escaping.encode c =
        ['\\', 'u', '0', '0', hexDigit (c.toNat / 16), hexDigit (c.toNat % 16)] := by
      simp only [escaping, hquote, hslash, h8, h9, h10, h12, h13, hcontrol, if_false, if_true]
    have hzero : hexValue '0' = some 0 := by decide
    have hhigh := hexValue_hexDigit (show c.toNat / 16 < 16 by omega)
    have hlow := hexValue_hexDigit (show c.toNat % 16 < 16 by omega)
    have hsum : c.toNat / 16 * 16 + c.toNat % 16 = c.toNat := by omega
    rw [hencode]
    simp [escaping, hzero, hhigh, hlow, hsum]
    omega

theorem encode_plain {c : Char} (hcontrol : 32 ≤ c.toNat) (hquote : c ≠ '"')
    (hslash : c ≠ '\\') : escaping.encode c = [c] := by
  simp only [escaping, hquote, hslash, if_false]
  rw [if_neg (by omega), if_neg (by omega), if_neg (by omega), if_neg (by omega),
    if_neg (by omega), if_neg (by omega)]

theorem decode_plain {c : Char} (hcontrol : 32 ≤ c.toNat) (hslash : c ≠ '\\')
    (rest : List Char) : escaping.decode (c :: rest) = some (c, rest) := by
  have hnot : ¬ c.toNat < 32 := by omega
  simp [escaping, hslash, hnot]

theorem lawful_escaping : escaping.Lawful where
  decode_encode := by
    intro c rest
    rcases Nat.lt_or_ge c.toNat 32 with hcontrol | hcontrol
    · exact decode_control hcontrol rest
    · by_cases hquote : c = '"'
      · subst hquote
        rfl
      · by_cases hslash : c = '\\'
        · subst hslash
          rfl
        · rw [encode_plain hcontrol hquote hslash]
          exact decode_plain hcontrol hslash rest
  head?_encode := by
    intro c
    rcases Nat.lt_or_ge c.toNat 32 with hcontrol | hcontrol
    · have hslash : ∀ n : Fin 32,
          (escaping.encode (Char.ofNat n)).head? = some '\\' := by decide
      have hc := hslash ⟨c.toNat, hcontrol⟩
      rw [Char.ofNat_toNat] at hc
      exact ⟨'\\', hc, by decide⟩
    · by_cases hquote : c = '"'
      · subst hquote
        exact ⟨'\\', rfl, by decide⟩
      · by_cases hslash : c = '\\'
        · subst hslash
          exact ⟨'\\', rfl, by decide⟩
        · rw [encode_plain hcontrol hquote hslash]
          exact ⟨c, rfl, hquote⟩

end Json

end SfRs.Lib
