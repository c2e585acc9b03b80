import SfRs.Lib.Net
import SfRs.Lib.Text
/-!
# Reading internet addresses

The text of an IPv4 address is four decimal numbers between dots.  That of an IPv6 address
is eight groups between colons, of which `::` may stand for zeros and an IPv4 address for
the last two.  The text that `Display` writes is read back as the address.
-/

namespace SfRs.Lib

/-! ## Numbers -/

/-- A decimal number below the bound, without leading zeros. -/
def readDecimal (bound : Nat) (cs : List Char) : Option Nat :=
  let n := Nat.ofDigitChars 10 cs 0
  if Nat.toDigits 10 n = cs ∧ n < bound then some n else none

def isHex (c : Char) : Bool :=
  c.isDigit || ('a' ≤ c && c ≤ 'f') || ('A' ≤ c && c ≤ 'F')

def hexValue (c : Char) : Nat :=
  if c.isDigit then c.toNat - '0'.toNat
  else if 'a' ≤ c then c.toNat - 'a'.toNat + 10
  else c.toNat - 'A'.toNat + 10

/-- One to four hexadecimal digits. -/
def readGroup (cs : List Char) : Option UInt16 :=
  if cs ≠ [] ∧ cs.length ≤ 4 ∧ cs.all isHex then
    some (UInt16.ofNat (cs.foldl (fun n c => 16 * n + hexValue c) 0))
  else none

theorem readDecimal_toDigits {n bound : Nat} (h : n < bound) :
    readDecimal bound (Nat.toDigits 10 n) = some n := by
  simp [readDecimal, Nat.ofDigitChars_ten_toDigits, h]

theorem isDigit_of_readDecimal {bound n : Nat} {cs : List Char}
    (h : readDecimal bound cs = some n) : ∀ c ∈ cs, c.isDigit := by
  simp only [readDecimal] at h
  split_ifs at h with hcs
  rw [← hcs.1]
  exact fun c hc => Nat.isDigit_of_mem_toDigits (by decide) (by decide) hc

theorem hexValue_digitChar_fin (n : Fin 16) :
    isHex (Nat.digitChar n) ∧ hexValue (Nat.digitChar n) = n := by
  decide +revert +kernel

theorem hex_toDigits (n : Nat) :
    (Nat.toDigits 16 n).all isHex ∧
      (Nat.toDigits 16 n).foldl (fun n c => 16 * n + hexValue c) 0 = n := by
  induction n using Nat.strong_induction_on with
  | _ n ih =>
      rw [Nat.toDigits_eq_if (by decide)]
      split_ifs with hlt
      · obtain ⟨hhex, hvalue⟩ := hexValue_digitChar_fin ⟨n, hlt⟩
        simpa using ⟨hhex, hvalue⟩
      · obtain ⟨hall, hfold⟩ := ih (n / 16) (by omega)
        obtain ⟨hhex, hvalue⟩ := hexValue_digitChar_fin ⟨n % 16, by omega⟩
        simp only at hhex hvalue
        simp only [List.all_append, List.foldl_append, List.foldl_cons, List.foldl_nil, hall,
          hfold, hvalue, hhex, List.all_cons, List.all_nil, Bool.and_self, true_and]
        omega

theorem readGroup_toDigits (s : UInt16) : readGroup (Nat.toDigits 16 s.toNat) = some s := by
  obtain ⟨hall, hfold⟩ := hex_toDigits s.toNat
  have hlen : (Nat.toDigits 16 s.toNat).length ≤ 4 :=
    (Nat.length_toDigits_le_iff (by decide) (by decide)).mpr s.toNat_lt
  rw [readGroup, if_pos ⟨Nat.toDigits_ne_nil, hlen, hall⟩, hfold, UInt16.ofNat_toNat]

theorem isHex_of_readGroup {cs : List Char} {s : UInt16} (h : readGroup cs = some s) :
    ∀ c ∈ cs, isHex c := by
  simp only [readGroup] at h
  split_ifs at h with hcs
  exact List.all_eq_true.mp hcs.2.2

/-! ## IPv4 -/

def readIpv4 (cs : List Char) : Option Ipv4Addr :=
  ((cs.splitOn '.').mapM (readDecimal 256)).bind fun ns =>
    if ns.length = 4 then some ⟨Vector.ofFn fun i => UInt8.ofNat (ns.getD i 0)⟩ else none

theorem toList_display_ipv4 (ip : Ipv4Addr) :
    ip.display.toList =
      ['.'].intercalate (ip.octets.toList.map fun o => Nat.toDigits 10 o.toNat) := by
  rw [Ipv4Addr.display, String.toList_intercalate, List.map_map]
  congr 1
  refine List.map_congr_left fun o _ => ?_
  exact Nat.toList_repr

theorem not_mem_toDigits_of_not_isDigit {c : Char} (hc : c.isDigit = false) (n : Nat) :
    c ∉ Nat.toDigits 10 n := fun h => by
  have hdigit := Nat.isDigit_of_mem_toDigits (by decide) (by decide) h
  rw [hc] at hdigit
  cases hdigit

theorem readIpv4_display (ip : Ipv4Addr) : readIpv4 ip.display.toList = some ip := by
  have hlen : ip.octets.toList.length = 4 := ip.octets.length_toList
  have hne : (ip.octets.toList.map fun o => Nat.toDigits 10 o.toNat) ≠ [] := by
    rw [ne_eq, List.map_eq_nil_iff]
    exact List.ne_nil_of_length_pos (by rw [hlen]; decide)
  have hdot : ∀ l ∈ ip.octets.toList.map fun o => Nat.toDigits 10 o.toNat, '.' ∉ l :=
    List.forall_mem_map.mpr fun o _ => not_mem_toDigits_of_not_isDigit (by decide) o.toNat
  have hread : (ip.octets.toList.map fun o => Nat.toDigits 10 o.toNat).mapM (readDecimal 256) =
      some (ip.octets.toList.map fun o => o.toNat) :=
    mapM_map_eq_some fun o _ => readDecimal_toDigits o.toNat_lt
  rw [readIpv4, toList_display_ipv4, List.splitOn_intercalate '.' hdot hne, hread,
    Option.bind_some, List.length_map, if_pos hlen]
  congr 2
  ext i hi
  simp

/-! ## IPv6 -/

/-- The groups up to the first `::`, and what follows it. -/
def splitDouble : List Char → Option (List Char × List Char)
  | [] => none
  | c :: cs =>
      if c = ':' ∧ cs.head? = some ':' then some ([], cs.tail)
      else (splitDouble cs).map fun r => (c :: r.1, r.2)

/-- An IPv4 address in place of two groups. -/
def ipv4Groups (ip : Ipv4Addr) : List UInt16 :=
  [ip.octets[0].toUInt16 <<< 8 ||| ip.octets[1].toUInt16,
    ip.octets[2].toUInt16 <<< 8 ||| ip.octets[3].toUInt16]

/-- Groups, the last of which may be an IPv4 address. -/
def readPieces : List (List Char) → Option (List UInt16)
  | [] => some []
  | piece :: pieces =>
      match readGroup piece with
      | some g => (readPieces pieces).map fun gs => g :: gs
      | none => if pieces = [] then (readIpv4 piece).map ipv4Groups else none

def ofSegments (gs : List UInt16) : Option Ipv6Addr :=
  if gs.length = 8 then some ⟨Vector.ofFn fun i => gs.getD i 0⟩ else none

def readIpv6 (cs : List Char) : Option Ipv6Addr :=
  match splitDouble cs with
  | none => (readPieces (cs.splitOn ':')).bind ofSegments
  | some (left, right) =>
      (if left = [] then some [] else (left.splitOn ':').mapM readGroup).bind fun l =>
        (if right = [] then some [] else readPieces (right.splitOn ':')).bind fun r =>
          if l.length + r.length < 8 then
            ofSegments (l ++ List.replicate (8 - (l.length + r.length)) 0 ++ r)
          else none

theorem ofSegments_toList (ip : Ipv6Addr) : ofSegments ip.segments.toList = some ip := by
  rw [ofSegments, if_pos ip.segments.length_toList]
  congr 2
  ext i hi
  simp

/-- The text of groups. -/
def groupsText (gs : List UInt16) : List Char :=
  [':'].intercalate (gs.map fun s => Nat.toDigits 16 s.toNat)

theorem toList_displayGroups (gs : List UInt16) : (displayGroups gs).toList = groupsText gs := by
  rw [displayGroups, String.toList_intercalate, List.map_map]
  congr 1
  refine List.map_congr_left fun s _ => ?_
  exact String.toList_ofList

theorem isHex_of_mem_toDigits {c : Char} {n : Nat} (h : c ∈ Nat.toDigits 16 n) : isHex c :=
  List.all_eq_true.mp (hex_toDigits n).1 c h

theorem colon_not_mem_toDigits (n : Nat) : ':' ∉ Nat.toDigits 16 n := fun h =>
  absurd (isHex_of_mem_toDigits h) (by decide)

theorem groupsText_cons_cons (g g' : UInt16) (gs : List UInt16) :
    groupsText (g :: g' :: gs) = Nat.toDigits 16 g.toNat ++ ':' :: groupsText (g' :: gs) := by
  simp [groupsText]

theorem splitOn_groupsText {gs : List UInt16} (hne : gs ≠ []) :
    (groupsText gs).splitOn ':' = gs.map fun s => Nat.toDigits 16 s.toNat :=
  List.splitOn_intercalate ':' (List.forall_mem_map.mpr fun s _ => colon_not_mem_toDigits s.toNat)
    (by simpa using hne)

theorem groupsText_ne_nil {gs : List UInt16} (hne : gs ≠ []) : groupsText gs ≠ [] := by
  intro hnil
  have hsplit := splitOn_groupsText hne
  rw [hnil, List.splitOn_nil] at hsplit
  obtain ⟨g, gs, rfl⟩ := List.exists_cons_of_ne_nil hne
  rw [List.map_cons] at hsplit
  injection hsplit with hfirst _
  exact Nat.toDigits_ne_nil hfirst.symm

theorem readPieces_groups (gs : List UInt16) :
    readPieces (gs.map fun s => Nat.toDigits 16 s.toNat) = some gs := by
  induction gs with
  | nil => rfl
  | cons g gs ih => simp [readPieces, readGroup_toDigits, ih]

/-! ### The double colon -/

theorem splitDouble_digits {ds : List Char} (hds : ':' ∉ ds) (rest : List Char) :
    splitDouble (ds ++ rest) = (splitDouble rest).map fun r => (ds ++ r.1, r.2) := by
  induction ds with
  | nil => simp
  | cons d ds ih =>
      rw [List.mem_cons, not_or] at hds
      rw [List.cons_append, splitDouble, if_neg fun h => hds.1 h.1.symm, ih hds.2, Option.map_map]
      rfl

theorem splitDouble_colon {c : Char} (hc : c ≠ ':') (rest : List Char) :
    splitDouble (':' :: c :: rest) =
      (splitDouble (c :: rest)).map fun r => (':' :: r.1, r.2) := by
  rw [splitDouble, if_neg]
  simpa using hc

/-- The text of groups does not begin with a colon. -/
theorem exists_groupsText_eq_cons {gs : List UInt16} (hne : gs ≠ []) :
    ∃ c cs, groupsText gs = c :: cs ∧ c ≠ ':' := by
  obtain ⟨g, gs, rfl⟩ := List.exists_cons_of_ne_nil hne
  have hdigits : Nat.toDigits 16 g.toNat ≠ [] := Nat.toDigits_ne_nil
  obtain ⟨c, cs, hdigits⟩ := List.exists_cons_of_ne_nil hdigits
  have hc : c ≠ ':' := by
    rintro rfl
    exact colon_not_mem_toDigits g.toNat (hdigits ▸ List.mem_cons_self)
  rcases gs with _ | ⟨g', gs⟩
  · exact ⟨c, cs, by simp [groupsText, hdigits], hc⟩
  · exact ⟨c, cs ++ ':' :: groupsText (g' :: gs), by
      rw [groupsText_cons_cons, hdigits, List.cons_append], hc⟩

theorem splitDouble_groupsText_append (gs : List UInt16) (rest : List Char) :
    splitDouble (groupsText gs ++ rest) =
      (splitDouble rest).map fun r => (groupsText gs ++ r.1, r.2) := by
  induction gs with
  | nil => simp [groupsText]
  | cons g gs ih =>
      rcases gs with _ | ⟨g', gs⟩
      · simpa [groupsText] using splitDouble_digits (colon_not_mem_toDigits g.toNat) rest
      · obtain ⟨c, cs, hcs, hc⟩ := exists_groupsText_eq_cons (List.cons_ne_nil g' gs)
        have hcolon := splitDouble_colon hc (cs ++ rest)
        rw [← List.cons_append, ← hcs, ih, Option.map_map] at hcolon
        rw [groupsText_cons_cons, List.append_assoc,
          splitDouble_digits (colon_not_mem_toDigits g.toNat), List.cons_append, hcolon,
          Option.map_map]
        congr 1
        funext r
        simp

/-! ### Runs of zeros -/

/-- The span is one of zero groups. -/
def ZeroSpan (segments : List UInt16) (sp : Span) : Prop :=
  sp.start + sp.len ≤ segments.length ∧
    ∀ k, sp.start ≤ k → k < sp.start + sp.len → segments[k]? = some 0

theorem zeroSpan_empty (segments : List UInt16) : ZeroSpan segments ⟨0, 0⟩ :=
  ⟨Nat.zero_le _, fun k _ hk => absurd hk (Nat.not_lt_zero k)⟩

/-- The run that is going on ends at the next group, and both runs are of zeros. -/
theorem zeroSpan_longestZeros {done rest : List UInt16} {current longest : Span}
    (hcurrent : ZeroSpan (done ++ rest) current)
    (hend : current.len ≠ 0 → current.start + current.len = done.length)
    (hlongest : ZeroSpan (done ++ rest) longest) :
    ZeroSpan (done ++ rest) (longestZeros done.length rest current longest) := by
  induction rest generalizing done current longest with
  | nil => exact hlongest
  | cons segment rest ih =>
      have happend : done ++ segment :: rest = (done ++ [segment]) ++ rest := by simp
      have hlen : (done ++ [segment]).length = done.length + 1 := by simp
      rw [longestZeros]
      by_cases hzero : segment = 0
      · subst hzero
        set current' : Span :=
          ⟨if current.len = 0 then done.length else current.start, current.len + 1⟩ with hdef
        have hend' : current'.start + current'.len = done.length + 1 := by
          simp only [hdef]
          split_ifs with hnew
          · omega
          · have := hend hnew
            omega
        have hcurrent' : ZeroSpan (done ++ 0 :: rest) current' := by
          refine ⟨by rw [hend', List.length_append, List.length_cons]; omega, fun k hle hlt => ?_⟩
          by_cases hlast : k = done.length
          · simp [hlast]
          · refine hcurrent.2 k ?_ ?_
            · simp only [hdef] at hle
              split_ifs at hle with hnew
              · omega
              · exact hle
            · simp only [hdef] at hle hlt hend'
              split_ifs at hle hlt hend' with hnew
              · omega
              · omega
        rw [if_pos rfl, happend, ← hlen]
        rw [happend] at hcurrent' hlongest
        refine ih hcurrent' (fun _ => hend'.trans hlen.symm) ?_
        split_ifs
        · exact hcurrent'
        · exact hlongest
      · rw [if_neg hzero, happend, ← hlen]
        rw [happend] at hlongest
        exact ih (zeroSpan_empty _) (fun h => absurd rfl h) hlongest

/-- The groups around a run of zeros, and the zeros. -/
theorem ZeroSpan.split {segments : List UInt16} {sp : Span} (h : ZeroSpan segments sp) :
    segments.take sp.start ++ List.replicate sp.len 0 ++ segments.drop (sp.start + sp.len) =
      segments := by
  obtain ⟨hfit, hzeros⟩ := h
  have hmiddle : (segments.drop sp.start).take sp.len = List.replicate sp.len 0 := by
    refine List.ext_getElem? fun k => ?_
    by_cases hk : k < sp.len
    · rw [List.getElem?_take_of_lt hk, List.getElem?_drop, hzeros _ (by omega) (by omega)]
      simp [hk]
    · rw [List.getElem?_eq_none (by rw [List.length_take]; omega),
        List.getElem?_eq_none (by rw [List.length_replicate]; omega)]
  rw [← hmiddle, ← List.drop_drop, List.append_assoc, List.take_append_drop,
    List.take_append_drop]

/-! ### The round trip -/

theorem join_bytes (s : UInt16) :
    (s >>> 8).toUInt8.toUInt16 <<< 8 ||| s.toUInt8.toUInt16 = s := by
  have hlt : s.toNat < 65536 := s.toNat_lt
  apply UInt16.toNat.inj
  have hamount : UInt16.toNat 8 % 16 = 8 := rfl
  have hjoin := Nat.shiftLeft_add_eq_or_of_lt (Nat.mod_lt s.toNat (by decide : 0 < 2 ^ 8))
    (s.toNat / 256)
  simp only [UInt16.toNat_or, UInt16.toNat_shiftLeft, UInt16.toNat_shiftRight,
    UInt8.toNat_toUInt16, UInt16.toNat_toUInt8, hamount]
  have hhigh : (s.toNat >>> 8 % 2 ^ 8) <<< 8 % 2 ^ 16 = (s.toNat / 256) <<< 8 := by
    rw [Nat.shiftRight_eq_div_pow, Nat.shiftLeft_eq, Nat.shiftLeft_eq]
    omega
  rw [hhigh, ← hjoin, Nat.shiftLeft_eq]
  omega

theorem mem_intercalate {α : Type*} {sep : α} {c : α} {ls : List (List α)}
    (h : c ∈ [sep].intercalate ls) : c = sep ∨ ∃ l ∈ ls, c ∈ l := by
  induction ls with
  | nil => simp at h
  | cons l ls ih =>
      rcases ls with _ | ⟨l', ls⟩
      · exact .inr ⟨l, List.mem_cons_self, by simpa using h⟩
      · rw [List.intercalate_cons_cons, List.append_assoc, List.mem_append] at h
        rcases h with hl | hrest
        · exact .inr ⟨l, List.mem_cons_self, hl⟩
        · rcases List.mem_cons.mp hrest with rfl | hrest
          · exact .inl rfl
          · rcases ih hrest with hsep | ⟨m, hm, hc⟩
            · exact .inl hsep
            · exact .inr ⟨m, List.mem_cons_of_mem l hm, hc⟩

theorem not_mem_display_ipv4 {c : Char} (hdigit : c.isDigit = false) (hdot : c ≠ '.')
    (ip : Ipv4Addr) : c ∉ ip.display.toList := by
  rw [toList_display_ipv4]
  intro h
  rcases mem_intercalate h with rfl | ⟨l, hl, hc⟩
  · exact hdot rfl
  · obtain ⟨o, -, rfl⟩ := List.mem_map.mp hl
    exact not_mem_toDigits_of_not_isDigit hdigit o.toNat hc

theorem dot_mem_display_ipv4 (ip : Ipv4Addr) : '.' ∈ ip.display.toList := by
  by_contra hdot
  have hread := readIpv4_display ip
  rw [readIpv4, List.splitOn_eq_singleton hdot] at hread
  rcases h : readDecimal 256 ip.display.toList with _ | n <;> simp [h] at hread

theorem toIpv4Mapped_eq_some {ip : Ipv6Addr} {ipv4 : Ipv4Addr}
    (h : ip.toIpv4Mapped = some ipv4) :
    ip.segments.toList = [0, 0, 0, 0, 0, 0xffff] ++ ipv4Groups ipv4 := by
  rw [Ipv6Addr.toIpv4Mapped] at h
  split at h
  next ab cd hsegments =>
    cases h
    change _ = [(0 : UInt16), 0, 0, 0, 0, 0xffff,
      (ab >>> 8).toUInt8.toUInt16 <<< 8 ||| ab.toUInt8.toUInt16,
      (cd >>> 8).toUInt8.toUInt16 <<< 8 ||| cd.toUInt8.toUInt16]
    rw [hsegments, join_bytes, join_bytes]
  next => cases h

/-- The text `::ffff:a.b.c.d`. -/
theorem readIpv6_mapped {ip : Ipv6Addr} {ipv4 : Ipv4Addr} (h : ip.toIpv4Mapped = some ipv4) :
    readIpv6 ("::ffff:" ++ ipv4.display).toList = some ip := by
  have hcolon : ':' ∉ ipv4.display.toList := not_mem_display_ipv4 (by decide) (by decide) ipv4
  have hgroup : readGroup ipv4.display.toList = none := by
    by_contra hsome
    obtain ⟨g, hg⟩ := Option.ne_none_iff_exists'.mp hsome
    exact absurd (isHex_of_readGroup hg '.' (dot_mem_display_ipv4 ipv4)) (by decide)
  have hsplit : ("ffff:" ++ ipv4.display).toList.splitOn ':' =
      ["ffff".toList, ipv4.display.toList] := by
    rw [String.toList_append]
    change ("ffff".toList ++ ':' :: ipv4.display.toList).splitOn ':' = _
    rw [List.splitOn_append_cons_self, List.splitOn_eq_singleton hcolon,
      List.splitOn_eq_singleton (by decide)]
    rfl
  have hpieces : readPieces ["ffff".toList, ipv4.display.toList] =
      some (0xffff :: ipv4Groups ipv4) := by
    have hffff : readGroup "ffff".toList = some 0xffff := by decide +kernel
    simp only [readPieces, hffff, hgroup, readIpv4_display, if_true, Option.map_some]
  have hdouble : splitDouble ("::ffff:" ++ ipv4.display).toList =
      some ([], ("ffff:" ++ ipv4.display).toList) := by
    simp [splitDouble]
  have hne : ("ffff:" ++ ipv4.display).toList ≠ [] := by simp
  rw [readIpv6, hdouble]
  simp only [if_true, Option.bind_some, hne, if_false, hsplit, hpieces]
  rw [← ofSegments_toList ip, toIpv4Mapped_eq_some h]
  rfl

/-- Two runs of groups around a double colon. -/
theorem readIpv6_double {l r : List UInt16} (hlen : l.length + r.length < 8) :
    readIpv6 (groupsText l ++ ':' :: ':' :: groupsText r) =
      ofSegments (l ++ List.replicate (8 - (l.length + r.length)) 0 ++ r) := by
  have hsplit := splitDouble_groupsText_append l (':' :: ':' :: groupsText r)
  have hdouble : splitDouble (':' :: ':' :: groupsText r) = some ([], groupsText r) := by
    simp [splitDouble]
  have hleft : (if groupsText l = [] then some [] else
      ((groupsText l).splitOn ':').mapM readGroup) = some l := by
    by_cases hl : l = []
    · subst hl
      rfl
    · rw [if_neg (groupsText_ne_nil hl), splitOn_groupsText hl]
      have hread := mapM_map_eq_some (f := readGroup) (g := fun s => Nat.toDigits 16 s.toNat)
        (h := id) (l := l) fun s _ => readGroup_toDigits s
      rwa [List.map_id] at hread
  have hright : (if groupsText r = [] then some [] else
      readPieces ((groupsText r).splitOn ':')) = some r := by
    by_cases hr : r = []
    · subst hr
      rfl
    · rw [if_neg (groupsText_ne_nil hr), splitOn_groupsText hr, readPieces_groups]
  rw [hdouble, Option.map_some, List.append_nil] at hsplit
  rw [readIpv6, hsplit]
  simp only [hleft, hright, Option.bind_some, hlen, if_true]

theorem readIpv6_display (ip : Ipv6Addr) : readIpv6 ip.display.toList = some ip := by
  have hlen : ip.segments.toList.length = 8 := ip.segments.length_toList
  rw [Ipv6Addr.display]
  split
  next ipv4 hmapped => exact readIpv6_mapped hmapped
  next hmapped =>
    have hspan : ZeroSpan ip.segments.toList (longestZeros 0 ip.segments.toList ⟨0, 0⟩ ⟨0, 0⟩) :=
      @zeroSpan_longestZeros [] ip.segments.toList ⟨0, 0⟩ ⟨0, 0⟩ (zeroSpan_empty _)
        (fun h => absurd rfl h) (zeroSpan_empty _)
    simp only
    set zeroes := longestZeros 0 ip.segments.toList ⟨0, 0⟩ ⟨0, 0⟩
    have hfit := hspan.1
    split_ifs with hmany
    · set l := ip.segments.toList.take zeroes.start with hl
      set r := ip.segments.toList.drop (zeroes.start + zeroes.len) with hr
      have hsides : l.length + r.length + zeroes.len = 8 := by
        rw [hl, hr, List.length_take, List.length_drop, hlen] at *
        omega
      have hzeros : 8 - (l.length + r.length) = zeroes.len := by omega
      have htext : (displayGroups l ++ "::" ++ displayGroups r).toList =
          groupsText l ++ ':' :: ':' :: groupsText r := by
        simp [toList_displayGroups]
      rw [htext, readIpv6_double (by omega), hzeros, hspan.split, ofSegments_toList]
    · have hne : ip.segments.toList ≠ [] := List.ne_nil_of_length_pos (by rw [hlen]; decide)
      have hsplit := splitDouble_groupsText_append ip.segments.toList []
      rw [List.append_nil] at hsplit
      rw [toList_displayGroups, readIpv6, hsplit]
      simp only [splitDouble, Option.map_none]
      rw [splitOn_groupsText hne, readPieces_groups, Option.bind_some, ofSegments_toList]

/-! ### The characters of an address -/

theorem exists_of_mapM_eq_some {α β : Type*} {f : α → Option β} {l : List α} {bs : List β}
    (h : l.mapM f = some bs) : ∀ a ∈ l, ∃ b, f a = some b := by
  intro a ha
  rcases hfa : f a with _ | b
  · rw [mapM_eq_none ha hfa] at h
    cases h
  · exact ⟨b, rfl⟩

theorem mem_splitOn_of_mem {c : Char} {cs : List Char} (sep : Char) (h : c ∈ cs) :
    c = sep ∨ ∃ piece ∈ cs.splitOn sep, c ∈ piece := by
  have hsplit : [sep].intercalate (cs.splitOn sep) = cs := List.intercalate_splitOn sep
  rw [← hsplit] at h
  exact mem_intercalate h

theorem char_of_readIpv4 {cs : List Char} {ip : Ipv4Addr} (h : readIpv4 cs = some ip) :
    ∀ c ∈ cs, c.isDigit ∨ c = '.' := by
  intro c hc
  obtain ⟨ns, hns, -⟩ := Option.bind_eq_some_iff.mp h
  rcases mem_splitOn_of_mem '.' hc with rfl | ⟨piece, hpiece, hmem⟩
  · exact .inr rfl
  · obtain ⟨n, hn⟩ := exists_of_mapM_eq_some hns piece hpiece
    exact .inl (isDigit_of_readDecimal hn c hmem)

theorem char_of_readPieces {pieces : List (List Char)} {gs : List UInt16}
    (h : readPieces pieces = some gs) : ∀ piece ∈ pieces, ∀ c ∈ piece, isHex c ∨ c = '.' := by
  induction pieces generalizing gs with
  | nil => simp
  | cons first pieces ih =>
      rw [readPieces] at h
      rcases hfirst : readGroup first with _ | g
      · simp only [hfirst] at h
        split_ifs at h with hlast
        obtain ⟨ipv4, hipv4, -⟩ := Option.map_eq_some_iff.mp h
        subst hlast
        intro piece hpiece c hc
        rw [List.mem_singleton.mp hpiece] at hc
        rcases char_of_readIpv4 hipv4 c hc with hdigit | hdot
        · exact .inl (by simp [isHex, hdigit])
        · exact .inr hdot
      · simp only [hfirst] at h
        obtain ⟨gs', hgs', -⟩ := Option.map_eq_some_iff.mp h
        refine List.forall_mem_cons.mpr ⟨fun c hc => .inl (isHex_of_readGroup hfirst c hc), ?_⟩
        exact ih hgs'

theorem splitDouble_eq_some {cs left right : List Char}
    (h : splitDouble cs = some (left, right)) : cs = left ++ ':' :: ':' :: right := by
  induction cs generalizing left with
  | nil => cases h
  | cons c cs ih =>
      rw [splitDouble] at h
      split_ifs at h with hcolons
      · cases h
        obtain ⟨rfl, hhead⟩ := hcolons
        obtain ⟨tail, rfl⟩ := List.head?_eq_some_iff.mp hhead
        rfl
      · obtain ⟨⟨l, r⟩, hrest, hpair⟩ := Option.map_eq_some_iff.mp h
        cases hpair
        rw [ih hrest, List.cons_append]

theorem char_of_readIpv6 {cs : List Char} {ip : Ipv6Addr} (h : readIpv6 cs = some ip) :
    ∀ c ∈ cs, (isHex c ∨ c = '.') ∨ c = ':' := by
  intro c hc
  rw [readIpv6] at h
  rcases hsplit : splitDouble cs with _ | ⟨left, right⟩
  · simp only [hsplit] at h
    obtain ⟨gs, hgs, -⟩ := Option.bind_eq_some_iff.mp h
    rcases mem_splitOn_of_mem ':' hc with rfl | ⟨piece, hpiece, hmem⟩
    · exact .inr rfl
    · exact .inl (char_of_readPieces hgs piece hpiece c hmem)
  · simp only [hsplit] at h
    obtain ⟨l, hl, h⟩ := Option.bind_eq_some_iff.mp h
    obtain ⟨r, hr, -⟩ := Option.bind_eq_some_iff.mp h
    rw [splitDouble_eq_some hsplit, List.mem_append, List.mem_cons, List.mem_cons] at hc
    rcases hc with hleft | rfl | rfl | hright
    · rw [if_neg (List.ne_nil_of_mem hleft)] at hl
      rcases mem_splitOn_of_mem ':' hleft with rfl | ⟨piece, hpiece, hmem⟩
      · exact .inr rfl
      · obtain ⟨g, hg⟩ := exists_of_mapM_eq_some hl piece hpiece
        exact .inl (.inl (isHex_of_readGroup hg c hmem))
    · exact .inr rfl
    · exact .inr rfl
    · rw [if_neg (List.ne_nil_of_mem hright)] at hr
      rcases mem_splitOn_of_mem ':' hright with rfl | ⟨piece, hpiece, hmem⟩
      · exact .inr rfl
      · exact .inl (char_of_readPieces hr piece hpiece c hmem)

theorem colon_mem_of_readIpv6 {cs : List Char} {ip : Ipv6Addr} (h : readIpv6 cs = some ip) :
    ':' ∈ cs := by
  by_contra hcolon
  have hdouble := splitDouble_digits hcolon []
  rw [List.append_nil] at hdouble
  rw [readIpv6, hdouble] at h
  simp only [splitDouble, Option.map_none] at h
  rw [List.splitOn_eq_singleton hcolon] at h
  obtain ⟨gs, hgs, hip⟩ := Option.bind_eq_some_iff.mp h
  rcases hgroup : readGroup cs with _ | g
  · rcases hipv4 : readIpv4 cs with _ | ipv4
    · simp [readPieces, hgroup, hipv4] at hgs
    · obtain rfl : ipv4Groups ipv4 = gs := by simpa [readPieces, hgroup, hipv4] using hgs
      simp [ofSegments, ipv4Groups] at hip
  · obtain rfl : [g] = gs := by simpa [readPieces, hgroup] using hgs
    simp [ofSegments] at hip

end SfRs.Lib
