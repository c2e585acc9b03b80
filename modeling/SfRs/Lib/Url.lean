import SfRs.Lib.NetText
/-!
# URLs of internet addresses

The authority of a URL stands between `://` and the next slash.  One whose host is an
internet address has it as dotted decimal, or in brackets if it is an IPv6 address: the
colons of a bare IPv6 address cannot be told from the one in front of the port.
-/

namespace SfRs.Lib

def readPort (cs : List Char) : Option UInt16 := (readDecimal 65536 cs).map UInt16.ofNat

/-- The internet address and the port that an authority denotes. -/
def readAuthority (cs : List Char) : Option SocketAddr :=
  if cs.head? = some '[' then
    (readUntil ']' cs.tail).bind fun r =>
      if r.2.head? = some ':' then
        (readIpv6 r.1).bind fun ip => (readPort r.2.tail).map fun port => ⟨.v6 ip, port⟩
      else none
  else
    (readUntil ':' cs).bind fun r =>
      (readIpv4 r.1).bind fun ip => (readPort r.2).map fun port => ⟨.v4 ip, port⟩

def authority (url : String) : Option (List Char) :=
  (readUntil ':' url.toList).bind fun r =>
    match r.2 with
    | '/' :: '/' :: rest => some (rest.takeWhile (· ≠ '/'))
    | _ => none

/-- The path of a URL. -/
def IsPath (path : String) : Prop := path = "" ∨ ∃ rest, path = "/" ++ rest

/-- A URL parser on `http` and `https` URLs whose host is an internet address. -/
structure ParsesAddresses {Url : Type} (parse : String → Option Url)
    (endpoint : Url → Option SocketAddr) : Prop where
  accepts : ∀ scheme ∈ ["http", "https"], ∀ host path addr, IsPath path →
    readAuthority host.toList = some addr →
      ∃ url, parse (scheme ++ "://" ++ host ++ path) = some url ∧ endpoint url = some addr
  /-- An IPv6 address must be in brackets. -/
  rejects : ∀ scheme ∈ ["http", "https"], ∀ host (port : UInt16) path, IsPath path →
    (readIpv6 host.toList).isSome →
      parse (scheme ++ "://" ++ (host ++ ":" ++ toString port.toNat) ++ path) = none

/-! ## Reading what is written -/

theorem readPort_toString (port : UInt16) :
    readPort (toString port.toNat).toList = some port := by
  have hread : readDecimal 65536 (Nat.toDigits 10 port.toNat) = some port.toNat :=
    readDecimal_toDigits port.toNat_lt
  have htext : (toString port.toNat).toList = Nat.toDigits 10 port.toNat := Nat.toList_repr
  rw [readPort, htext, hread, Option.map_some, UInt16.ofNat_toNat]

theorem readAuthority_v4 (ip : Ipv4Addr) (port : UInt16) :
    readAuthority (ip.display ++ ":" ++ toString port.toNat).toList = some ⟨.v4 ip, port⟩ := by
  have hcolon : ':' ∉ ip.display.toList := not_mem_display_ipv4 (by decide) (by decide) ip
  have hbracket : '[' ∉ ip.display.toList := not_mem_display_ipv4 (by decide) (by decide) ip
  have htext : (ip.display ++ ":" ++ toString port.toNat).toList =
      ip.display.toList ++ ':' :: (toString port.toNat).toList := by
    simp
  have hhead : (ip.display.toList ++ ':' :: (toString port.toNat).toList).head? ≠ some '[' := by
    obtain ⟨c, cs, hcs⟩ := List.exists_cons_of_ne_nil
      (List.ne_nil_of_mem (dot_mem_display_ipv4 ip))
    rw [hcs, List.mem_cons, not_or] at hbracket
    rw [hcs, List.cons_append, List.head?_cons]
    exact fun h => hbracket.1 (Option.some.inj h).symm
  rw [htext, readAuthority, if_neg hhead, readUntil_append hcolon, Option.bind_some,
    readIpv4_display, Option.bind_some, readPort_toString, Option.map_some]

theorem not_mem_of_readIpv6 {cs : List Char} {ip : Ipv6Addr}
    (h : readIpv6 cs = some ip) {c : Char} (hhex : isHex c = false) (hdot : c ≠ '.')
    (hcolon : c ≠ ':') : c ∉ cs := by
  intro hc
  rcases char_of_readIpv6 h c hc with (hhex' | hdot') | hcolon'
  · rw [hhex] at hhex'
    cases hhex'
  · exact hdot hdot'
  · exact hcolon hcolon'

theorem readAuthority_v6 (ip : Ipv6Addr) (port : UInt16) :
    readAuthority ("[" ++ ip.display ++ "]" ++ ":" ++ toString port.toNat).toList =
      some ⟨.v6 ip, port⟩ := by
  have hbracket : ']' ∉ ip.display.toList :=
    not_mem_of_readIpv6 (readIpv6_display ip) (by decide) (by decide) (by decide)
  have htext : ("[" ++ ip.display ++ "]" ++ ":" ++ toString port.toNat).toList =
      '[' :: (ip.display.toList ++ ']' :: ':' :: (toString port.toNat).toList) := by
    simp
  rw [htext, readAuthority, List.head?_cons, if_pos rfl, List.tail_cons,
    readUntil_append hbracket, Option.bind_some, List.head?_cons, if_pos rfl, readIpv6_display,
    Option.bind_some, List.tail_cons, readPort_toString, Option.map_some]

/-! ## The characters of an authority -/

theorem not_mem_of_readPort {cs : List Char} {port : UInt16} (h : readPort cs = some port)
    {c : Char} (hc : c.isDigit = false) : c ∉ cs := by
  obtain ⟨n, hn, -⟩ := Option.map_eq_some_iff.mp h
  intro hmem
  have hdigit := isDigit_of_readDecimal hn c hmem
  rw [hc] at hdigit
  cases hdigit

theorem readUntil_eq_some {stop : Char} {cs l rest : List Char}
    (h : readUntil stop cs = some (l, rest)) : cs = l ++ stop :: rest := by
  induction cs generalizing l with
  | nil => cases h
  | cons c cs ih =>
      rw [readUntil] at h
      split_ifs at h with hc
      · cases h
        rw [hc, List.nil_append]
      · obtain ⟨⟨l', rest'⟩, hrest, hpair⟩ := Option.map_eq_some_iff.mp h
        cases hpair
        rw [ih hrest, List.cons_append]

theorem slash_not_mem_of_readAuthority {cs : List Char} {addr : SocketAddr}
    (h : readAuthority cs = some addr) : '/' ∉ cs := by
  rw [readAuthority] at h
  split_ifs at h with hbracket
  · obtain ⟨tail, rfl⟩ := List.head?_eq_some_iff.mp hbracket
    rw [List.tail_cons] at h
    obtain ⟨⟨host, rest⟩, hhost, h⟩ := Option.bind_eq_some_iff.mp h
    split_ifs at h with hcolon
    obtain ⟨ip, hip, h⟩ := Option.bind_eq_some_iff.mp h
    obtain ⟨port, hport, -⟩ := Option.map_eq_some_iff.mp h
    obtain ⟨digits, rfl⟩ := List.head?_eq_some_iff.mp hcolon
    have hslash : '/' ∉ host :=
      not_mem_of_readIpv6 hip (by decide) (by decide) (by decide)
    have hslash' : '/' ∉ digits := not_mem_of_readPort hport (by decide)
    rw [readUntil_eq_some hhost]
    simp [hslash, hslash']
  · obtain ⟨⟨host, digits⟩, hhost, h⟩ := Option.bind_eq_some_iff.mp h
    obtain ⟨ip, hip, h⟩ := Option.bind_eq_some_iff.mp h
    obtain ⟨port, hport, -⟩ := Option.map_eq_some_iff.mp h
    have hslash : '/' ∉ host := by
      intro hmem
      rcases char_of_readIpv4 hip '/' hmem with hdigit | hdot
      · exact absurd hdigit (by decide)
      · exact absurd hdot (by decide)
    have hslash' : '/' ∉ digits := not_mem_of_readPort hport (by decide)
    rw [readUntil_eq_some hhost]
    simp [hslash, hslash']

/-- The authority of a URL that is put together from one. -/
theorem authority_append {scheme host path : String} (hscheme : ':' ∉ scheme.toList)
    (hhost : '/' ∉ host.toList) (hpath : IsPath path) :
    authority (scheme ++ "://" ++ host ++ path) = some host.toList := by
  have htext : (scheme ++ "://" ++ host ++ path).toList =
      scheme.toList ++ ':' :: '/' :: '/' :: (host.toList ++ path.toList) := by
    simp
  have htake : (host.toList ++ path.toList).takeWhile (· ≠ '/') = host.toList := by
    have hall : ∀ c ∈ host.toList, decide (c ≠ '/') = true := fun c hc =>
      decide_eq_true fun heq => hhost (heq ▸ hc)
    rw [List.takeWhile_append_of_pos hall]
    rcases hpath with rfl | ⟨rest, rfl⟩
    · simp
    · simp
  rw [authority, htext, readUntil_append hscheme, Option.bind_some]
  simp only [htake]

/-! ## A parser of these URLs -/

/-- A parser that knows no other URLs. -/
def parseAddressUrl (url : String) : Option SocketAddr :=
  (authority url).bind readAuthority

/-- The port of a bare IPv6 address would begin at its first colon. -/
theorem readAuthority_bare_v6 {host : String} (h : (readIpv6 host.toList).isSome)
    (port : String) : readAuthority (host ++ ":" ++ port).toList = none := by
  obtain ⟨ip, hip⟩ := Option.isSome_iff_exists.mp h
  obtain ⟨first, rest, hsplit, hfirst⟩ := List.eq_append_cons_of_mem (colon_mem_of_readIpv6 hip)
  have hbracket : '[' ∉ host.toList :=
    not_mem_of_readIpv6 hip (by decide) (by decide) (by decide)
  have htext : (host ++ ":" ++ port).toList = first ++ ':' :: (rest ++ ':' :: port.toList) := by
    simp [hsplit]
  have hhead : (first ++ ':' :: (rest ++ ':' :: port.toList)).head? ≠ some '[' := by
    rw [hsplit] at hbracket
    rcases first with _ | ⟨c, first⟩
    · simp
    · rw [List.cons_append, List.mem_cons, not_or] at hbracket
      rw [List.cons_append, List.head?_cons]
      exact fun h => hbracket.1 (Option.some.inj h).symm
  have hport : readPort (rest ++ ':' :: port.toList) = none := by
    rcases hread : readPort (rest ++ ':' :: port.toList) with _ | n
    · rfl
    · exact absurd (List.mem_append_right rest List.mem_cons_self)
        (not_mem_of_readPort hread (by decide : Char.isDigit ':' = false))
  rw [htext, readAuthority, if_neg hhead, readUntil_append hfirst, Option.bind_some]
  simp [hport]

theorem parsesAddresses_parseAddressUrl : ParsesAddresses parseAddressUrl some := by
  have hscheme : ∀ scheme ∈ ["http", "https"], ':' ∉ scheme.toList := by
    decide
  constructor
  · intro scheme hmem host path addr hpath hread
    refine ⟨addr, ?_, rfl⟩
    rw [parseAddressUrl, authority_append (hscheme scheme hmem)
      (slash_not_mem_of_readAuthority hread) hpath, Option.bind_some, hread]
  · intro scheme hmem host port path hpath hv6
    have hslash : '/' ∉ (host ++ ":" ++ toString port.toNat).toList := by
      obtain ⟨ip, hip⟩ := Option.isSome_iff_exists.mp hv6
      have hhost : '/' ∉ host.toList :=
        not_mem_of_readIpv6 hip (by decide) (by decide) (by decide)
      have hport : '/' ∉ Nat.toDigits 10 port.toNat :=
        not_mem_toDigits_of_not_isDigit (by decide) port.toNat
      simp [hhost, hport]
    rw [parseAddressUrl, authority_append (hscheme scheme hmem) hslash hpath, Option.bind_some,
      readAuthority_bare_v6 hv6]

end SfRs.Lib
