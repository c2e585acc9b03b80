import Mathlib.Data.List.TakeWhile
import SfRs.Lib.Text
import SfRs.PeerId.Display
/-!
# The identifier in a connection request

The server takes the identifier of a peer from the header `x-sf-peer-id`, and without it
from the query parameter `peer_id`, whose value may be percent-encoded.
-/

namespace SfRs.Server

open SfRs.Lib SfRs.PeerId

/-- What is read of the request: the bytes of the header, and the query of the URI. -/
structure Parts where
  header : Option (List UInt8)
  query : Option String

structure PeerIdRejection where
  status : Nat
  message : String

namespace PeerIdRejection

def badRequest : Nat := 400

def missingRequired : PeerIdRejection where
  status := badRequest
  message := "`x-sf-peer-id` header or `peer_id` query parameter is required"

def invalidHeaderValue : PeerIdRejection where
  status := badRequest
  message := "Invalid `x-sf-peer-id` header value"

def emptyHeader : PeerIdRejection where
  status := badRequest
  message := "`x-sf-peer-id` cannot be empty"

def emptyQuery : PeerIdRejection where
  status := badRequest
  message := "`peer_id` query parameter cannot be empty"

def badQueryParse : PeerIdRejection where
  status := badRequest
  message := "Failed to parse query parameters"

end PeerIdRejection

/-- `HeaderValue::to_str`, which takes visible ASCII and tabs only. -/
def headerToStr (value : List UInt8) : Option String :=
  if value.all fun b => (32 ≤ b && b < 127) || b = 9 then some (.ofList (value.map asChar))
  else none

def fromHex (byte : UInt8) : Option UInt8 :=
  if 48 ≤ byte ∧ byte ≤ 57 then some (byte - 48)
  else if 97 ≤ byte ∧ byte ≤ 102 then some (byte - 97 + 10)
  else if 65 ≤ byte ∧ byte ≤ 70 then some (byte - 65 + 10)
  else none

/-- The loop of `percent_decode`, on the bytes from the index on. -/
def percentDecodeLoop : List UInt8 → Option (List UInt8)
  | [] => some []
  | 37 :: hi :: lo :: rest => do
      let hi ← fromHex hi
      let lo ← fromHex lo
      return ((hi <<< 4) ||| lo) :: (← percentDecodeLoop rest)
  | b :: rest => if b = 37 then none else (percentDecodeLoop rest).map (b :: ·)

def percentDecode (input : List UInt8) : Option String :=
  (percentDecodeLoop input).bind fun out => String.fromUTF8? ⟨out.toArray⟩

/-- `str::split_once`. -/
def splitOnce (sep : Char) (s : String) : Option (String × String) :=
  (readUntil sep s.toList).map fun r => (.ofList r.1, .ofList r.2)

/-- `str::split`. -/
def split (sep : Char) (s : String) : List String := (s.toList.splitOn sep).map .ofList

/-- The raw value of the first pair with the key `peer_id`. -/
def findParam (query : String) : Option String :=
  (split '&' query).findSome? fun pair =>
    (splitOnce '=' pair).bind fun (key, val) => if key = "peer_id" then some val else none

/-- `PeerID::from_str`, with its error mapped to a rejection. -/
def parsePeerId (rejection : PeerIdRejection) (s : String) :
    Outcome (Except PeerIdRejection PeerID) :=
  (fromStr 32 s).bind fun r => .done (r.mapError fun _ => rejection)

def extractFromHeader (headerValue : List UInt8) : Outcome (Except PeerIdRejection PeerID) :=
  match headerToStr headerValue with
  | none => .done (.error .invalidHeaderValue)
  | some peerIdStr =>
      if peerIdStr.isEmpty then .done (.error .emptyHeader)
      else parsePeerId .invalidHeaderValue peerIdStr

def extractFromQuery (query : Option String) : Outcome (Except PeerIdRejection PeerID) :=
  match query.bind findParam with
  | none => .done (.error .missingRequired)
  | some rawValue =>
      match percentDecode (asBytes rawValue) with
      | none => .done (.error .badQueryParse)
      | some decoded =>
          if decoded.isEmpty then .done (.error .emptyQuery)
          else parsePeerId .badQueryParse decoded

def fromRequestParts (parts : Parts) : Outcome (Except PeerIdRejection PeerID) :=
  match parts.header with
  | some peerIdHeader => extractFromHeader peerIdHeader
  | none => extractFromQuery parts.query

/-- The URL that `WebSocketConnection::connect` opens. -/
def wsUrl (url peerId : String) : String := "wss://" ++ url ++ "/ws?peer_id=" ++ peerId

/-- `Uri::query`: what follows the first question mark, without the fragment. -/
def uriQuery (uri : String) : Option String :=
  (splitOnce '?' (.ofList (uri.toList.takeWhile (· ≠ '#')))).map Prod.snd

/-! ## Encodings -/

/-- The character is the digit `n` in lower or upper case. -/
def IsDigitOf (n : Nat) (c : Char) : Prop :=
  c = Nat.digitChar n ∨ c = (Nat.digitChar n).toUpper

/-- The second text is the first with each character either kept or escaped. -/
inductive PercentEncodes : List Char → List Char → Prop
  | nil : PercentEncodes [] []
  | literal {c cs es} : PercentEncodes cs es → PercentEncodes (c :: cs) (c :: es)
  | escaped {c cs es h l} : IsDigitOf (c.toNat / 16) h → IsDigitOf (c.toNat % 16) l →
      PercentEncodes cs es → PercentEncodes (c :: cs) ('%' :: h :: l :: es)

/-- The request is accepted, and identifies the peer. -/
def Yields (parts : Parts) (id : PeerID) : Prop :=
  ∃ id', fromRequestParts parts = .done (.ok id') ∧ id'.eq id = .done true

/-! ## Digits -/

theorem fromHex_fin (n : Fin 16) :
    fromHex (Nat.digitChar n).toUInt8 = some (UInt8.ofNat n) ∧
      fromHex (Nat.digitChar n).toUpper.toUInt8 = some (UInt8.ofNat n) := by
  decide +revert +kernel

theorem fromHex_of_isDigitOf {n : Nat} {c : Char} (hn : n < 16) (hc : IsDigitOf n c) :
    fromHex c.toUInt8 = some (UInt8.ofNat n) := by
  rcases hc with rfl | rfl
  · exact (fromHex_fin ⟨n, hn⟩).1
  · exact (fromHex_fin ⟨n, hn⟩).2

/-- The character is one byte, and has no meaning of its own in a query. -/
structure IsPlain (c : Char) : Prop where
  ascii : c.toNat < 128
  percent : c ≠ '%'
  amp : c ≠ '&'
  hash : c ≠ '#'

instance (c : Char) : Decidable (IsPlain c) :=
  decidable_of_iff (c.toNat < 128 ∧ c ≠ '%' ∧ c ≠ '&' ∧ c ≠ '#')
    ⟨fun ⟨h₁, h₂, h₃, h₄⟩ => ⟨h₁, h₂, h₃, h₄⟩, fun h => ⟨h.1, h.2, h.3, h.4⟩⟩

theorem isPlain_fin (n : Fin 16) :
    IsPlain (Nat.digitChar n) ∧ IsPlain (Nat.digitChar n).toUpper := by
  decide +revert +kernel

theorem isPlain_of_isDigitOf {n : Nat} {c : Char} (hn : n < 16) (hc : IsDigitOf n c) :
    IsPlain c := by
  rcases hc with rfl | rfl
  · exact (isPlain_fin ⟨n, hn⟩).1
  · exact (isPlain_fin ⟨n, hn⟩).2

/-! ## Decoding -/

variable {cs es : List Char}

theorem toNat_toUInt8 {c : Char} (hc : c.toNat < 128) : c.toUInt8.toNat = c.toNat := by
  have hmod : c.toUInt8.toNat = c.toNat % 256 := UInt32.toNat_toUInt8 c.val
  rw [hmod]
  omega

theorem percentDecodeLoop_literal {b : UInt8} (hb : b ≠ 37) (rest : List UInt8) :
    percentDecodeLoop (b :: rest) = (percentDecodeLoop rest).map (b :: ·) := by
  rw [percentDecodeLoop]
  · rw [if_neg hb]
  · exact fun _ _ _ h => absurd h hb

theorem PercentEncodes.decode (h : PercentEncodes cs es) (hplain : ∀ c ∈ cs, IsPlain c) :
    percentDecodeLoop (es.map Char.toUInt8) = some (cs.map Char.toUInt8) ∧
      (∀ e ∈ es, e.toNat < 128) ∧ '&' ∉ es := by
  induction h with
  | nil => exact ⟨rfl, by simp, by simp⟩
  | @literal c cs es _ ih =>
      obtain ⟨⟨hc, hpercent, hamp, -⟩, hcs⟩ := List.forall_mem_cons.mp hplain
      obtain ⟨hdecode, hascii, hnot⟩ := ih hcs
      have hbyte : c.toUInt8 ≠ 37 := by
        intro heq
        have hnat : c.toNat = 37 := by rw [← toNat_toUInt8 hc, heq]; rfl
        exact hpercent (Char.toNat_inj.mp hnat)
      refine ⟨?_, ?_, ?_⟩
      · rw [List.map_cons, percentDecodeLoop_literal hbyte, hdecode]
        rfl
      · exact List.forall_mem_cons.mpr ⟨hc, hascii⟩
      · simp [hamp.symm, hnot]
  | @escaped c cs es h l hh hl _ ih =>
      obtain ⟨⟨hc, -, -, -⟩, hcs⟩ := List.forall_mem_cons.mp hplain
      obtain ⟨hdecode, hascii, hnot⟩ := ih hcs
      have hhigh : c.toNat / 16 < 16 := by omega
      have hlow : c.toNat % 16 < 16 := by omega
      have hhPlain := isPlain_of_isDigitOf hhigh hh
      have hlPlain := isPlain_of_isDigitOf hlow hl
      have hbyte : (UInt8.ofNat (c.toNat / 16) <<< 4) ||| UInt8.ofNat (c.toNat % 16) =
          c.toUInt8 := by
        rw [← toNat_toUInt8 hc]
        exact join_nibbles c.toUInt8
      refine ⟨?_, ?_, ?_⟩
      · have hpercent : ('%' : Char).toUInt8 = 37 := rfl
        simp [percentDecodeLoop, hpercent, fromHex_of_isDigitOf hhigh hh,
          fromHex_of_isDigitOf hlow hl, hdecode, hbyte]
      · have hpercent : ('%' : Char).toNat < 128 := by decide
        simpa [hhPlain.ascii, hlPlain.ascii, hpercent] using hascii
      · simp [hhPlain.amp.symm, hlPlain.amp.symm, hnot]

theorem fromUTF8?_toUTF8 (s : String) : String.fromUTF8? s.toUTF8 = some s := by
  have hvalid : s.toUTF8.IsValidUTF8 := s.isValidUTF8
  rw [String.fromUTF8?, dif_pos hvalid]
  rfl

theorem percentDecode_asBytes (h : PercentEncodes cs es) (hplain : ∀ c ∈ cs, IsPlain c) :
    percentDecode (asBytes (String.ofList es)) = some (String.ofList cs) := by
  obtain ⟨hdecode, hascii, -⟩ := h.decode hplain
  have hbytes : asBytes (String.ofList cs) = cs.map Char.toUInt8 :=
    asBytes_ofList_ascii fun c hc => (hplain c hc).ascii
  have hout : (⟨(cs.map Char.toUInt8).toArray⟩ : ByteArray) = (String.ofList cs).toUTF8 := by
    rw [← hbytes, asBytes]
  rw [percentDecode, asBytes_ofList_ascii hascii, hdecode, Option.bind_some, hout,
    fromUTF8?_toUTF8]

/-! ## The query -/

theorem split_intercalate {pairs : List String} (hne : pairs ≠ [])
    (hpairs : ∀ p ∈ pairs, '&' ∉ p.toList) : split '&' ("&".intercalate pairs) = pairs := by
  have hlists : ∀ l ∈ pairs.map String.toList, '&' ∉ l := by
    intro l hl
    obtain ⟨p, hp, rfl⟩ := List.mem_map.mp hl
    exact hpairs p hp
  have hamp : "&".toList = ['&'] := rfl
  rw [split, String.toList_intercalate, hamp,
    List.splitOn_intercalate '&' hlists (by simpa using hne), List.map_map]
  simp [Function.comp_def]

theorem splitOnce_append {sep : Char} {key val : String} (hkey : sep ∉ key.toList) :
    splitOnce sep (key ++ .singleton sep ++ val) = some (key, val) := by
  have htext : (key ++ .singleton sep ++ val).toList = key.toList ++ sep :: val.toList := by simp
  rw [splitOnce, htext, readUntil_append hkey]
  simp

/-- The first pair with the key decides, whatever stands around it. -/
theorem findParam_intercalate {before after : List String} {value : String}
    (hpairs : ∀ p ∈ before ++ ("peer_id=" ++ value) :: after, '&' ∉ p.toList)
    (hbefore : ∀ p ∈ before, (splitOnce '=' p).map Prod.fst ≠ some "peer_id") :
    findParam ("&".intercalate (before ++ ("peer_id=" ++ value) :: after)) = some value := by
  have hpair : splitOnce '=' ("peer_id=" ++ value) = some ("peer_id", value) := by
    have hkey : "peer_id=" = "peer_id" ++ String.singleton '=' := by decide
    rw [hkey]
    exact splitOnce_append (by decide)
  have hnone : before.findSome? (fun pair =>
      (splitOnce '=' pair).bind fun (key, val) =>
        if key = "peer_id" then some val else none) = none := by
    refine List.findSome?_eq_none_iff.mpr fun p hp => ?_
    cases hp' : splitOnce '=' p with
    | none => rfl
    | some r =>
        have hkey : r.1 ≠ "peer_id" := by simpa [hp'] using hbefore p hp
        simp [hkey]
  rw [findParam, split_intercalate (by simp) hpairs, List.findSome?_append, hnone]
  simp [hpair]

/-! ## The request -/

section Request

variable {id : PeerID} {text : String}

/-- What `Display` writes of an identifier that is not empty. -/
structure IsText (id : PeerID) (text : String) : Prop where
  ne : text ≠ ""
  lower : ∀ c ∈ text.toList, IsLowerHex c
  fromStr : ∃ id', PeerId.fromStr 32 text = .done (.ok id') ∧ id'.eq id = .done true

theorem exists_isText (hpos : 1 ≤ id.size.toNat) (hsize : id.size.toNat ≤ 32) :
    ∃ text, id.display = .done text ∧ IsText id text := by
  refine ⟨_, display_eq hsize, ?_, ?_, id.normal, fromStr_hexText hsize, normal_eq hsize⟩
  · intro hempty
    have hlength := congrArg (fun s => s.toList.length) hempty
    simp only [String.toList_ofList, length_hexText, length_take_bytes hsize] at hlength
    have hzero : "".toList.length = 0 := rfl
    omega
  · intro c hc
    rw [String.toList_ofList] at hc
    exact isLowerHex_of_mem_hexText hc

theorem isPlain_of_isLowerHex {c : Char} (hc : IsLowerHex c) : IsPlain c := by
  obtain ⟨n, hn, rfl⟩ := hc
  exact (isPlain_fin ⟨n, hn⟩).1

theorem IsText.parsePeerId (h : IsText id text) (rejection : PeerIdRejection) :
    ∃ id', parsePeerId rejection text = .done (.ok id') ∧ id'.eq id = .done true := by
  obtain ⟨id', hid, heq⟩ := h.fromStr
  exact ⟨id', by rw [Server.parsePeerId, hid]; rfl, heq⟩

theorem visible_fin (n : Fin 16) :
    let b := (Nat.digitChar n).toUInt8
    ((32 ≤ b && b < 127) || b = 9) = true ∧ asChar b = Nat.digitChar n := by
  decide +revert +kernel

theorem headerToStr_text (h : IsText id text) : headerToStr (asBytes text) = some text := by
  have hbytes : asBytes text = text.toList.map Char.toUInt8 := by
    rw [← asBytes_ofList_ascii fun c hc => (h.lower c hc).lt, String.ofList_toList]
  have hvisible : (asBytes text).all fun b => (32 ≤ b && b < 127) || b = 9 := by
    rw [hbytes, List.all_eq_true]
    intro b hb
    obtain ⟨c, hc, rfl⟩ := List.mem_map.mp hb
    obtain ⟨n, hn, rfl⟩ := h.lower c hc
    exact (visible_fin ⟨n, hn⟩).1
  have hchars : (asBytes text).map asChar = text.toList := by
    rw [hbytes, List.map_map]
    refine (List.map_congr_left fun c hc => ?_).trans (List.map_id _)
    obtain ⟨n, hn, rfl⟩ := h.lower c hc
    exact (visible_fin ⟨n, hn⟩).2
  rw [headerToStr, if_pos hvisible, hchars, String.ofList_toList]

theorem extractFromHeader_text (h : IsText id text) (query : Option String) :
    Yields ⟨some (asBytes text), query⟩ id := by
  obtain ⟨id', hparse, heq⟩ := h.parsePeerId .invalidHeaderValue
  have hne : text.isEmpty = false := by simpa [Bool.eq_false_iff, String.isEmpty_iff] using h.ne
  refine ⟨id', ?_, heq⟩
  simp [fromRequestParts, extractFromHeader, headerToStr_text h, hne, hparse]

theorem extractFromQuery_text (h : IsText id text) {query value : String}
    (hparam : findParam query = some value)
    (hvalue : PercentEncodes text.toList value.toList) : Yields ⟨none, some query⟩ id := by
  obtain ⟨id', hparse, heq⟩ := h.parsePeerId .badQueryParse
  have hne : text.isEmpty = false := by simpa [Bool.eq_false_iff, String.isEmpty_iff] using h.ne
  have hdecode : percentDecode (asBytes value) = some text := by
    have := percentDecode_asBytes hvalue fun c hc => isPlain_of_isLowerHex (h.lower c hc)
    rwa [String.ofList_toList, String.ofList_toList] at this
  refine ⟨id', ?_, heq⟩
  simp [fromRequestParts, extractFromQuery, hparam, hdecode, hne, hparse]

theorem percentEncodes_self (cs : List Char) : PercentEncodes cs cs := by
  induction cs with
  | nil => exact .nil
  | cons c cs ih => exact .literal ih

/-- The URL of `connect` has the parameter as its whole query. -/
theorem uriQuery_wsUrl (h : IsText id text) {url : String} (hquestion : '?' ∉ url.toList)
    (hhash : '#' ∉ url.toList) :
    uriQuery (wsUrl url text) = some ("&".intercalate ([] ++ ("peer_id=" ++ text) :: [])) := by
  have hshape : wsUrl url text =
      "wss://" ++ url ++ "/ws" ++ String.singleton '?' ++ ("peer_id=" ++ text) := by
    have hconst : "/ws?peer_id=" = "/ws" ++ String.singleton '?' ++ "peer_id=" := by decide
    rw [wsUrl, hconst]
    simp only [String.append_assoc]
  have hfragment : ∀ c ∈ (wsUrl url text).toList, decide (c ≠ '#') = true := by
    intro c hc
    have htext : ∀ c ∈ text.toList, c ≠ '#' :=
      fun c hc => (isPlain_of_isLowerHex (h.lower c hc)).hash
    rw [hshape] at hc
    simp only [String.toList_append, List.mem_append] at hc
    rcases hc with (((hscheme | hc) | hpath) | hsep) | hkey | hc
    · exact decide_eq_true (ne_of_mem_of_not_mem hscheme (by decide))
    · exact decide_eq_true (ne_of_mem_of_not_mem hc hhash)
    · exact decide_eq_true (ne_of_mem_of_not_mem hpath (by decide))
    · exact decide_eq_true (ne_of_mem_of_not_mem hsep (by decide))
    · exact decide_eq_true (ne_of_mem_of_not_mem hkey (by decide))
    · exact decide_eq_true (htext c hc)
  rw [uriQuery, List.takeWhile_eq_self_iff.mpr hfragment, String.ofList_toList, hshape,
    splitOnce_append]
  · simp
  · simpa using hquestion

/-- Client and server agree on the identifier: whatever its header or its encoding in the
query, and so for the URL that the client connects to. -/
theorem fromRequestParts_agrees {id : PeerID} (hpos : 1 ≤ id.size.toNat)
    (hsize : id.size.toNat ≤ 32) :
    ∃ text, id.display = .done text ∧
      (∀ query, Yields ⟨some (asBytes text), query⟩ id) ∧
      (∀ before after value,
        (∀ p ∈ before ++ ("peer_id=" ++ value) :: after, '&' ∉ p.toList) →
        (∀ p ∈ before, (splitOnce '=' p).map Prod.fst ≠ some "peer_id") →
        PercentEncodes text.toList value.toList →
        Yields ⟨none, some ("&".intercalate (before ++ ("peer_id=" ++ value) :: after))⟩ id) ∧
      ∀ url, '?' ∉ url.toList → '#' ∉ url.toList →
        Yields ⟨none, uriQuery (wsUrl url text)⟩ id := by
  obtain ⟨text, hdisplay, h⟩ := exists_isText hpos hsize
  refine ⟨text, hdisplay, extractFromHeader_text h, ?_, ?_⟩
  · intro before after value hpairs hbefore hvalue
    exact extractFromQuery_text h (findParam_intercalate hpairs hbefore) hvalue
  · intro url hquestion hhash
    have hamp : '&' ∉ ("peer_id=" ++ text).toList := by
      intro hmem
      rcases List.mem_append.mp (String.toList_append ▸ hmem) with hkey | htext
      · exact absurd hkey (by decide)
      · exact (isPlain_of_isLowerHex (h.lower _ htext)).amp rfl
    have hparam : findParam ("&".intercalate ([] ++ ("peer_id=" ++ text) :: [])) = some text :=
      findParam_intercalate (by simpa using hamp) (by simp)
    rw [uriQuery_wsUrl h hquestion hhash]
    exact extractFromQuery_text h hparam (percentEncodes_self _)

/-- The identifier of one byte, escaped, between a pair without a value and a second
identifier. -/
theorem fromRequestParts_agrees_escaped :
    Yields ⟨none, some "x&peer_id=%30%31&peer_id=zz"⟩ (.ofByte 1) := by
  obtain ⟨text, hdisplay, -, hquery, -⟩ :=
    fromRequestParts_agrees (show 1 ≤ (FixedSizePeerID.ofByte 1).size.toNat by decide) (by decide)
  have htext : text = "01" := by
    have hone : (FixedSizePeerID.ofByte 1).display = .done "01" := by decide
    exact Outcome.done.inj (hdisplay.symm.trans hone)
  subst htext
  have hvalue : PercentEncodes "01".toList "%30%31".toList :=
    .escaped (.inl rfl) (.inl rfl) (.escaped (.inl rfl) (.inl rfl) .nil)
  exact hquery ["x"] ["peer_id=zz"] "%30%31" (by decide) (by decide) hvalue

end Request

end SfRs.Server
