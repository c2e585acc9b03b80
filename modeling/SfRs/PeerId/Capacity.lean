import SfRs.PeerId.Canonical
/-!
# The serialised form at every capacity

The buffer of the serialiser and of `visit_seq` has one byte for the size, whose varint
takes two from 128 on.  An identifier of exactly `S` bytes does then not fit, and
`visit_seq` does not read what `visit_bytes` reads.
-/

namespace SfRs.PeerId

open SfRs.Lib

variable {varint : UnsignedVarint} {S : Nat}

/-- `visit_seq` on a sequence of bytes. -/
def visitSeq (varint : UnsignedVarint) (S : Nat) (bs : List UInt8) :
    Except DeError (FixedSizePeerID S) :=
  FixedSizePeerID.deserialize varint S (bytesJson bs)

/-! ## The two visitors -/

theorem visitSeqLoop_over {len : Nat} {bytes rest : List UInt8} (hbytes : bytes.length ≤ len)
    (hlen : len < (bytes ++ rest).length) :
    visitSeqLoop len (rest.map fun b => .number b.toNat) bytes =
      .error (.custom "Failed to deserialize too many bytes for FixedSizePeerID") := by
  induction rest generalizing bytes with
  | nil =>
      rw [List.append_nil] at hlen
      omega
  | cons b rest ih =>
      simp only [List.map_cons, visitSeqLoop, deserializeU8_number]
      by_cases hfull : bytes.length ≥ len
      · simp only [hfull, if_true]
        rfl
      · have hroom : (bytes ++ [b]).length ≤ len := by
          rw [List.length_append, List.length_singleton]
          omega
        have htail : visitSeqLoop len _ (bytes ++ [b]) = .error _ :=
          ih hroom (by simpa using hlen)
        simp only [hfull, if_false]
        exact htail

/-- `visit_seq` is `visit_bytes` on what fits in the buffer. -/
theorem visitSeq_eq (bs : List UInt8) :
    visitSeq varint S bs =
      if bs.length ≤ S + 1 then visitBytes varint S bs
      else .error (.custom "Failed to deserialize too many bytes for FixedSizePeerID") := by
  by_cases hfit : bs.length ≤ S + 1
  · have hloop : visitSeqLoop (S + 1) (bs.map fun b => .number b.toNat) [] = .ok bs :=
      visitSeqLoop_bytes hfit
    rw [if_pos hfit]
    simp only [visitSeq, FixedSizePeerID.deserialize, bytesJson, hloop]
    rfl
  · have hloop : visitSeqLoop (S + 1) (bs.map fun b => .number b.toNat) [] = .error _ :=
      visitSeqLoop_over (Nat.zero_le _) (Nat.lt_of_not_le hfit)
    rw [if_neg hfit]
    simp only [visitSeq, FixedSizePeerID.deserialize, bytesJson, hloop]
    rfl

theorem visitBytes_ok_iff {bs : List UInt8} {id : FixedSizePeerID S} :
    visitBytes varint S bs = .ok id ↔ fromBytes varint S bs = .ok id := by
  rcases h : fromBytes varint S bs with e | id' <;> simp [visitBytes, h, Except.mapError]

/-- Both visitors read `bs` as equal identifiers, or neither reads it. -/
def VisitorsAgree (varint : UnsignedVarint) (S : Nat) (bs : List UInt8) : Prop :=
  (∃ id id', visitSeq varint S bs = .ok id ∧ visitBytes varint S bs = .ok id' ∧
      id.eq id' = .done true) ∨
    (∃ e, visitSeq varint S bs = .error e) ∧ ∃ e, visitBytes varint S bs = .error e

/-- A length prefix of two bytes that says `S` in its low eight bits, and `S` bytes. -/
def FillsPast (S : Nat) (bs : List UInt8) : Prop :=
  ∃ b₀ b₁ rest, bs = b₀ :: b₁ :: rest ∧ 128 ≤ b₀ ∧ b₁ ≠ 0 ∧ b₁ < 128 ∧ rest.length = S ∧
    (b₀.toNat - 128 + 128 * b₁.toNat) % 256 = S

theorem eq_self {id : FixedSizePeerID S} (hsize : id.size.toNat ≤ S) : id.eq id = .done true :=
  eq_of_normal_eq hsize hsize rfl

/-- What `from_bytes` accepts beyond the buffer. -/
theorem fillsPast_iff (hreads : varint.Accumulates) (hS : S ≤ 255) (bs : List UInt8) :
    FillsPast S bs ↔ (∃ id, fromBytes varint S bs = .ok id) ∧ ¬ bs.length ≤ S + 1 := by
  constructor
  · rintro ⟨b₀, b₁, rest, rfl, h₀, hzero, h₁, hlen, hvalue⟩
    rw [← toNat_join_groups h₀] at hvalue
    have hread := hreads.read_two b₀ b₁ rest h₀ h₁ hzero
    refine ⟨⟨_, fromBytes_of_varint hS hread hvalue.le (hlen.trans hvalue.symm)⟩, ?_⟩
    simp only [List.length_cons]
    omega
  · rintro ⟨⟨id, hid⟩, hlong⟩
    obtain ⟨rest, hread, hsize, hlen, -⟩ := (fromBytes_ok_iff hS).mp hid
    rcases hreads.read_inv hread with ⟨-, rfl⟩ | ⟨b₀, b₁, h₀, h₁, hzero, rfl, hjoin⟩
    · simp only [List.length_cons] at hlong
      omega
    · simp only [List.length_cons] at hlong
      refine ⟨b₀, b₁, rest, rfl, h₀, hzero, h₁, by omega, ?_⟩
      rw [← toNat_join_groups h₀, ← hjoin]
      omega

theorem visitorsAgree_iff (hreads : varint.Accumulates) (hS : S ≤ 255) (bs : List UInt8) :
    VisitorsAgree varint S bs ↔ ¬ FillsPast S bs := by
  rw [fillsPast_iff hreads hS, VisitorsAgree, visitSeq_eq]
  by_cases hfit : bs.length ≤ S + 1
  · simp only [hfit, if_true, not_true_eq_false, and_false, not_false_eq_true, iff_true]
    rcases hread : visitBytes varint S bs with e | id
    · exact .inr ⟨⟨e, rfl⟩, e, rfl⟩
    · obtain ⟨-, -, hsize, -, -⟩ := (fromBytes_ok_iff hS).mp (visitBytes_ok_iff.mp hread)
      exact .inl ⟨id, id, rfl, rfl, eq_self hsize⟩
  · simp only [hfit, if_false, not_false_eq_true, and_true]
    rcases hread : visitBytes varint S bs with e | id
    · have hnone : ¬ ∃ id, fromBytes varint S bs = .ok id := by
        rintro ⟨id, hid⟩
        rw [visitBytes_ok_iff.mpr hid] at hread
        cases hread
      exact ⟨fun _ => hnone, fun _ => .inr ⟨⟨_, rfl⟩, e, rfl⟩⟩
    · have hsome : ∃ id, fromBytes varint S bs = .ok id := ⟨id, visitBytes_ok_iff.mp hread⟩
      simp [hsome]

/-! ## Serialising -/

/-- The serialised form of an identifier is what is written of it, and both visitors read
it. -/
structure SerdeForm (varint : UnsignedVarint) (id : FixedSizePeerID S) : Prop where
  serializes : ∃ bytes, id.serialize varint = Ser.ok (bytesJson bytes) ∧
    id.write varint vecWriteAll [] = .done (.ok (bytes.length, bytes))
  reads : ∃ decoded decoded', visitSeq varint S (id.encoding varint) = .ok decoded ∧
    visitBytes varint S (id.encoding varint) = .ok decoded' ∧
      decoded.eq id = .done true ∧ decoded'.eq id = .done true

theorem length_encoding_le_iff (hvarint : varint.Lawful) {id : FixedSizePeerID S}
    (hsize : id.size.toNat ≤ S) :
    (id.encoding varint).length ≤ S + 1 ↔ id.size.toNat < S ∨ S < 128 := by
  rw [FixedSizePeerID.encoding, List.length_append, length_take_bytes hsize]
  by_cases hsmall : id.size < 128
  · rw [hvarint.encode_small _ hsmall, List.length_singleton]
    have hlt : id.size.toNat < 128 := UInt8.lt_iff_toNat_lt.mp hsmall
    omega
  · have hlarge : 128 ≤ id.size := UInt8.not_lt.mp hsmall
    have hle : 128 ≤ id.size.toNat := UInt8.le_iff_toNat_le.mp hlarge
    rw [hvarint.encode_large _ hlarge]
    simp only [List.length_cons, List.length_nil]
    omega

theorem serdeForm_iff (hvarint : varint.Lawful) (hS : S ≤ 255) {id : FixedSizePeerID S}
    (hsize : id.size.toNat ≤ S) :
    SerdeForm varint id ↔ id.size.toNat < S ∨ S < 128 := by
  rw [← length_encoding_le_iff hvarint hsize]
  constructor
  · intro hform
    obtain ⟨bytes, hserialize, -⟩ := hform.serializes
    by_contra hfit
    rw [serialize_of_size hsize, if_neg hfit] at hserialize
    cases hserialize
  · intro hfit
    have hvisit : visitBytes varint S (id.encoding varint) = .ok id.normal :=
      visitBytes_encoding hvarint hS hsize
    have hseq : visitSeq varint S (id.encoding varint) = .ok id.normal := by
      rw [visitSeq_eq, if_pos hfit, hvisit]
    refine ⟨⟨id.encoding varint, ?_, write_vec hsize []⟩,
      id.normal, id.normal, hseq, hvisit, normal_eq hsize, normal_eq hsize⟩
    rw [serialize_of_size hsize, if_pos hfit]

/-- An identifier is serialised, and read back, unless it fills a capacity of 128 or more;
the visitors agree on every byte list except those with a prefix of two bytes in front of
as many bytes as the capacity. -/
theorem serde_capacity (hvarint : varint.Lawful) (hreads : varint.Accumulates) (hS : S ≤ 255) :
    (∀ id : FixedSizePeerID S, id.size.toNat ≤ S →
        (SerdeForm varint id ↔ id.size.toNat < S ∨ S < 128)) ∧
      ∀ bs, VisitorsAgree varint S bs ↔ ¬ FillsPast S bs :=
  ⟨fun _ hsize => serdeForm_iff hvarint hS hsize, visitorsAgree_iff hreads hS⟩

theorem serde_capacity_leb128 :
    (∀ id : FixedSizePeerID 200, id.size.toNat ≤ 200 →
        (SerdeForm leb128 id ↔ id.size.toNat < 200 ∨ 200 < 128)) ∧
      ∀ bs, VisitorsAgree leb128 200 bs ↔ ¬ FillsPast 200 bs :=
  serde_capacity lawful_leb128 accumulates_leb128 (by decide)

/-- A full identifier of 128 bytes is not serialised, and its binary form is read by one of
the visitors only. -/
theorem not_serdeForm_full :
    let id : FixedSizePeerID 128 := ⟨128, Vector.replicate 128 7⟩
    ¬ SerdeForm leb128 id ∧ ¬ VisitorsAgree leb128 128 (id.encoding leb128) := by
  intro id
  refine ⟨fun hform => ?_, fun hagree => ?_⟩
  · exact absurd ((serdeForm_iff lawful_leb128 (by decide) (by decide)).mp hform) (by decide)
  · refine (visitorsAgree_iff accumulates_leb128 (by decide) _).mp hagree
      ⟨128, 1, List.replicate 128 7, ?_⟩
    decide +kernel

end SfRs.PeerId
