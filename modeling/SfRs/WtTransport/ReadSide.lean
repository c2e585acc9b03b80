import SfRs.Lib.Machine
import SfRs.WtTransport.Stream
/-!
# Reading from a stream

A caller polls `poll_read` with buffers of its own choosing.  `readMachine` runs
any sequence of such calls and remembers the bytes they returned; a panic is a
state with no successor.  The bytes still owed to the caller are the leftover
buffer followed by the chunks not read yet, and every call that returns moves a
prefix of them to the caller.
-/

namespace SfRs.WtTransport

open SfRs.Lib

variable {ε : Type*}

/-- The bytes of the chunks not handed out yet. -/
def RecvStream.unread (recv : RecvStream ε) : List UInt8 :=
  recv.answers.flatMap fun
    | .chunk bytes => bytes.val
    | .pending => []
    | .failed _ => []

/-- The bytes the reader has not been given. -/
def Stream.undelivered (self : Stream ε) : List UInt8 :=
  self.readBuf.getD [] ++ self.recvStream.unread

/-- Nothing is buffered and the receive half has nothing more to say. -/
def Stream.AtEnd (self : Stream ε) : Prop :=
  self.readBuf = none ∧ self.recvStream.answers = []

/-- The number of bytes of the buffer that a result declares filled. -/
def readCount : Poll (Except ε Nat) → Nat
  | .ready (.ok n) => n
  | .ready (.error _) => 0
  | .pending => 0

/-- A stream and all the bytes its reader has been given. -/
structure Reader (ε : Type*) where
  stream : Stream ε
  returned : List UInt8

/-- One completed call: the length of its buffer and its result. -/
structure ReadCall (ε : Type*) where
  len : Nat
  result : Poll (Except ε Nat)

/-- Any sequence of `poll_read` calls, each labelled by the buffer it is given. -/
def readMachine (stream : Stream ε) :
    Machine (Outcome (Reader ε)) (List UInt8) (ReadCall ε) where
  init := .done { stream := stream, returned := [] }
  step
    | .panicked, _ => none
    | .done reader, buf =>
        match reader.stream.pollRead buf with
        | .panicked => some (.panicked, [])
        | .done (result, buf', stream') =>
            some
              (.done
                { stream := stream'
                  returned := reader.returned ++ buf'.take (readCount result) },
                [{ len := buf.length, result := result }])

/-! ## One call -/

/-- What a call that returns does to the bytes owed to the reader. -/
structure ReadStep (before : Stream ε) (buf : List UInt8) (result : Poll (Except ε Nat))
    (buf' : List UInt8) (after : Stream ε) : Prop where
  moved : buf'.take (readCount result) ++ after.undelivered = before.undelivered
  zeroAtEnd : result = .ready (.ok 0) → 0 < buf.length → after.AtEnd

/-- What is kept of `bytes` after `len` of them have been copied out. -/
def kept (bytes : List UInt8) (len : Nat) : Option (List UInt8) :=
  if len < bytes.length then some (bytes.drop len) else none

/-- Splitting `bytes` at `len`, as both paths of `poll_read` do once they have a chunk. -/
theorem readStep_of_split {before after : Stream ε} {buf bytes : List UInt8} {len : Nat}
    (hlen : len ≤ bytes.length) (hzero : 0 < buf.length → 0 < len)
    (howed : before.undelivered = bytes ++ after.recvStream.unread)
    (hbuf : after.readBuf = kept bytes len) :
    ReadStep before buf (.ready (.ok len)) (bytes.take len ++ buf.drop len) after := by
  have htake : (bytes.take len ++ buf.drop len).take len = bytes.take len := by
    rw [List.take_append_of_le_length (by simp [hlen]), List.take_take, Nat.min_self]
  refine ⟨?_, ?_⟩
  · rw [readCount, htake, howed, Stream.undelivered, hbuf, kept]
    by_cases hlt : len < bytes.length
    · rw [if_pos hlt, Option.getD_some, ← List.append_assoc, List.take_append_drop]
    · rw [if_neg hlt, Option.getD_none, List.nil_append,
        List.take_of_length_le (Nat.not_lt.mp hlt)]
  · intro hres hpos
    have hlen0 : len = 0 := by simpa using hres
    have := hzero hpos
    omega

/-- A call whose buffer is no longer than the leftover, if there is one, returns. -/
theorem pollRead_returns (stream : Stream ε) (buf : List UInt8)
    (hfit : ∀ bytes, stream.readBuf = some bytes → buf.length ≤ bytes.length) :
    ∃ result buf' stream', stream.pollRead buf = .done (result, buf', stream') ∧
      ReadStep stream buf result buf' stream' := by
  obtain ⟨send, recv, readBuf⟩ := stream
  cases readBuf with
  | some bytes =>
      have hle : buf.length ≤ bytes.length := hfit bytes rfl
      refine ⟨.ready (.ok buf.length), _, ⟨send, recv, kept bytes buf.length⟩, ?_,
        readStep_of_split hle (fun h => h) rfl rfl⟩
      by_cases hlt : buf.length < bytes.length
      · simp [Stream.pollRead, Outcome.copyPrefix_of_le Nat.le.refl hle, hlt, kept,
          Outcome.sliceFrom_of_le hle]
      · simp [Stream.pollRead, Outcome.copyPrefix_of_le Nat.le.refl hle, hlt, kept]
  | none =>
      obtain ⟨answers⟩ := recv
      match answers with
      | [] =>
          refine ⟨.ready (.ok 0), buf, ⟨send, ⟨[]⟩, none⟩, rfl, ?_, ?_⟩
          · simp [readCount]
          · exact fun _ _ => ⟨rfl, rfl⟩
      | .pending :: rest =>
          refine ⟨.pending, buf, ⟨send, ⟨rest⟩, none⟩, rfl, ?_, by simp⟩
          simp [readCount, Stream.undelivered, RecvStream.unread]
      | .failed e :: rest =>
          refine ⟨.ready (.error e), buf, ⟨send, ⟨rest⟩, none⟩, rfl, ?_, by simp⟩
          simp [readCount, Stream.undelivered, RecvStream.unread]
      | .chunk ⟨bytes, hne⟩ :: rest =>
          have hpos : 0 < bytes.length := List.length_pos_iff.mpr hne
          have hle : min buf.length bytes.length ≤ bytes.length := Nat.min_le_right _ _
          have hle' : min buf.length bytes.length ≤ buf.length := Nat.min_le_left _ _
          refine ⟨.ready (.ok (min buf.length bytes.length)), _,
            ⟨send, ⟨rest⟩, kept bytes (min buf.length bytes.length)⟩, ?_,
            readStep_of_split hle (by omega) ?_ rfl⟩
          · by_cases hlt : min buf.length bytes.length < bytes.length
            · simp only [Stream.pollRead, RecvStream.read,
                Outcome.copyPrefix_of_le hle' hle, Outcome.done_bind, if_pos hlt, kept,
                Outcome.sliceFrom_of_le hle]
            · simp only [Stream.pollRead, RecvStream.read,
                Outcome.copyPrefix_of_le hle' hle, Outcome.done_bind, if_neg hlt, kept]
          · simp [Stream.undelivered, RecvStream.unread]

/-- The leftover path slices `bytes[..buf.len()]`. -/
theorem pollRead_panics {stream : Stream ε} {buf bytes : List UInt8}
    (hbuf : stream.readBuf = some bytes) (hgt : bytes.length < buf.length) :
    stream.pollRead buf = .panicked := by
  simp [Stream.pollRead, hbuf, Outcome.copyPrefix_of_gt hgt]

/-! ## Any sequence of calls -/

/-- What the reader of a stream that carries `source` relies on. -/
structure ReadsInOrder (source : List UInt8) (s : Outcome (Reader ε))
    (calls : List (ReadCall ε)) : Prop where
  returns : s.Returns
  isPrefix : ∀ reader, s = .done reader → reader.returned <+: source
  rest : ∀ reader, s = .done reader →
    reader.returned ++ reader.stream.undelivered = source
  zeroAtEnd : ∀ reader earlier call, s = .done reader → calls = earlier ++ [call] →
    call.result = .ready (.ok 0) → 0 < call.len → reader.stream.AtEnd

/-- The buffer is no longer than what is left in `read_buf`. -/
def FitsLeftover (s : Outcome (Reader ε)) (buf : List UInt8) : Prop :=
  ∀ reader bytes, s = .done reader → reader.stream.readBuf = some bytes →
    buf.length ≤ bytes.length

theorem readsInOrder_step {source : List UInt8} {stream : Stream ε}
    {s s' : Outcome (Reader ε)} {tr es : List (ReadCall ε)} {buf : List UInt8}
    (hinv : ReadsInOrder source s tr) (hfit : FitsLeftover s buf)
    (hstep : (readMachine stream).step s buf = some (s', es)) :
    ReadsInOrder source s' (tr ++ es) := by
  cases s with
  | panicked => exact absurd rfl hinv.returns
  | done reader =>
      obtain ⟨result, buf', stream', hpoll, hread⟩ := pollRead_returns reader.stream buf
        (fun bytes hbytes => hfit reader bytes rfl hbytes)
      simp only [readMachine, hpoll, Option.some.injEq, Prod.mk.injEq] at hstep
      obtain ⟨rfl, rfl⟩ := hstep
      have hrest : (reader.returned ++ buf'.take (readCount result)) ++
          stream'.undelivered = source := by
        rw [List.append_assoc, hread.moved]
        exact hinv.rest reader rfl
      refine ⟨by simp, ?_, ?_, ?_⟩
      · rintro _ ⟨⟩
        exact ⟨_, hrest⟩
      · rintro _ ⟨⟩
        exact hrest
      · rintro _ earlier call ⟨⟩ hcalls hzero hpos
        obtain ⟨-, hcall⟩ := List.append_inj' hcalls rfl
        obtain rfl : _ = call := by simpa using hcall
        exact hread.zeroAtEnd hzero hpos

/-- The reader is served in order exactly in the runs where no call brings a buffer
longer than what is left in `read_buf`. -/
theorem readsInOrder_iff (send : SendStream ε) (answers : List (ReadAnswer ε))
    (bufs : List (List UInt8)) :
    (readMachine (Stream.new send ⟨answers⟩)).Always
        (ReadsInOrder (RecvStream.unread ⟨answers⟩)) bufs ↔
      (readMachine (Stream.new send ⟨answers⟩)).StepsMeet FitsLeftover bufs := by
  have hinit : ReadsInOrder (RecvStream.unread ⟨answers⟩)
      (readMachine (Stream.new send ⟨answers⟩)).init [] := by
    refine ⟨by simp [readMachine], ?_, ?_, ?_⟩
    · rintro _ ⟨⟩
      exact List.nil_prefix
    · rintro _ ⟨⟩
      simp [Stream.new, Stream.undelivered]
    · intro _ earlier call _ hcalls
      simp at hcalls
  refine Machine.always_iff_stepsMeet hinit
    (fun s tr buf s' es hinv hfit hstep => readsInOrder_step hinv hfit hstep)
    (fun s tr hinv => hinv) ?_ bufs
  intro s tr buf s' es _ hnot hstep hreads
  simp only [FitsLeftover, not_forall, Nat.not_le] at hnot
  obtain ⟨reader, bytes, rfl, hbytes, hgt⟩ := hnot
  simp only [readMachine, pollRead_panics hbytes hgt, Option.some.injEq,
    Prod.mk.injEq] at hstep
  exact hreads.returns hstep.1.symm

/-- A stream whose receive half hands out one chunk of three bytes. -/
def threeByteStream : Stream Empty :=
  Stream.new ⟨[], []⟩ ⟨[.chunk ⟨[1, 2, 3], by decide⟩]⟩

/-- Read two bytes at a time, the second call slices two bytes out of the one left. -/
theorem not_readsInOrder_longer_buffer :
    ¬ (readMachine threeByteStream).Always
        (ReadsInOrder threeByteStream.undelivered) [[0, 0], [0, 0]] := by
  intro halways
  have hrun : (readMachine threeByteStream).Run [[0, 0], [0, 0]] .panicked
      [⟨2, .ready (.ok 2)⟩] := Machine.run_of_exec rfl
  exact (halways _ List.prefix_rfl _ _ hrun).returns rfl

end SfRs.WtTransport
