import SfRs.WtTransport.ReadSide
import SfRs.WtTransport.WriteSide
/-!
# A stream from end to end

One end of a WebTransport stream is written, the other end is read, and QUIC carries the
bytes between them in order.  The writer follows the `AsyncWrite` contract, the reader
brings buffers of its own choosing, and how much arrives when is open.

`poll_close` and `close_send` both finish the send half: what was handed over before still
arrives, and then the receive half reports the end.
-/

namespace SfRs.WtTransport

open SfRs.Lib

/-- How `recv_stream.read(8192)` answers when it is polled. -/
inductive Arrival (ε : Type*) where
  /-- Of the bytes on their way, up to `n` have arrived. -/
  | chunk (n : Nat)
  | pending
  | failed (e : ε)
  | ended

/-- The two ends, and the bytes between them. -/
structure Transfer (ε : Type*) where
  writer : Writer ε
  finished : Bool
  inFlight : List UInt8
  reader : Outcome (Reader ε)

inductive TransferAction (ε : Type*) where
  | write (buf : List UInt8) (answers : List (WriteAnswer ε))
  | close (finish : Except ε Unit)
  | read (buf : List UInt8) (arrival : Arrival ε)

inductive TransferEvent (ε : Type*) where
  /-- A `poll_write`, and the bytes that it handed over. -/
  | wrote (call : WriteCall ε) (handed : List UInt8)
  | closed (result : Poll (Except ε Unit))
  | read (call : ReadCall ε)
  | panicked

variable {ε : Type*}

/-- `AsyncWrite::poll_close`, which passes on what `finish` returns. -/
def Stream.pollClose (finish : Except ε Unit) : Poll (Except ε Unit) := .ready finish

namespace Arrival

/-- The answers of the receive half, if it can answer so. -/
def answers (finished : Bool) (inFlight : List UInt8) :
    Arrival ε → Option (List (ReadAnswer ε))
  | .chunk n =>
      if h : inFlight.take n ≠ [] then
        if n ≤ 8192 then some [.chunk ⟨inFlight.take n, h⟩] else none
      else none
  | .pending => some [.pending]
  | .failed e => some [.failed e]
  | .ended => if finished ∧ inFlight = [] then some [] else none

/-- The bytes that have not arrived. -/
def rest (inFlight : List UInt8) : Arrival ε → List UInt8
  | .chunk n => inFlight.drop n
  | .pending | .failed _ | .ended => inFlight

end Arrival

namespace Transfer

def init : Transfer ε where
  writer := { stream := .new ⟨[], []⟩ ⟨[]⟩, acked := [], retry := none, failed := false }
  finished := false
  inFlight := []
  reader := .done { stream := .new ⟨[], []⟩ ⟨[]⟩, returned := [] }

/-- Every byte that was handed to the transport. -/
def sent (t : Transfer ε) : List UInt8 := t.writer.stream.sendStream.sent

def write (t : Transfer ε) (buf : List UInt8) (answers : List (WriteAnswer ε)) :
    Transfer ε × List (TransferEvent ε) :=
  let stream := { t.writer.stream with sendStream := ⟨answers, t.sent⟩ }
  let call := stream.pollWrite buf
  let handed := call.2.sendStream.sent.drop t.sent.length
  ({ t with writer := t.writer.observe buf call.2 call.1, inFlight := t.inFlight ++ handed },
    [.wrote ⟨buf, call.1⟩ handed])

/-- One `poll_read`; a chunk that it does not ask for stays on its way. -/
def read (t : Transfer ε) (reader : Reader ε) (buf : List UInt8) (arrival : Arrival ε) :
    Option (Transfer ε × List (TransferEvent ε)) :=
  (arrival.answers t.finished t.inFlight).map fun answers =>
    match { reader.stream with recvStream := ⟨answers⟩ }.pollRead buf with
    | .panicked => ({ t with reader := .panicked }, [.panicked])
    | .done (result, buf', stream) =>
        let returned := reader.returned ++ buf'.take (readCount result)
        ({ t with
            inFlight := stream.recvStream.unread ++ arrival.rest t.inFlight
            reader := .done ⟨{ stream with recvStream := ⟨[]⟩ }, returned⟩ },
          [.read ⟨buf.length, result⟩])

def step (t : Transfer ε) : TransferAction ε → Option (Transfer ε × List (TransferEvent ε))
  | .write buf answers =>
      if t.finished = false ∧ t.writer.MayCall buf then some (t.write buf answers) else none
  | .close finish =>
      some ({ t with finished := t.finished || finish.isOk }, [.closed (Stream.pollClose finish)])
  | .read buf arrival =>
      match t.reader with
      | .done reader => t.read reader buf arrival
      | .panicked => none

end Transfer

/-- A stream, whatever is written and read and however it is carried. -/
def transfer (ε : Type*) : Machine (Transfer ε) (TransferAction ε) (TransferEvent ε) :=
  ⟨.init, Transfer.step⟩

/-! ## One step -/

namespace TransferEvent

/-- A read with a buffer that has room returned nothing. -/
def isEnd : TransferEvent ε → Prop
  | .read ⟨len, .ready (.ok n)⟩ => n = 0 ∧ 0 < len
  | _ => False

end TransferEvent

section PollRead

variable {before after : Stream ε} {buf buf' : List UInt8}

/-- A read that returns has had a buffer that fits. -/
theorem readStep_of_pollRead {result : Poll (Except ε Nat)}
    (h : before.pollRead buf = .done (result, buf', after)) :
    ReadStep before buf result buf' after := by
  have hfit : ∀ bytes, before.readBuf = some bytes → buf.length ≤ bytes.length := by
    intro bytes hbytes
    by_contra hgt
    rw [pollRead_panics hbytes (Nat.not_le.mp hgt)] at h
    cases h
  obtain ⟨result₁, buf₁, after₁, hpoll, hread⟩ := pollRead_returns before buf hfit
  rw [h] at hpoll
  cases hpoll
  exact hread

/-- What is left of a chunk is not empty. -/
theorem readBuf_of_pollRead {result : Poll (Except ε Nat)}
    (h : before.pollRead buf = .done (result, buf', after))
    (hbefore : before.readBuf ≠ some []) : after.readBuf ≠ some [] := by
  have hdrop : ∀ {bytes : List UInt8} {len : Nat}, len < bytes.length →
      some (bytes.drop len) ≠ some [] := by
    intro bytes len hlt hnil
    rw [Option.some.injEq, List.drop_eq_nil_iff] at hnil
    omega
  unfold Stream.pollRead at h
  split at h
  case h_1 bytes hbytes =>
      obtain ⟨buf₁, -, h⟩ := Outcome.bind_eq_done.mp h
      split at h
      case isTrue hlt =>
          rw [Outcome.sliceFrom_of_le hlt.le] at h
          cases h
          exact hdrop hlt
      case isFalse =>
          cases h
          simp
  case h_2 hnone =>
      split at h
      case h_1 =>
          cases h
          exact hbefore
      case h_2 =>
          cases h
          exact hbefore
      case h_3 =>
          cases h
          exact hbefore
      case h_4 bytes recv hread =>
          obtain ⟨buf₁, -, h⟩ := Outcome.bind_eq_done.mp h
          split at h
          case isTrue hlt =>
              rw [Outcome.sliceFrom_of_le hlt.le] at h
              cases h
              exact hdrop hlt
          case isFalse =>
              cases h
              simp

/-- A read with room that returns nothing has found the end. -/
theorem atEnd_of_pollRead
    (h : before.pollRead buf = .done (.ready (.ok 0), buf', after)) (hbuf : 0 < buf.length) :
    before.recvStream.answers = [] := by
  have hlen : ∀ {len : Nat} {buf₁ : List UInt8} {stream : Stream ε},
      Outcome.done (Poll.ready (Except.ok len : Except ε Nat), buf₁, stream) =
        .done (.ready (.ok 0), buf', after) → len = 0 := by
    intro len buf₁ stream heq
    exact Except.ok.inj (Poll.ready.inj (Prod.mk.inj (Outcome.done.inj heq)).1)
  obtain ⟨send, ⟨answers⟩, readBuf⟩ := before
  unfold Stream.pollRead at h
  cases readBuf with
  | some bytes =>
      obtain ⟨buf₁, -, h⟩ := Outcome.bind_eq_done.mp h
      split at h
      case isTrue hlt =>
          rw [Outcome.sliceFrom_of_le hlt.le] at h
          have hzero : buf.length = 0 := hlen h
          omega
      case isFalse =>
          have hzero : buf.length = 0 := hlen h
          omega
  | none =>
      match answers with
      | [] => rfl
      | .pending :: _ => cases h
      | .failed _ :: _ => cases h
      | .chunk ⟨bytes, hne⟩ :: _ =>
          have hpos : 0 < bytes.length := List.length_pos_iff.mpr hne
          obtain ⟨buf₁, -, h⟩ := Outcome.bind_eq_done.mp h
          split at h
          case isTrue hlt =>
              rw [Outcome.sliceFrom_of_le hlt.le] at h
              have hzero : min buf.length bytes.length = 0 := hlen h
              omega
          case isFalse =>
              have hzero : min buf.length bytes.length = 0 := hlen h
              omega

end PollRead

namespace Transfer

variable {t t' : Transfer ε} {buf : List UInt8} {es : List (TransferEvent ε)}

/-- What a call of `poll_write` does: it hands over all of its buffer or a part of it. -/
inductive Writes (t : Transfer ε) (buf : List UInt8) :
    Transfer ε → List (TransferEvent ε) → Prop
  | completed {stream : Stream ε} (hsent : stream.sendStream.sent = t.sent ++ buf) :
      Writes t buf
        { t with
          writer := { t.writer with
            stream := stream, acked := t.writer.acked ++ buf, retry := none }
          inFlight := t.inFlight ++ buf }
        [.wrote ⟨buf, .ready (.ok buf.length)⟩ buf]
  | waits {stream : Stream ε} {handed} (hsent : stream.sendStream.sent = t.sent ++ handed) :
      Writes t buf
        { t with
          writer := { t.writer with stream := stream, retry := some buf }
          inFlight := t.inFlight ++ handed }
        [.wrote ⟨buf, .pending⟩ handed]
  | fails {stream : Stream ε} {handed e} (hsent : stream.sendStream.sent = t.sent ++ handed) :
      Writes t buf
        { t with
          writer := { t.writer with stream := stream, retry := none, failed := true }
          inFlight := t.inFlight ++ handed }
        [.wrote ⟨buf, .ready (.error e)⟩ handed]

theorem writes_write (t : Transfer ε) (buf : List UInt8) (answers : List (WriteAnswer ε)) :
    t.Writes buf (t.write buf answers).1 (t.write buf answers).2 := by
  have hfuture := pollWriteFuture_sent answers t.sent buf
  rcases hpoll : pollWriteFuture answers [] buf with ⟨⟨e | ⟨⟩⟩ | _, send⟩
  · rw [hpoll] at hfuture
    simp only [write, Stream.pollWrite, hfuture, Writer.observe, List.drop_left]
    exact .fails rfl
  · have hsent : send.sent = buf := by
      have hready := pollWriteFuture_ready (congrArg Prod.fst hpoll)
      rwa [hpoll] at hready
    rw [hpoll] at hfuture
    simp only [write, Stream.pollWrite, hfuture, Writer.observe, List.drop_left, hsent,
      List.take_length]
    exact .completed rfl
  · rw [hpoll] at hfuture
    simp only [write, Stream.pollWrite, hfuture, Writer.observe, List.drop_left]
    exact .waits rfl

end Transfer

/-! ## Every run -/

section Runs

variable {t t' : Transfer ε} {l : TransferAction ε} {ls : List (TransferAction ε)}
  {tr es : List (TransferEvent ε)}

/-- No call of `poll_write` was pending with a part of its buffer handed over. -/
def Untorn (tr : List (TransferEvent ε)) : Prop :=
  ∀ buf handed, .wrote ⟨buf, .pending⟩ handed ∈ tr → handed = []

/-- What the two ends have done with the bytes. -/
structure Carried (t : Transfer ε) (tr : List (TransferEvent ε)) : Prop where
  acked : t.writer.acked.Sublist t.sent
  untorn : Untorn tr → t.writer.failed = false → t.writer.acked = t.sent
  received : ∀ reader, t.reader = .done reader →
    reader.returned ++ reader.stream.readBuf.getD [] ++ t.inFlight = t.sent
  leftover : ∀ reader, t.reader = .done reader → reader.stream.readBuf ≠ some []
  ended : ∀ reader, t.reader = .done reader → (∃ e ∈ tr, e.isEnd) →
    t.finished = true ∧ t.inFlight = [] ∧ reader.stream.readBuf = none

theorem carried_init : Carried (Transfer.init : Transfer ε) [] where
  acked := List.nil_sublist _
  untorn _ _ := rfl
  received reader h := by cases h; rfl
  leftover reader h := by cases h; simp [Stream.new]
  ended reader _ h := by simp at h

theorem Untorn.of_append (h : Untorn (tr ++ es)) : Untorn tr :=
  fun buf handed hmem => h buf handed (List.mem_append_left es hmem)

/-- A call of `poll_write` brings bytes on their way. -/
theorem Carried.hands (hcarried : Carried t tr) (hopen : t.finished = false) {writer : Writer ε}
    {handed : List UInt8} {call : WriteCall ε}
    (hsent : writer.stream.sendStream.sent = t.sent ++ handed)
    (hacked : writer.acked.Sublist (t.sent ++ handed))
    (huntorn : Untorn (tr ++ [.wrote call handed]) → writer.failed = false →
      writer.acked = t.sent ++ handed) :
    Carried { t with writer := writer, inFlight := t.inFlight ++ handed }
      (tr ++ [.wrote call handed]) where
  acked := by
    rw [Transfer.sent, hsent]
    exact hacked
  untorn := by
    rw [Transfer.sent, hsent]
    exact huntorn
  received reader hreader := by
    rw [Transfer.sent, hsent, ← hcarried.received reader hreader]
    exact (List.append_assoc _ _ _).symm
  leftover := hcarried.leftover
  ended reader hreader := by
    rintro ⟨e, he, hend⟩
    rcases List.mem_append.mp he with hold | hnew
    · rw [(hcarried.ended reader hreader ⟨e, hold, hend⟩).1] at hopen
      cases hopen
    · rw [List.mem_singleton.mp hnew] at hend
      exact hend.elim

theorem Carried.write (hcarried : Carried t tr) {buf : List UInt8} (hopen : t.finished = false)
    (hmay : t.writer.MayCall buf) (hwrites : t.Writes buf t' es) : Carried t' (tr ++ es) := by
  cases hwrites with
  | completed hsent =>
      refine hcarried.hands hopen hsent (hcarried.acked.append (List.Sublist.refl buf)) ?_
      intro huntorn _
      exact congrArg (· ++ buf) (hcarried.untorn huntorn.of_append hmay.1)
  | @waits stream handed hsent =>
      refine hcarried.hands hopen hsent
        (hcarried.acked.trans (List.sublist_append_left _ _)) ?_
      intro huntorn hfailed
      have hnone : handed = [] := huntorn buf handed (by simp)
      rw [hnone, List.append_nil]
      exact hcarried.untorn huntorn.of_append hfailed
  | fails hsent =>
      refine hcarried.hands hopen hsent
        (hcarried.acked.trans (List.sublist_append_left _ _)) ?_
      intro _ hfailed
      cases hfailed

theorem Arrival.unread_answers {arrival : Arrival ε} {finished : Bool} {inFlight : List UInt8}
    {answers : List (ReadAnswer ε)} (h : arrival.answers finished inFlight = some answers) :
    RecvStream.unread ⟨answers⟩ ++ arrival.rest inFlight = inFlight := by
  cases arrival with
  | chunk n =>
      simp only [Arrival.answers] at h
      split_ifs at h
      cases h
      simp [RecvStream.unread, Arrival.rest]
  | pending | failed =>
      cases h
      rfl
  | ended =>
      simp only [Arrival.answers] at h
      split_ifs at h
      cases h
      rfl

theorem Arrival.ended_of_answers {arrival : Arrival ε} {finished : Bool} {inFlight : List UInt8}
    (h : arrival.answers finished inFlight = some []) :
    finished = true ∧ inFlight = [] ∧ arrival.rest inFlight = [] := by
  cases arrival with
  | chunk n =>
      simp only [Arrival.answers] at h
      split_ifs at h
      cases h
  | pending | failed => cases h
  | ended =>
      simp only [Arrival.answers] at h
      split_ifs at h with hend
      exact ⟨hend.1, hend.2, hend.2⟩

theorem Carried.read (hcarried : Carried t tr) {reader : Reader ε} {buf : List UInt8}
    {arrival : Arrival ε} (hreader : t.reader = .done reader)
    (hread : t.read reader buf arrival = some (t', es)) : Carried t' (tr ++ es) := by
  obtain ⟨answers, hanswers, hmap⟩ := Option.map_eq_some_iff.mp hread
  split at hmap
  case h_1 =>
      cases hmap
      constructor
      · exact hcarried.acked
      · exact fun h => hcarried.untorn h.of_append
      · rintro _ ⟨⟩
      · rintro _ ⟨⟩
      · rintro _ ⟨⟩
  case h_2 result buf' after hpoll =>
      cases hmap
      have hleftover := readBuf_of_pollRead hpoll (hcarried.leftover reader hreader)
      have hreceived : reader.returned ++ buf'.take (readCount result) ++
          after.readBuf.getD [] ++ (after.recvStream.unread ++ arrival.rest t.inFlight) =
            t.sent := by
        calc
          _ = reader.returned ++ (buf'.take (readCount result) ++ after.undelivered) ++
                arrival.rest t.inFlight := by
            simp only [Stream.undelivered, List.append_assoc]
          _ = reader.returned ++ (reader.stream.readBuf.getD [] ++ RecvStream.unread ⟨answers⟩) ++
                arrival.rest t.inFlight := by
            rw [(readStep_of_pollRead hpoll).moved]
            rfl
          _ = reader.returned ++ reader.stream.readBuf.getD [] ++
                (RecvStream.unread ⟨answers⟩ ++ arrival.rest t.inFlight) := by
            simp only [List.append_assoc]
          _ = t.sent := by
            rw [Arrival.unread_answers hanswers, hcarried.received reader hreader]
      refine ⟨hcarried.acked, fun h => hcarried.untorn h.of_append, ?_, ?_, ?_⟩
      · rintro _ ⟨⟩
        exact hreceived
      · rintro _ ⟨⟩
        exact hleftover
      · rintro _ ⟨⟩ ⟨e, he, hend⟩
        rcases List.mem_append.mp he with hold | hnew
        · -- all has been returned already
          obtain ⟨hfinished, hempty, hnone⟩ := hcarried.ended reader hreader ⟨e, hold, hend⟩
          have hall := hcarried.received reader hreader
          rw [hempty, hnone, Option.getD_none, List.append_nil, List.append_nil] at hall
          rw [← hall, List.append_assoc, List.append_assoc, List.append_right_eq_self] at hreceived
          obtain ⟨-, hrest⟩ := List.append_eq_nil_iff.mp hreceived
          obtain ⟨hkept, hinFlight⟩ := List.append_eq_nil_iff.mp hrest
          refine ⟨hfinished, hinFlight, ?_⟩
          cases hbuf : after.readBuf with
          | none => rfl
          | some bytes =>
              rw [hbuf] at hleftover hkept
              exact absurd (congrArg some hkept) hleftover
        · obtain rfl := List.mem_singleton.mp hnew
          rcases result with (e | n) | _
          · exact hend.elim
          · obtain ⟨rfl, hroom⟩ := hend
            obtain rfl : answers = [] := atEnd_of_pollRead hpoll hroom
            obtain ⟨hfinished, -, hrest⟩ := Arrival.ended_of_answers hanswers
            obtain ⟨hnone, hanswered⟩ := (readStep_of_pollRead hpoll).zeroAtEnd rfl hroom
            refine ⟨hfinished, ?_, hnone⟩
            simp [RecvStream.unread, hanswered, hrest]
          · exact hend.elim

theorem Carried.step (hcarried : Carried t tr) (hstep : t.step l = some (t', es)) :
    Carried t' (tr ++ es) := by
  cases l with
  | write buf answers =>
      simp only [Transfer.step] at hstep
      split at hstep
      case isTrue hmay =>
          have hpair := Option.some.inj hstep
          have hwrites := t.writes_write buf answers
          rw [hpair] at hwrites
          exact hcarried.write hmay.1 hmay.2 hwrites
      case isFalse => cases hstep
  | close finish =>
      cases hstep
      refine ⟨hcarried.acked, fun h => hcarried.untorn h.of_append, hcarried.received,
        hcarried.leftover, ?_⟩
      rintro reader hreader ⟨e, he, hend⟩
      rcases List.mem_append.mp he with hold | hnew
      · obtain ⟨hfinished, hrest⟩ := hcarried.ended reader hreader ⟨e, hold, hend⟩
        exact ⟨by simp [hfinished], hrest⟩
      · rw [List.mem_singleton.mp hnew] at hend
        exact hend.elim
  | read buf arrival =>
      simp only [Transfer.step] at hstep
      split at hstep
      case h_1 reader hreader => exact hcarried.read hreader hstep
      case h_2 => cases hstep

theorem Carried.returned_le (hcarried : Carried t tr) {reader : Reader ε}
    (hreader : t.reader = .done reader) : reader.returned <+: t.sent := by
  have hreceived := hcarried.received reader hreader
  rw [List.append_assoc] at hreceived
  exact ⟨_, hreceived⟩

theorem carried_of_run (hrun : (transfer ε).Run ls t tr) : Carried t tr := by
  induction hrun with
  | nil => exact carried_init
  | snoc _ hstep ih => exact ih.step hstep

/-- In every run in which no read has panicked, what the reader has been given is the start
of what was handed over, and every acknowledged byte is part of that, in order.  If no
pending call had handed over a part of its buffer and none failed, nothing else is.  A
reader that has come to the end has all of it. -/
theorem run_transfers (hrun : (transfer ε).Run ls t tr) {reader : Reader ε}
    (hreader : t.reader = .done reader) :
    reader.returned <+: t.sent ∧ t.writer.acked.Sublist t.sent ∧
      (Untorn tr → t.writer.failed = false → t.writer.acked = t.sent) ∧
      ((∃ e ∈ tr, e.isEnd) → t.finished = true ∧ reader.returned = t.sent) := by
  have hcarried := carried_of_run hrun
  have hreceived := hcarried.received reader hreader
  refine ⟨hcarried.returned_le hreader, hcarried.acked, hcarried.untorn, fun hend => ?_⟩
  obtain ⟨hfinished, hempty, hnone⟩ := hcarried.ended reader hreader hend
  rw [hempty, hnone, Option.getD_none, List.append_nil, List.append_nil] at hreceived
  exact ⟨hfinished, hreceived⟩

/-- Three bytes are written at once, and read with two buffers up to the end. -/
def wholeRun : List (TransferAction Empty) :=
  [.write [1, 2, 3] [.accept 2, .accept 1], .close (.ok ()), .read [0, 0] (.chunk 3),
    .read [0] .pending, .read [0] .ended]

theorem run_transfers_wholeRun : ∃ t tr reader, (transfer Empty).Run wholeRun t tr ∧
    t.writer.acked = [1, 2, 3] ∧ t.reader = .done reader ∧ reader.returned = t.writer.acked := by
  have hexec : ∃ t tr reader, (transfer Empty).exec wholeRun = some (t, tr) ∧
      t.reader = .done reader ∧ t.writer.failed = false ∧ t.writer.acked = [1, 2, 3] ∧
      tr = [.wrote ⟨[1, 2, 3], .ready (.ok 3)⟩ [1, 2, 3], .closed (.ready (.ok ())),
        .read ⟨2, .ready (.ok 2)⟩, .read ⟨1, .ready (.ok 1)⟩, .read ⟨1, .ready (.ok 0)⟩] :=
    ⟨_, _, _, rfl, rfl, rfl, rfl, rfl⟩
  obtain ⟨t, tr, reader, hexec, hreader, hfailed, hacked, htr⟩ := hexec
  obtain ⟨-, -, huntorn, hend⟩ := run_transfers (Machine.run_of_exec hexec) hreader
  have hexact : t.writer.acked = t.sent := by
    refine huntorn (fun buf handed hmem => ?_) hfailed
    simp [htr] at hmem
  have hall := (hend ⟨.read ⟨1, .ready (.ok 0)⟩, by simp [htr], rfl, Nat.one_pos⟩).2
  exact ⟨t, tr, reader, Machine.run_of_exec hexec, hacked, hreader, hall.trans hexact.symm⟩

/-! ## Reading byte by byte -/

/-- The reads of a run bring buffers of at most one byte. -/
def ByteWise (ls : List (TransferAction ε)) : Prop :=
  ∀ buf arrival, .read buf arrival ∈ ls → buf.length ≤ 1

theorem returns_of_byteWise (hrun : (transfer ε).Run ls t tr) (hls : ByteWise ls) :
    ∃ reader, t.reader = .done reader := by
  induction hrun with
  | nil => exact ⟨_, rfl⟩
  | @snoc ls t tr l t' es hrun hstep ih =>
      obtain ⟨reader, hreader⟩ := ih fun buf arrival hmem =>
        hls buf arrival (List.mem_append_left _ hmem)
      cases l with
      | write buf answers =>
          simp only [transfer, Transfer.step] at hstep
          split_ifs at hstep
          cases hstep
          exact ⟨reader, hreader⟩
      | close finish =>
          cases hstep
          exact ⟨reader, hreader⟩
      | read buf arrival =>
          have hlen : buf.length ≤ 1 := hls buf arrival (by simp)
          have hfit : ∀ bytes, reader.stream.readBuf = some bytes → buf.length ≤ bytes.length := by
            intro bytes hbytes
            have hne : bytes ≠ [] := by
              rintro rfl
              exact (carried_of_run hrun).leftover reader hreader hbytes
            exact hlen.trans (List.length_pos_iff.mpr hne)
          simp only [transfer, Transfer.step, hreader] at hstep
          obtain ⟨answers, hanswers, hmap⟩ := Option.map_eq_some_iff.mp hstep
          obtain ⟨result, buf', after, hpoll, -⟩ := pollRead_returns
            { reader.stream with recvStream := ⟨answers⟩ } buf hfit
          simp only [hpoll] at hmap
          cases hmap
          exact ⟨_, rfl⟩

/-- A read takes one byte, if there is one. -/
theorem pollRead_byte {stream : Stream ε} {b : UInt8} {bytes : List UInt8}
    (h : stream.readBuf = some (b :: bytes) ∨ stream.readBuf = none ∧
      ∃ answers hne, stream.recvStream.answers = .chunk ⟨b :: bytes, hne⟩ :: answers) :
    ∃ after, stream.pollRead [0] = .done (.ready (.ok 1), [b], after) := by
  have hcopy : Outcome.copyPrefix [0] (b :: bytes) 1 = .done [b] :=
    Outcome.copyPrefix_of_le Nat.le.refl (Nat.succ_le_succ (Nat.zero_le _))
  have hslice : Outcome.sliceFrom (b :: bytes) 1 = .done bytes :=
    Outcome.sliceFrom_of_le (Nat.succ_le_succ (Nat.zero_le _))
  obtain ⟨send, ⟨answers⟩, readBuf⟩ := stream
  rcases h with hbuf | ⟨hnone, answers', hne, hanswers⟩
  · cases hbuf
    simp only [Stream.pollRead, List.length_singleton, hcopy, hslice, Outcome.done_bind]
    split <;> exact ⟨_, rfl⟩
  · cases hnone
    cases hanswers
    have hmin : min 1 (b :: bytes).length = 1 := by simp
    simp only [Stream.pollRead, RecvStream.read, List.length_singleton, hmin, hcopy, hslice,
      Outcome.done_bind]
    split <;> exact ⟨_, rfl⟩

/-- A byte that has been sent and not returned can be read. -/
theorem Carried.exists_read (hcarried : Carried t tr) {reader : Reader ε}
    (hreader : t.reader = .done reader) (hmore : reader.returned ≠ t.sent) :
    ∃ arrival t' es reader' b, t.step (.read [0] arrival) = some (t', es) ∧
      t'.reader = .done reader' ∧ reader'.returned = reader.returned ++ [b] ∧
      t'.sent = t.sent := by
  have hstep : ∀ {arrival : Arrival ε} {answers : List (ReadAnswer ε)} {b : UInt8}
      {after : Stream ε}, arrival.answers t.finished t.inFlight = some answers →
      { reader.stream with recvStream := ⟨answers⟩ }.pollRead [0] =
        .done (.ready (.ok 1), [b], after) →
      ∃ arrival t' es reader' b, t.step (.read [0] arrival) = some (t', es) ∧
        t'.reader = .done reader' ∧ reader'.returned = reader.returned ++ [b] ∧
        t'.sent = t.sent := by
    intro arrival answers b after hanswers hpoll
    have hread : t.step (.read [0] arrival) =
        some ({ t with
          inFlight := after.recvStream.unread ++ arrival.rest t.inFlight
          reader := .done ⟨{ after with recvStream := ⟨[]⟩ }, reader.returned ++ [b]⟩ },
          [.read ⟨1, .ready (.ok 1)⟩]) := by
      simp only [Transfer.step, hreader, Transfer.read, hanswers, hpoll, Option.map_some]
      rfl
    exact ⟨arrival, _, _, _, b, hread, rfl, rfl, rfl⟩
  have hreceived := hcarried.received reader hreader
  have hleftover := hcarried.leftover reader hreader
  cases hbuf : reader.stream.readBuf with
  | some bytes =>
      rw [hbuf] at hleftover
      obtain ⟨b, bytes, rfl⟩ := List.exists_cons_of_ne_nil fun h => hleftover (congrArg some h)
      have hpending : (Arrival.pending : Arrival ε).answers t.finished t.inFlight =
          some [.pending] := rfl
      have hleft : ({ reader.stream with recvStream := ⟨[.pending]⟩ } : Stream ε).readBuf =
          some (b :: bytes) := hbuf
      obtain ⟨after, hpoll⟩ := pollRead_byte (Or.inl hleft)
      exact hstep hpending hpoll
  | none =>
      rw [hbuf, Option.getD_none, List.append_nil] at hreceived
      have hne : t.inFlight ≠ [] := by
        intro hnil
        rw [hnil, List.append_nil] at hreceived
        exact hmore hreceived
      obtain ⟨b, inFlight, hinFlight⟩ := List.exists_cons_of_ne_nil hne
      have hchunk : (Arrival.chunk 1 : Arrival ε).answers t.finished t.inFlight =
          some [.chunk ⟨[b], List.cons_ne_nil b []⟩] := by simp [Arrival.answers, hinFlight]
      have hone : ({ reader.stream with recvStream :=
          ⟨[.chunk ⟨[b], List.cons_ne_nil b []⟩]⟩ } : Stream ε).readBuf = none := hbuf
      obtain ⟨after, hpoll⟩ := pollRead_byte (Or.inr ⟨hone, [], List.cons_ne_nil b [], rfl⟩)
      exact hstep hchunk hpoll

/-- From wherever a reader has come to, asking for single bytes gives it all that was sent. -/
theorem exists_drained_of_carried (n : Nat) (hcarried : Carried t tr) {reader : Reader ε}
    (hreader : t.reader = .done reader) (hn : t.sent.length = reader.returned.length + n) :
    ∃ ks t' es reader', (transfer ε).execFrom t ks = some (t', es) ∧ ByteWise ks ∧
      t'.reader = .done reader' ∧ reader'.returned = t.sent := by
  induction n generalizing t tr reader with
  | zero =>
      have hall : reader.returned = t.sent :=
        (hcarried.returned_le hreader).eq_of_length hn.symm
      exact ⟨[], t, [], reader, rfl, fun _ _ hmem => by simp at hmem, hreader, hall⟩
  | succ n ih =>
      have hmore : reader.returned ≠ t.sent := by
        intro heq
        rw [heq] at hn
        omega
      obtain ⟨arrival, t₁, es₁, reader₁, b, hstep, hreader₁, hreturned, hsent⟩ :=
        hcarried.exists_read hreader hmore
      have hcarried₁ : Carried t₁ (tr ++ es₁) := hcarried.step hstep
      have hn₁ : t₁.sent.length = reader₁.returned.length + n := by
        rw [hsent, hreturned, List.length_append, List.length_singleton]
        omega
      obtain ⟨ks, t', es, reader', hexec, hks, hreader', hall⟩ := ih hcarried₁ hreader₁ hn₁
      refine ⟨.read [0] arrival :: ks, t', es₁ ++ es, reader', ?_, ?_, hreader', hall.trans hsent⟩
      · have hfirst : (transfer ε).step t (.read [0] arrival) = some (t₁, es₁) := hstep
        simp [Machine.execFrom, hfirst, hexec]
      · intro buf arrival' hmem
        rcases List.mem_cons.mp hmem with heq | hmem
        · cases heq
          exact le_rfl
        · exact hks buf arrival' hmem

/-- A reader that asks for single bytes never panics, and from wherever it has come to it
can go on so until it has been given all that was sent. -/
theorem exists_drained (hrun : (transfer ε).Run ls t tr) (hls : ByteWise ls) :
    ∃ ks t' es reader', (transfer ε).execFrom t ks = some (t', es) ∧ ByteWise ks ∧
      t'.reader = .done reader' ∧ reader'.returned = t.sent := by
  obtain ⟨reader, hreader⟩ := returns_of_byteWise hrun hls
  have hcarried := carried_of_run hrun
  have hreceived := hcarried.received reader hreader
  refine exists_drained_of_carried
    (reader.stream.readBuf.getD [] ++ t.inFlight).length hcarried hreader ?_
  rw [← hreceived, List.append_assoc, List.length_append]

/-- One of three bytes has been read, and one has arrived with it. -/
theorem exists_drained_byte : ∃ t tr ks t' es reader',
    (transfer Empty).Run [.write [1, 2, 3] [.accept 3], .read [0] (.chunk 2)] t tr ∧
      (transfer Empty).execFrom t ks = some (t', es) ∧ ByteWise ks ∧
      t'.reader = .done reader' ∧ reader'.returned = [1, 2, 3] := by
  have hexec : ∃ t tr, (transfer Empty).exec
      [.write [1, 2, 3] [.accept 3], .read [0] (.chunk 2)] = some (t, tr) ∧
        t.sent = [1, 2, 3] := ⟨_, _, rfl, rfl⟩
  obtain ⟨t, tr, hexec, hsent⟩ := hexec
  have hrun := Machine.run_of_exec hexec
  obtain ⟨ks, t', es, reader', hrest, hks, hreader', hall⟩ :=
    exists_drained hrun (by simp [ByteWise])
  exact ⟨t, tr, ks, t', es, reader', hrun, hrest, hks, hreader', hall.trans hsent⟩

end Runs

end SfRs.WtTransport
