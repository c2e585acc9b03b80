import SfRs.Lib.Machine
import SfRs.WtTransport.Stream
/-!
# Writing to a stream

`poll_write` makes a new `write` future on every call and drops it when it is
not ready, so what the future had already handed to the transport is forgotten
and the caller's retry hands it over again.  `writeMachine` runs a caller that
follows the `AsyncWrite` contract; the result says exactly which reactions of
the transport keep the bytes it was handed equal to the bytes acknowledged.
-/

namespace SfRs.WtTransport

open SfRs.Lib

variable {ε : Type*}

/-- A stream, the bytes acknowledged to its writer, the buffer the writer has to
retry with, and whether a call failed. -/
structure Writer (ε : Type*) where
  stream : Stream ε
  acked : List UInt8
  retry : Option (List UInt8)
  failed : Bool

/-- One completed call: its buffer and its result. -/
structure WriteCall (ε : Type*) where
  buf : List UInt8
  result : Poll (Except ε Nat)

/-- The calls the writer may make: any buffer, except that one that was pending is
retried, and none after an error. -/
def Writer.MayCall (writer : Writer ε) (buf : List UInt8) : Prop :=
  writer.failed = false ∧ ∀ pending, writer.retry = some pending → pending = buf

instance (writer : Writer ε) (buf : List UInt8) : Decidable (writer.MayCall buf) :=
  match h : writer.retry with
  | none => decidable_of_iff (writer.failed = false) (by simp [Writer.MayCall, h])
  | some pending =>
      decidable_of_iff (writer.failed = false ∧ pending = buf) (by simp [Writer.MayCall, h])

/-- What the writer does with the result of a call. -/
def Writer.observe (writer : Writer ε) (buf : List UInt8) (stream : Stream ε) :
    Poll (Except ε Nat) → Writer ε
  | .pending => { writer with stream := stream, retry := some buf }
  | .ready (.ok n) =>
      { writer with stream := stream, acked := writer.acked ++ buf.take n, retry := none }
  | .ready (.error _) => { writer with stream := stream, retry := none, failed := true }

/-- Any sequence of `poll_write` calls that follows the contract, each labelled by its
buffer. -/
def writeMachine (stream : Stream ε) : Machine (Writer ε) (List UInt8) (WriteCall ε) where
  init := { stream := stream, acked := [], retry := none, failed := false }
  step writer buf :=
    if writer.MayCall buf then
      let call := writer.stream.pollWrite buf
      some (writer.observe buf call.2 call.1, [{ buf := buf, result := call.1 }])
    else none

/-! ## One call -/

/-- Handing over is the same whatever was sent before. -/
theorem pollWriteFuture_sent (answers : List (WriteAnswer ε)) (sent rest : List UInt8) :
    pollWriteFuture answers sent rest =
      ((pollWriteFuture answers [] rest).1,
        ⟨(pollWriteFuture answers [] rest).2.answers,
          sent ++ (pollWriteFuture answers [] rest).2.sent⟩) := by
  induction answers generalizing sent rest with
  | nil => cases rest <;> simp [pollWriteFuture]
  | cons answer answers ih =>
      cases rest with
      | nil => simp [pollWriteFuture]
      | cons b rest =>
          cases answer with
          | accept n =>
              simp only [pollWriteFuture, List.nil_append]
              rw [ih, ih ((b :: rest).take n)]
              simp
          | pending => simp [pollWriteFuture]
          | failed e => simp [pollWriteFuture]

/-- A future that finishes has handed over all it was made with. -/
theorem pollWriteFuture_ready {answers : List (WriteAnswer ε)} {rest : List UInt8}
    (h : (pollWriteFuture answers [] rest).1 = .ready (.ok ())) :
    (pollWriteFuture answers [] rest).2.sent = rest := by
  induction answers generalizing rest with
  | nil => cases rest <;> simp_all [pollWriteFuture]
  | cons answer answers ih =>
      cases rest with
      | nil => simp [pollWriteFuture]
      | cons b rest =>
          cases answer with
          | accept n =>
              simp only [pollWriteFuture, List.nil_append] at h ⊢
              rw [pollWriteFuture_sent] at h ⊢
              simp only at h ⊢
              rw [ih h, List.take_append_drop]
          | pending => simp [pollWriteFuture] at h
          | failed e => simp [pollWriteFuture] at h

/-- The stream after its transport has reacted to a future made from one buffer. -/
def Stream.react (stream : Stream ε) (send : SendStream ε) : Stream ε :=
  { stream with
    sendStream := ⟨send.answers, stream.sendStream.sent ++ send.sent⟩ }

theorem writeMachine_step {init : Stream ε} {writer : Writer ε} {buf : List UInt8}
    (hmay : writer.MayCall buf) :
    (writeMachine init).step writer buf =
      some (writer.observe buf (writer.stream.pollWrite buf).2 (writer.stream.pollWrite buf).1,
        [{ buf := buf, result := (writer.stream.pollWrite buf).1 }]) := by
  simp [writeMachine, hmay]

theorem writeMachine_completed {init : Stream ε} {writer : Writer ε} {buf : List UInt8}
    {send : SendStream ε} (hmay : writer.MayCall buf)
    (hpoll : pollWriteFuture writer.stream.sendStream.answers [] buf =
      (.ready (.ok ()), send)) :
    (writeMachine init).step writer buf =
      some ({ writer with
          stream := writer.stream.react send, acked := writer.acked ++ buf, retry := none },
        [{ buf := buf, result := .ready (.ok buf.length) }]) := by
  rw [writeMachine_step hmay, Stream.pollWrite, pollWriteFuture_sent, hpoll]
  simp [Writer.observe, Stream.react]

theorem writeMachine_pending {init : Stream ε} {writer : Writer ε} {buf : List UInt8}
    {send : SendStream ε} (hmay : writer.MayCall buf)
    (hpoll : pollWriteFuture writer.stream.sendStream.answers [] buf = (.pending, send)) :
    (writeMachine init).step writer buf =
      some ({ writer with stream := writer.stream.react send, retry := some buf },
        [{ buf := buf, result := .pending }]) := by
  rw [writeMachine_step hmay, Stream.pollWrite, pollWriteFuture_sent, hpoll]
  simp [Writer.observe, Stream.react]

theorem writeMachine_failed {init : Stream ε} {writer : Writer ε} {buf : List UInt8}
    {send : SendStream ε} {e : ε} (hmay : writer.MayCall buf)
    (hpoll : pollWriteFuture writer.stream.sendStream.answers [] buf =
      (.ready (.error e), send)) :
    (writeMachine init).step writer buf =
      some ({ writer with stream := writer.stream.react send, retry := none, failed := true },
        [{ buf := buf, result := .ready (.error e) }]) := by
  rw [writeMachine_step hmay, Stream.pollWrite, pollWriteFuture_sent, hpoll]
  simp [Writer.observe, Stream.react]

theorem mayCall_of_step {init : Stream ε} {writer writer' : Writer ε} {buf : List UInt8}
    {es : List (WriteCall ε)} (h : (writeMachine init).step writer buf = some (writer', es)) :
    writer.MayCall buf := by
  by_contra hnot
  simp [writeMachine, hnot] at h

/-! ## Any sequence of calls -/

/-- When a call returns `Ready(Ok(n))`, the transport has been handed exactly the bytes
acknowledged. -/
def AckedExactly (writer : Writer ε) (calls : List (WriteCall ε)) : Prop :=
  ∀ earlier call n, calls = earlier ++ [call] → call.result = .ready (.ok n) →
    writer.stream.sendStream.sent = writer.acked

/-- No call completes after one that returned `Pending` with part of its buffer taken.
The condition only looks at how the transport reacts to the buffers; `torn` records
that such a call was made before. -/
def NoTornWrite : Bool → List (WriteAnswer ε) → List (List UInt8) → Prop
  | _, _, [] => True
  | torn, answers, buf :: bufs =>
      match pollWriteFuture answers [] buf with
      | (.ready (.ok ()), send) => torn = false ∧ NoTornWrite false send.answers bufs
      | (.pending, send) => NoTornWrite (torn || !send.sent.isEmpty) send.answers bufs
      | (.ready (.error _), _) => True

theorem ackedExactly_snoc {writer : Writer ε} {calls : List (WriteCall ε)}
    {call : WriteCall ε} :
    AckedExactly writer (calls ++ [call]) ↔
      ∀ n, call.result = .ready (.ok n) → writer.stream.sendStream.sent = writer.acked := by
  constructor
  · exact fun h n hn => h calls call n rfl hn
  · intro h earlier call' n hcalls hn
    obtain ⟨-, hcall⟩ := List.append_inj' hcalls rfl
    obtain rfl : call = call' := by simpa using hcall
    exact h n hn

/-- From any point of a run: the rest of the run acknowledges exactly what it hands over
just when no call completes with a torn write behind it.  The induction is on the
calls still to be made; `torn` is whether something was handed over that is not
acknowledged. -/
theorem alwaysFrom_ackedExactly_iff {init : Stream ε} (bufs : List (List UInt8))
    (writer : Writer ε) (calls : List (WriteCall ε)) (torn : Bool)
    (hrun : ((writeMachine init).execFrom writer bufs).isSome)
    (hcalls : AckedExactly writer calls)
    (hpre : writer.acked <+: writer.stream.sendStream.sent)
    (htorn : torn = false ↔ writer.stream.sendStream.sent = writer.acked) :
    (writeMachine init).AlwaysFrom AckedExactly writer calls bufs ↔
      NoTornWrite torn writer.stream.sendStream.answers bufs := by
  induction bufs generalizing writer calls torn with
  | nil => simpa [Machine.AlwaysFrom, NoTornWrite] using hcalls
  | cons buf bufs ih =>
      obtain ⟨writer', es, hstep, hrest⟩ := Machine.isSome_execFrom_cons hrun
      have hmay := mayCall_of_step hstep
      rw [Machine.alwaysFrom_cons hstep, NoTornWrite]
      rcases hpoll : pollWriteFuture writer.stream.sendStream.answers [] buf with
        ⟨⟨e | ⟨⟩⟩ | _, send⟩
      · rw [writeMachine_failed hmay hpoll] at hstep
        simp only [Option.some.injEq, Prod.mk.injEq] at hstep
        obtain ⟨rfl, rfl⟩ := hstep
        simp only [hcalls, true_and, iff_true]
        -- no call follows an error, so the run ends here
        rcases bufs with _ | ⟨next, bufs⟩
        · exact ackedExactly_snoc.mpr fun n hn => by simp at hn
        · obtain ⟨_, _, hnext, -⟩ := Machine.isSome_execFrom_cons hrest
          exact absurd (mayCall_of_step hnext).1 (by simp)
      · have hsent : send.sent = buf := by
          have hready := pollWriteFuture_ready (congrArg Prod.fst hpoll)
          rwa [hpoll] at hready
        rw [writeMachine_completed hmay hpoll] at hstep
        simp only [Option.some.injEq, Prod.mk.injEq] at hstep
        obtain ⟨rfl, rfl⟩ := hstep
        simp only [hcalls, true_and]
        by_cases heq : writer.stream.sendStream.sent = writer.acked
        · have hnext := ih _ (calls ++ [⟨buf, .ready (.ok buf.length)⟩]) false hrest
            (ackedExactly_snoc.mpr fun n _ => by simp [Stream.react, heq, hsent])
            (by simp [Stream.react, heq, hsent]) (by simp [Stream.react, heq, hsent])
          rw [hnext]
          simp [htorn.mpr heq, Stream.react]
        · refine iff_of_false (fun halways => ?_) fun h => heq (htorn.mp h.1)
          have hlast := ackedExactly_snoc.mp halways.head buf.length rfl
          simp only [Stream.react, hsent] at hlast
          exact heq (List.append_cancel_right hlast)
      · rw [writeMachine_pending hmay hpoll] at hstep
        simp only [Option.some.injEq, Prod.mk.injEq] at hstep
        obtain ⟨rfl, rfl⟩ := hstep
        simp only [hcalls, true_and]
        have hgrown : (torn || !send.sent.isEmpty) = false ↔
            writer.stream.sendStream.sent ++ send.sent = writer.acked := by
          constructor
          · intro h
            obtain ⟨hclean, hempty⟩ : torn = false ∧ send.sent = [] := by simpa using h
            rw [htorn.mp hclean, hempty, List.append_nil]
          · intro h
            obtain ⟨extra, hextra⟩ := hpre
            rw [← hextra, List.append_assoc, List.append_right_eq_self] at h
            obtain ⟨hno, hempty⟩ : extra = [] ∧ send.sent = [] := by simpa using h
            have hclean : torn = false := htorn.mpr (by rw [← hextra, hno, List.append_nil])
            simp [hclean, hempty]
        exact ih _ (calls ++ [⟨buf, .pending⟩]) _ hrest
          (ackedExactly_snoc.mpr fun n hn => by simp at hn)
          (hpre.trans (List.prefix_append _ _)) hgrown

/-- A writer that follows the contract has exactly its acknowledged bytes handed over
whenever a call completes, if and only if the transport never takes part of a buffer
in a call that is pending and lets a later call complete. -/
theorem ackedExactly_iff_noTornWrite (answers : List (WriteAnswer ε)) (recv : RecvStream ε)
    (bufs : List (List UInt8))
    (hrun : ((writeMachine (Stream.new ⟨answers, []⟩ recv)).exec bufs).isSome) :
    (writeMachine (Stream.new ⟨answers, []⟩ recv)).Always AckedExactly bufs ↔
      NoTornWrite false answers bufs := by
  rw [Machine.always_iff_alwaysFrom]
  exact alwaysFrom_ackedExactly_iff bufs _ [] false hrun
    (fun earlier call n hcalls => by simp at hcalls) List.prefix_rfl
    (by simp [writeMachine, Stream.new])

/-- A transport that takes buffers in pieces, asks to wait before it takes anything of the
second, and stops in the middle of the last. -/
def patient : List (WriteAnswer Empty) :=
  [.accept 2, .accept 1, .pending, .accept 1, .accept 1, .accept 1, .pending]

theorem ackedExactly_patient :
    (writeMachine (Stream.new ⟨patient, []⟩ ⟨[]⟩)).Always AckedExactly
      [[1, 2, 3], [4, 5], [4, 5], [6, 7]] :=
  (ackedExactly_iff_noTornWrite patient ⟨[]⟩ _ rfl).mpr
    (by simp [NoTornWrite, pollWriteFuture, patient])

/-- The transport takes one byte of two and asks to wait; the retry hands both over. -/
theorem not_ackedExactly_torn_write :
    ¬ (writeMachine (Stream.new ⟨[.accept 1, .pending, .accept 2], []⟩ ⟨[]⟩ :
      Stream Empty)).Always AckedExactly [[1, 2], [1, 2]] := by
  intro halways
  have hrun : (writeMachine (Stream.new ⟨[.accept 1, .pending, .accept 2], []⟩ ⟨[]⟩ :
      Stream Empty)).Run [[1, 2], [1, 2]] ⟨⟨⟨[], [1, 1, 2]⟩, ⟨[]⟩, none⟩, [1, 2], none, false⟩
      [⟨[1, 2], .pending⟩, ⟨[1, 2], .ready (.ok 2)⟩] := Machine.run_of_exec rfl
  have hacked := halways _ List.prefix_rfl _ _ hrun [⟨[1, 2], .pending⟩] _ 2 rfl rfl
  simp at hacked

end SfRs.WtTransport
