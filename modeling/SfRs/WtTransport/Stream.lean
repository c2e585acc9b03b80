import SfRs.Lib.Outcome
/-!
# The byte stream of the WebTransport connection

`Stream` pairs the send and receive halves of a `web_transport` stream and keeps
the part of a received chunk that did not fit the reader's buffer.  The halves
are given by what they will answer: a list of read results, after which the
stream is at its end, and a list of reactions to written bytes, after which
nothing more is accepted.
-/

namespace SfRs.WtTransport

open SfRs.Lib

/-- A chunk handed out by the receive half is never empty. -/
abbrev Chunk := { bytes : List UInt8 // bytes ≠ [] }

/-- One answer of `recv_stream.read(8192)`. -/
inductive ReadAnswer (ε : Type*) where
  | chunk (bytes : Chunk)
  | pending
  | failed (e : ε)

structure RecvStream (ε : Type*) where
  answers : List (ReadAnswer ε)

/-- Poll `recv_stream.read(8192)` once. -/
def RecvStream.read {ε : Type*} (recv : RecvStream ε) :
    Poll (Except ε (Option (List UInt8))) × RecvStream ε :=
  match recv.answers with
  | [] => (.ready (.ok none), recv)
  | .chunk bytes :: rest => (.ready (.ok (some bytes.val)), ⟨rest⟩)
  | .pending :: rest => (.pending, ⟨rest⟩)
  | .failed e :: rest => (.ready (.error e), ⟨rest⟩)

/-- One reaction of the transport to the bytes it is offered: it takes up to `n` of
them, asks to wait, or fails. -/
inductive WriteAnswer (ε : Type*) where
  | accept (n : Nat)
  | pending
  | failed (e : ε)

structure SendStream (ε : Type*) where
  answers : List (WriteAnswer ε)
  /-- Every byte handed to the transport so far. -/
  sent : List UInt8

/-- Poll the future `send_stream.write(buf)` once, `rest` being the part of `buf` it
has not handed over.  The future finishes when nothing is left. -/
def pollWriteFuture {ε : Type*} : List (WriteAnswer ε) → List UInt8 → List UInt8 →
    Poll (Except ε Unit) × SendStream ε
  | answers, sent, [] => (.ready (.ok ()), ⟨answers, sent⟩)
  | [], sent, _ :: _ => (.pending, ⟨[], sent⟩)
  | .accept n :: answers, sent, b :: rest =>
      pollWriteFuture answers (sent ++ (b :: rest).take n) ((b :: rest).drop n)
  | .pending :: answers, sent, _ :: _ => (.pending, ⟨answers, sent⟩)
  | .failed e :: answers, sent, _ :: _ => (.ready (.error e), ⟨answers, sent⟩)

structure Stream (ε : Type*) where
  sendStream : SendStream ε
  recvStream : RecvStream ε
  readBuf : Option (List UInt8)

variable {ε : Type*}

def Stream.new (sendStream : SendStream ε) (recvStream : RecvStream ε) : Stream ε :=
  { sendStream, recvStream, readBuf := none }

/-- `AsyncRead::poll_read`: the result, the new contents of `buf` and the stream. -/
def Stream.pollRead (self : Stream ε) (buf : List UInt8) :
    Outcome (Poll (Except ε Nat) × List UInt8 × Stream ε) :=
  match self.readBuf with
  | some bytes =>
      -- the leftover path takes `buf.len()` without comparing it to `bytes.len()`
      let len := buf.length
      (Outcome.copyPrefix buf bytes len).bind fun buf' =>
        if len < bytes.length then
          (Outcome.sliceFrom bytes len).bind fun rest =>
            .done (.ready (.ok len), buf', { self with readBuf := some rest })
        else
          .done (.ready (.ok len), buf', { self with readBuf := none })
  | none =>
      match self.recvStream.read with
      | (.pending, recv) => .done (.pending, buf, { self with recvStream := recv })
      | (.ready (.ok none), recv) =>
          .done (.ready (.ok 0), buf, { self with recvStream := recv })
      | (.ready (.error e), recv) =>
          .done (.ready (.error e), buf, { self with recvStream := recv })
      | (.ready (.ok (some bytes)), recv) =>
          let len := min buf.length bytes.length
          (Outcome.copyPrefix buf bytes len).bind fun buf' =>
            if len < bytes.length then
              (Outcome.sliceFrom bytes len).bind fun rest =>
                .done (.ready (.ok len), buf',
                  { self with recvStream := recv, readBuf := some rest })
            else
              .done (.ready (.ok len), buf',
                { self with recvStream := recv, readBuf := none })

/-- `AsyncWrite::poll_write`.  The future is made afresh from the whole of `buf`, polled
once and dropped. -/
def Stream.pollWrite (self : Stream ε) (buf : List UInt8) :
    Poll (Except ε Nat) × Stream ε :=
  let len := buf.length
  match pollWriteFuture self.sendStream.answers self.sendStream.sent buf with
  | (.pending, send) => (.pending, { self with sendStream := send })
  | (.ready (.ok ()), send) => (.ready (.ok len), { self with sendStream := send })
  | (.ready (.error e), send) => (.ready (.error e), { self with sendStream := send })

end SfRs.WtTransport
