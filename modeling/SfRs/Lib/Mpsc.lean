import Mathlib.Data.List.Infix
import SfRs.Lib.Outcome
/-!
# Unbounded channels

The queue of an unbounded channel with one receiver.  Sending to a closed channel fails,
and the receiver still takes what the queue holds before it sees the end.

A channel is followed by what it accepted and what was taken from it: taken and queued
items together are the accepted ones, in order.
-/

namespace SfRs.Lib

structure Unbounded (α : Type*) where
  queue : List α
  closed : Bool

namespace Unbounded

variable {α β : Type*}

def new : Unbounded α := ⟨[], false⟩

/-- `unbounded_send`, by a caller that ignores its error. -/
def send (c : Unbounded α) (a : α) : Unbounded α :=
  if c.closed then c else { c with queue := c.queue ++ [a] }

def closeChannel (c : Unbounded α) : Unbounded α := { c with closed := true }

/-- `poll_next` of the receiver, with what it leaves of the channel. -/
def pollNext (c : Unbounded α) : Poll (Option α × Unbounded α) :=
  match c.queue with
  | a :: queue => .ready (some a, { c with queue := queue })
  | [] => if c.closed then .ready (none, c) else .pending

/-- The channel has accepted `accepted`, and `taken` was received from it. -/
def Follows (c : Unbounded α) (accepted taken : List α) : Prop := accepted = taken ++ c.queue

variable {c c' : Unbounded α} {accepted taken : List α} {a : α}

@[simp] theorem closed_send (c : Unbounded α) (a : α) : (c.send a).closed = c.closed := by
  unfold send
  split <;> rfl

theorem Follows.send (h : c.Follows accepted taken) (hopen : c.closed = false) (a : α) :
    (c.send a).Follows (accepted ++ [a]) taken := by
  unfold Unbounded.send
  rw [hopen]
  exact (congrArg (· ++ [a]) h).trans (List.append_assoc _ _ _)

theorem Follows.closeChannel (h : c.Follows accepted taken) :
    c.closeChannel.Follows accepted taken := h

theorem pollNext_some (h : c.pollNext = .ready (some a, c')) :
    c.queue = a :: c'.queue ∧ c'.closed = c.closed := by
  unfold pollNext at h
  split at h
  case h_1 b queue hqueue =>
      cases h
      exact ⟨hqueue, rfl⟩
  case h_2 => split at h <;> cases h

theorem pollNext_none (h : c.pollNext = .ready (none, c')) : c.queue = [] ∧ c.closed = true := by
  unfold pollNext at h
  split at h
  case h_1 => cases h
  case h_2 hqueue =>
      split at h
      case isTrue hclosed => exact ⟨hqueue, hclosed⟩
      case isFalse => cases h

theorem Follows.poll (h : c.Follows accepted taken) (hpoll : c.pollNext = .ready (some a, c')) :
    c'.Follows accepted (taken ++ [a]) := by
  have hqueue := (pollNext_some hpoll).1
  calc
    accepted = taken ++ c.queue := h
    _ = taken ++ [a] ++ c'.queue := by rw [hqueue, List.append_assoc, List.singleton_append]

theorem Follows.taken_le (h : c.Follows accepted taken) : taken <+: accepted := ⟨c.queue, h.symm⟩

end Unbounded

end SfRs.Lib
