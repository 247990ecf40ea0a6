import Telesthete.Lib.Assoc
import Telesthete.Lib.Bytes

/-!
# The byte budget of the UDP queues

Every UDP peer has its own bounded queue, and one counter for the whole hub caps
the bytes in all of them. Sending to a peer and draining its queue are not atomic:
a send first charges the counter, then tries to queue the frame, and gives the
charge back if the queue is full or closed; a writer takes a frame out of its
queue and then gives back its charge. The model has one step for each of these,
so that the sends of any number of tasks and the writers of any number of queues
interleave freely between them. The queues themselves are atomic.

A writer ends when its queue is empty and all senders are gone. Here it may end
whenever its queue is empty, and whoever still sends finds the queue closed.
-/

namespace Telesthete.Relay

open Telesthete.Lib

/-- A frame in memory: its length is a `usize`. -/
structure Frame where
  bytes : Bytes
  fits : bytes.length < 2 ^ 64
deriving DecidableEq

def Frame.len (frame : Frame) : UInt64 := UInt64.ofNat frame.bytes.length

theorem Frame.toNat_len (frame : Frame) : frame.len.toNat = frame.bytes.length := by
  rw [Frame.len, UInt64.toNat_ofNat', Nat.mod_eq_of_lt frame.fits]

structure ByteBudget where
  used : UInt64
  limit : UInt64
deriving DecidableEq, Repr

/-- Charge `n` bytes, or refuse if that would exceed the limit; the limit 0 is none. -/
def ByteBudget.tryReserve (b : ByteBudget) (n : UInt64) : Option ByteBudget :=
  if b.used.toNat + n.toNat < 2 ^ 64 then
    let t := b.used + n
    if b.limit = 0 ∨ t ≤ b.limit then some { b with used := t } else none
  else none

/-- Give back `n` bytes; the subtraction wraps. -/
def ByteBudget.release (b : ByteBudget) (n : UInt64) : ByteBudget := { b with used := b.used - n }

/-- Where a writer is in its loop. -/
inductive Writer where
  | receiving
  | dequeued (frame : Frame)
  | sending
  | ended
deriving DecidableEq

structure Queue where
  depth : Nat
  frames : List Frame
  writer : Writer
deriving DecidableEq

/-- Where a send is: its charge is taken and the frame not yet queued, or it was not queued. -/
inductive SendCall where
  | reserved (queue : Nat) (frame : Frame)
  | refunding (frame : Frame)
deriving DecidableEq

/-- The counter, the queues and the sends in progress, by the task that makes them. -/
structure Egress where
  budget : ByteBudget
  queues : AList fun _ : Nat => Queue
  calls : AList fun _ : Nat => SendCall

namespace Egress

def new (limit : UInt64) : Egress := ⟨⟨0, limit⟩, ∅, ∅⟩

inductive Event where
  | peerSink (queue depth : Nat)
  | reserve (task queue : Nat) (frame : Frame)
  | enqueue (task : Nat)
  | refund (task : Nat)
  | dequeue (queue : Nat)
  | release (queue : Nat)
  | sent (queue : Nat)
  | finish (queue : Nat)

/-- The frame whose charge an event gives back. -/
def releases (s : Egress) : Event → Option Frame
  | .refund task =>
    match s.calls.lookup task with
    | some (.refunding frame) => some frame
    | _ => none
  | .release queue =>
    match s.queues.lookup queue with
    | some ⟨_, _, .dequeued frame⟩ => some frame
    | _ => none
  | _ => none

def step (s : Egress) : Event → Option Egress
  | .peerSink queue depth =>
    match s.queues.lookup queue with
    | none => some { s with queues := s.queues.insert queue ⟨depth, [], .receiving⟩ }
    | some _ => none
  | .reserve task queue frame =>
    match s.calls.lookup task, s.queues.lookup queue with
    | none, some _ =>
      match s.budget.tryReserve frame.len with
      | some budget =>
        some { s with budget, calls := s.calls.insert task (.reserved queue frame) }
      | none => some s
    | _, _ => none
  | .enqueue task =>
    match s.calls.lookup task with
    | some (.reserved queue frame) =>
      match s.queues.lookup queue with
      | some q =>
        if q.writer = .ended ∨ q.depth ≤ q.frames.length then
          -- closed or full: never queued
          some { s with calls := s.calls.insert task (.refunding frame) }
        else
          some
            { s with
              queues := s.queues.insert queue { q with frames := q.frames ++ [frame] }
              calls := s.calls.erase task }
      | none => none
    | _ => none
  | .refund task =>
    match s.calls.lookup task with
    | some (.refunding frame) =>
      some { s with budget := s.budget.release frame.len, calls := s.calls.erase task }
    | _ => none
  | .dequeue queue =>
    match s.queues.lookup queue with
    | some ⟨depth, frame :: frames, .receiving⟩ =>
      some { s with queues := s.queues.insert queue ⟨depth, frames, .dequeued frame⟩ }
    | _ => none
  | .release queue =>
    match s.queues.lookup queue with
    | some ⟨depth, frames, .dequeued frame⟩ =>
      some
        { s with
          budget := s.budget.release frame.len
          queues := s.queues.insert queue ⟨depth, frames, .sending⟩ }
    | _ => none
  | .sent queue =>
    match s.queues.lookup queue with
    | some ⟨depth, frames, .sending⟩ =>
      some { s with queues := s.queues.insert queue ⟨depth, frames, .receiving⟩ }
    | _ => none
  | .finish queue =>
    match s.queues.lookup queue with
    | some ⟨depth, [], .receiving⟩ =>
      some { s with queues := s.queues.insert queue ⟨depth, [], .ended⟩ }
    | _ => none

end Egress

end Telesthete.Relay
