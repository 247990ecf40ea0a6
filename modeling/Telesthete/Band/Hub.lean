import Telesthete.Band.Control
import Telesthete.Channel.Frame
import Telesthete.Lib.Broadcast
import Telesthete.Lib.HighWater

/-!
# The tasks that check data packets for replays

Stream and Channel packets are checked by one hub task each, Board and Drop
packets by a task per open endpoint behind a demultiplexer. All of them keep
the same kind of replay mark, take packets from a queue, and listen on the
broadcast channel on which the control task announces that a peer restarted;
`select!` takes from whichever is ready, in any order.

The broadcast channel keeps the last 64 values. A receiver that is further
behind is told so once and continues with the oldest value kept.
-/

namespace Telesthete.Band

open Telesthete.Lib Telesthete.Wire Telesthete.Channel

/-- Capacity of the rebase broadcast channel. -/
def rebaseCapacity : Nat := 64

/-- `rebase_rx.recv()` for a receiver that has taken `next` of the values
`sent` so far: `Lagged` (no address) or the next address, and the receiver's
new position. `none` if it has taken them all. -/
def rebaseRecv (sent : List SocketAddr) (next : Nat) : Option (Option SocketAddr × Nat) :=
  Broadcast.recv rebaseCapacity sent next

/-- What a replay mark is kept for: Stream and Channel keep one per peer and
channel id, a Board or Drop endpoint one per peer. -/
abbrev MarkKey := SocketAddr × Option UInt16

abbrev Marks := AList fun _ : MarkKey => Nat

/-- Accept-first, then strictly increasing (§3.3): `none` for a sequence at or
below the mark, else the marks with this one advanced. -/
def raiseMark (marks : Marks) (key : MarkKey) (seq : Nat) : Option Marks :=
  HighWater.raise marks key seq

/-- `handle_stream_inbound`: an empty packet is dropped before its mark. -/
def handleStreamInbound (marks : Marks) (pkt : Inbound) : Option Marks :=
  if pkt.payload.isEmpty then none
  else raiseMark marks (pkt.source, some pkt.header.channelId) pkt.header.sequence

/-- The replay check of `ChannelHub`. -/
def channelReplay (marks : Marks) (pkt : Inbound) : Option Marks :=
  raiseMark marks (pkt.source, some pkt.header.channelId) pkt.header.sequence

/-- The replay check of `run_board_task`. -/
def boardReplay (marks : Marks) (pkt : Inbound) : Option Marks :=
  raiseMark marks (pkt.source, none) pkt.header.sequence

/-- `replay_stale`, of both ends of a drop. -/
def dropReplay (marks : Marks) (pkt : Inbound) : Option Marks :=
  raiseMark marks (pkt.source, none) pkt.header.sequence

inductive TaskKind where
  | streamHub
  | channelHub
  | board
  | drop
deriving DecidableEq, Repr

def TaskKind.raise : TaskKind → Marks → Inbound → Option Marks
  | .streamHub => handleStreamInbound
  | .channelHub => channelReplay
  | .board => boardReplay
  | .drop => dropReplay

/-- The mark a task checks a packet against. -/
def TaskKind.markKey : TaskKind → Inbound → MarkKey
  | .streamHub, pkt => (pkt.source, some pkt.header.channelId)
  | .channelHub, pkt => (pkt.source, some pkt.header.channelId)
  | .board, pkt => (pkt.source, none)
  | .drop, pkt => (pkt.source, none)

namespace TaskKind

variable {kind : TaskKind} {marks marks' : Marks} {pkt : Inbound}

theorem markKey_fst : (kind.markKey pkt).1 = pkt.source := by
  cases kind <;> rfl

/-- What is admitted is above the mark. -/
theorem raiseMark_of_raise (h : kind.raise marks pkt = some marks') :
    raiseMark marks (kind.markKey pkt) pkt.header.sequence = some marks' := by
  cases kind with
  | streamHub => exact (Option.ite_none_left_eq_some.mp h).2
  | channelHub => exact h
  | board => exact h
  | drop => exact h

/-- The first packet is admitted, if it is not an empty one for the Stream hub. -/
theorem raise_of_lookup_none (h : marks.lookup (kind.markKey pkt) = none)
    (hpayload : kind = .streamHub → pkt.payload.isEmpty = false) :
    kind.raise marks pkt = some (marks.insert (kind.markKey pkt) pkt.header.sequence) := by
  have hraise : raiseMark marks (kind.markKey pkt) pkt.header.sequence =
      some (marks.insert (kind.markKey pkt) pkt.header.sequence) := by
    refine HighWater.raise_eq_some.mpr ⟨fun mark hmark => ?_, rfl⟩
    rw [h] at hmark
    cases hmark
  cases kind with
  | streamHub =>
    have hne : ¬ pkt.payload.isEmpty = true := Bool.eq_false_iff.mp (hpayload rfl)
    exact (if_neg hne).trans hraise
  | channelHub => exact hraise
  | board => exact hraise
  | drop => exact hraise

end TaskKind

/-- The Channel frame a payload parses to; no JSON text is one. -/
def Payload.frame : Payload → Option ChannelFrame
  | .json _ => none
  | .bytes bs => ChannelFrame.parse bs

/-- Where an accepted packet goes: the open Stream of its id, or, if it holds
a frame, the open Channel of its peer and id. Board and Drop tasks consume it
themselves. -/
def TaskKind.outletKey : TaskKind → Inbound → Option (Option SocketAddr × UInt16)
  | .streamHub, pkt => some (none, pkt.header.channelId)
  | .channelHub, pkt => pkt.payload.frame.map fun _ => (some pkt.source, pkt.header.channelId)
  | .board, _ => none
  | .drop, _ => none

/-- A task with replay marks. -/
structure Subscriber where
  kind : TaskKind
  queue : List Inbound
  /-- Its position in the rebase channel. -/
  next : Nat
  marks : Marks
  /-- The open endpoints, numbered in the order they were opened. -/
  outlets : AList fun _ : Option SocketAddr × UInt16 => Nat
  opened : Nat
  /-- History: the packets that passed the replay check. -/
  accepted : List Inbound
  /-- History: the packets handed to an endpoint. -/
  handed : List (Nat × Inbound)

namespace Subscriber

/-- A task that subscribes when `next` values have been broadcast. -/
def new (kind : TaskKind) (next : Nat) : Subscriber where
  kind := kind
  queue := []
  next := next
  marks := ∅
  outlets := ∅
  opened := 0
  accepted := []
  handed := []

/-- The endpoint an accepted packet is handed to. -/
def outlet (s : Subscriber) (pkt : Inbound) : Option Nat :=
  (s.kind.outletKey pkt).bind s.outlets.lookup

/-- The task handles `pkt`. -/
def handle (s : Subscriber) (pkt : Inbound) : Subscriber :=
  match s.kind.raise s.marks pkt with
  | none => s
  | some marks =>
    { s with
      marks := marks
      accepted := s.accepted ++ [pkt]
      handed := s.handed ++ ((s.outlet pkt).map (·, pkt)).toList }

/-- Its next packet, if it takes from the packet queue. -/
def onPacket (s : Subscriber) : Option Subscriber :=
  match s.queue with
  | [] => none
  | pkt :: rest => some ({ s with queue := rest }.handle pkt)

/-- Its next signal, if it takes from the rebase channel: a restarted peer's
marks are cleared, a lag is ignored. -/
def onRebase (s : Subscriber) (sent : List SocketAddr) : Option Subscriber :=
  (rebaseRecv sent s.next).map fun (addr, next) =>
    match addr with
    | none => { s with next := next }
    | some addr => { s with next := next, marks := retain (fun key => key.1 ≠ addr) s.marks }

/-- A packet is admitted, or nothing happens. -/
theorem handle_cases (s : Subscriber) (pkt : Inbound) :
    s.handle pkt = s ∨ ∃ marks, s.kind.raise s.marks pkt = some marks ∧
      s.handle pkt = { s with
        marks := marks
        accepted := s.accepted ++ [pkt]
        handed := s.handed ++ ((s.outlet pkt).map (·, pkt)).toList } := by
  unfold handle
  split
  · exact .inl rfl
  · rename_i marks hraise
    exact .inr ⟨marks, hraise, rfl⟩

theorem onPacket_eq_some {s s' : Subscriber} (h : s.onPacket = some s') :
    ∃ pkt, s.queue = pkt :: s'.queue ∧ s' = { s with queue := s'.queue }.handle pkt := by
  unfold onPacket at h
  split at h
  · cases h
  · rename_i pkt rest hqueue
    cases h
    have hrest : ({ s with queue := rest }.handle pkt).queue = rest := by
      unfold handle
      split <;> rfl
    rw [hrest]
    exact ⟨pkt, hqueue, rfl⟩

/-- A signal clears marks; a lag clears none. -/
theorem onRebase_eq_some {s s' : Subscriber} {sent : List SocketAddr}
    (h : s.onRebase sent = some s') :
    s'.queue = s.queue ∧ s'.kind = s.kind ∧ s'.accepted = s.accepted ∧ s'.handed = s.handed ∧
      ((rebaseRecv sent s.next = some (none, s'.next) ∧ s'.marks = s.marks) ∨
        ∃ addr, rebaseRecv sent s.next = some (some addr, s'.next) ∧
          s'.marks = retain (fun key => key.1 ≠ addr) s.marks) := by
  obtain ⟨⟨addr, next⟩, hrecv, heq⟩ := Option.map_eq_some_iff.mp h
  cases addr with
  | none =>
    subst heq
    exact ⟨rfl, rfl, rfl, rfl, .inl ⟨hrecv, rfl⟩⟩
  | some addr =>
    subst heq
    exact ⟨rfl, rfl, rfl, rfl, .inr ⟨addr, hrecv, rfl⟩⟩

end Subscriber

end Telesthete.Band
