import Telesthete.Channel.Frame
import Telesthete.Wire.Fragment

/-!
# The Channel reliability state machine (SPEC §6.3-§6.5)

`ChannelCore` is the sans-io half of a Channel connection: every method of
the code is a function on the state, and its effects collect in `outbox`
(frames to send, already serialized) and `delivered` (reassembled messages).

Sequence numbers and counters are natural numbers, so `+ 1` is exact. The
code's are `u64`, which panics or wraps at `2 ^ 64` depending on the build;
up to the first such overflow the two compute the same values.

Two inputs of the code come from outside the machine and are arguments here:
the random fragment id `send_message` draws, and the clock `feed` reads. A
core reads the clock once for each inner sequence it drains, and drains each
sequence once, so a run's readings are a function `now` of the sequence
number: `now s` is the reading made when the frame with sequence `s` is
drained.

`fed` and `fedAt` are history variables: the data payloads handed to the
reassembler, in order, and the clock readings it took for them. Nothing
reads them. The `rto` of the code only arms the task's timer
and is left out.
-/

namespace Telesthete.Channel

open Telesthete.Lib Telesthete.Wire

/-- Give up on an unacked frame after this many RTOs. -/
def maxRetries : Nat := 10

def defaultWindow : UInt16 := 32

inductive ConnState where
  | closed
  | synSent
  | established
  | finSent
deriving DecidableEq, Repr

/-- One unacknowledged outgoing sequenced frame, kept for retransmission. -/
structure Unacked where
  flags : UInt8
  seq : Nat
  data : Bytes
deriving DecidableEq

structure ChannelCore where
  state : ConnState
  /-- Next inner seq to assign to a sequenced frame. -/
  sendNext : Nat
  /-- In-flight sequenced frames, ascending by seq. -/
  unacked : List Unacked
  /-- Fragment chunks awaiting window. -/
  sendQueue : List Bytes
  /-- The peer's advertised window: cap on frames in flight. -/
  peerWindow : UInt16
  /-- A FIN is pending once the queue drains. -/
  closing : Bool
  /-- Next in-order inner seq expected. -/
  rcvNext : Nat
  /-- Out-of-order frames, keyed by seq. -/
  recvBuffer : AList (fun _ : Nat => ChannelFrame)
  reassembler : Reassembler
  /-- Our advertised receive window. -/
  window : UInt16
  retries : Nat
  outbox : List Bytes
  delivered : List Bytes
  justEstablished : Bool
  peerClosed : Bool
  /-- Set on RST or after `maxRetries`: the owning task ends. -/
  dead : Bool
  /-- History: every payload handed to the reassembler so far. -/
  fed : List Bytes
  /-- History: the clock reading at each of them. -/
  fedAt : List Nat

namespace ChannelCore

def new (window : UInt16) : ChannelCore where
  state := .closed
  sendNext := 0
  unacked := []
  sendQueue := []
  peerWindow := defaultWindow
  closing := false
  rcvNext := 0
  recvBuffer := ∅
  reassembler := Reassembler.forChunkSize Wire.maxChunkPayload
  window := window
  retries := 0
  outbox := []
  delivered := []
  justEstablished := false
  peerClosed := false
  dead := false
  fed := []
  fedAt := []

/-- Build and queue a frame for sending, stamping the live ack and window. -/
def emit (c : ChannelCore) (flags : UInt8) (seq : Nat) (data : Bytes) : ChannelCore :=
  { c with
    outbox := c.outbox ++
      [{ flags, ackNum := c.rcvNext, window := c.window, seq, data : ChannelFrame }.serialize] }

/-- Emit a sequenced frame and retain it for retransmission. -/
def emitReliable (c : ChannelCore) (flags : UInt8) (seq : Nat) (data : Bytes) : ChannelCore :=
  emit { c with unacked := c.unacked ++ [⟨flags, seq, data⟩] } flags seq data

/-- `let seq = send_next; send_next += 1; emit_reliable(flags, seq, data)`,
the only way the code ever assigns a sequence number. -/
def emitNext (c : ChannelCore) (flags : UInt8) (data : Bytes) : ChannelCore :=
  { c with sendNext := c.sendNext + 1 }.emitReliable flags c.sendNext data

/-- A pure ACK carries `sendNext` without consuming it. -/
def emitPureAck (c : ChannelCore) : ChannelCore := c.emit flagAck c.sendNext []

/-- Initiator: open the connection. SYN consumes inner seq 0. -/
def connect (c : ChannelCore) : ChannelCore :=
  if c.state ≠ .closed then c
  else { c with state := .synSent }.emitNext flagSyn []

/-- The data loop of `pump`. Each pass pops one chunk, so the queue's length
bounds the passes. -/
def pumpData (limit : Nat) : Nat → ChannelCore → ChannelCore
  | 0, c => c
  | fuel + 1, c =>
    match c.sendQueue with
    | [] => c
    | data :: rest =>
      if c.unacked.length < limit then
        pumpData limit fuel ({ c with sendQueue := rest }.emitNext flagAck data)
      else c

/-- Turn queued chunks into data frames while the peer's window allows, then
send a pending FIN once the queue is empty. Only runs once established. -/
def pump (c : ChannelCore) : ChannelCore :=
  if c.state ≠ .established then c
  else
    let limit := max c.peerWindow.toNat 1
    let c := pumpData limit c.sendQueue.length c
    if c.closing && c.sendQueue.isEmpty && decide (c.unacked.length < limit) then
      { c.emitNext (flagFin ||| flagAck) [] with state := .finSent, closing := false }
    else c

/-- `send_queue.extend(chunks)`. -/
def enqueue (c : ChannelCore) (chunks : List Bytes) : ChannelCore :=
  { c with sendQueue := c.sendQueue ++ chunks }

/-- Fragment `msg` and queue its chunks. `none` is the panic of `fragment` on
a message of more than 65535 chunks. -/
def sendMessage (c : ChannelCore) (msg : Bytes) (fid : FragmentId) : Option ChannelCore :=
  (fragment msg Wire.maxChunkPayload fid).map fun chunks => (c.enqueue chunks).pump

/-- Begin an active close: FIN is sent after any queued data drains. -/
def close (c : ChannelCore) : ChannelCore := { c with closing := true }.pump

/-- Cumulative ACK: drop every in-flight frame with `seq < ackNum`, where
`ackNum` is clamped to `sendNext`. Progress resets the retry counter. -/
def ack (c : ChannelCore) (ackNum : Nat) : ChannelCore :=
  let ackNum := min ackNum c.sendNext
  let unacked := c.unacked.dropWhile fun u => u.seq < ackNum
  { c with
    unacked := unacked
    retries := if unacked.length ≠ c.unacked.length then 0 else c.retries }

/-- Stop guaranteeing delivery and mark the connection dead. -/
def teardown (c : ChannelCore) : ChannelCore :=
  { c with state := .closed, unacked := [], sendQueue := [], dead := true }

/-- Retransmit every in-flight frame, giving up after `maxRetries`. -/
def onTimeout (c : ChannelCore) : ChannelCore :=
  if c.unacked = [] then c
  else if c.retries ≥ maxRetries then c.teardown
  else
    c.unacked.foldl (fun c u => c.emit u.flags u.seq u.data)
      { c with retries := c.retries + 1 }

/-- What one pass of the drain loop does with the frame `fr` taken out of
the reorder buffer at `rcvNext`. A consumed FIN is answered with our own. -/
def consume (now : Nat → Nat) (c : ChannelCore) (fr : ChannelFrame) : ChannelCore :=
  let seq := c.rcvNext
  let c := { c with recvBuffer := c.recvBuffer.erase seq, rcvNext := seq + 1 }
  if fr.has flagFin then
    let c := { c with peerClosed := true }
    if c.state = .established then
      { c.emitNext (flagFin ||| flagAck) [] with state := .finSent }
    else c
  else if fr.data ≠ [] then
    let fed := c.reassembler.feed fr.data (now seq)
    { c with
      reassembler := fed.1
      delivered := c.delivered ++ fed.2.toList
      fed := c.fed ++ [fr.data]
      fedAt := c.fedAt ++ [now seq] }
  else c

/-- Drain contiguously from `rcvNext`. Each pass takes one frame out of the
buffer, so its size bounds the passes. -/
def drain (now : Nat → Nat) : Nat → ChannelCore → ChannelCore
  | 0, c => c
  | fuel + 1, c =>
    match c.recvBuffer.lookup c.rcvNext with
    | none => c
    | some fr => drain now fuel (c.consume now fr)

/-- Reorder, dedup, and deliver a data/FIN frame; re-ack duplicates. -/
def deliver (now : Nat → Nat) (c : ChannelCore) (f : ChannelFrame) : ChannelCore :=
  if !f.consumesSeq then c
  else if f.seq < c.rcvNext ∨ f.seq ∈ c.recvBuffer then c.emitPureAck
  else if f.seq ≥ c.rcvNext + c.window.toNat then c.emitPureAck
  else
    let c := { c with recvBuffer := c.recvBuffer.insert f.seq f }
    (c.drain now c.recvBuffer.entries.length).emitPureAck

/-- Process one received frame through the state machine. -/
def onFrame (now : Nat → Nat) (c : ChannelCore) (f : ChannelFrame) : ChannelCore :=
  let c := { c.ack f.ackNum with peerWindow := f.window }
  if f.has flagRst then { c with peerClosed := true }.teardown
  else
    match c.state with
    | .closed =>
      -- incoming SYN: become the responder
      if f.has flagSyn then
        { c with rcvNext := f.seq + 1, state := .established, justEstablished := true }.emitNext
          (flagSyn ||| flagAck) []
      else c
    | .synSent =>
      if f.has flagSyn && f.has flagAck then
        { c with
          rcvNext := f.seq + 1
          state := .established
          justEstablished := true }.emitPureAck.pump
      else if f.has flagSyn then
        -- simultaneous open: respond like the responder path
        { c with rcvNext := f.seq + 1, state := .established, justEstablished := true }.emitNext
          (flagSyn ||| flagAck) []
      else c
    | .established | .finSent => (c.deliver now f).pump

end ChannelCore

end Telesthete.Channel
