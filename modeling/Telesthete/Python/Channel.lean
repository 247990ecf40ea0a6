import Telesthete.Channel.Core

/-!
# The reliable Channel of the Python implementation (SPEC §6)

The same protocol as `ChannelCore`, written independently. It differs in what
it does with frames that arrive outside the states they belong to: a frame is
put in order and processed in every state, so that a SYN whose turn it is
establishes a channel that was torn down before, and a FIN is answered and
tears the channel down at once.

A call of the code runs to its end without giving way to another, apart from
`close`, which waits for the `_closed` event for five seconds at most: what
it does after the wait is `closeReturn`. Frames go out through an encrypting
transport; here `outbox` collects the ones that were transmitted, as
serialized plaintexts. The clock enters as the argument `now`, a reading in
nanoseconds, the random fragment id as an argument of `sendMessage`. An
exception is `none`.

The reassembler that chunks are handed to is left out; `fed` is a history
variable, what it was handed.
-/

namespace Telesthete.Python

open Telesthete.Lib Telesthete.Wire Telesthete.Channel

/-- §6.4 sliding window (frames). -/
def windowSize : Nat := 32

/-- §6.4 retransmission timeout: half a second. -/
def rto : Nat := 5 * 10 ^ 8

/-- Whether a flag bit is set. -/
def hasFlag (flags flag : UInt8) : Bool := flags &&& flag ≠ 0

/-- A sent, unacknowledged frame. -/
structure Pending where
  flags : UInt8
  seq : Nat
  data : Bytes
  sentAt : Nat
  retries : Nat
deriving DecidableEq, Repr

/-- What waits for the window: chunks, and the FIN ordered behind them. -/
inductive Queued where
  | chunk (data : Bytes)
  | fin
deriving DecidableEq, Repr

structure Channel where
  state : ConnState
  /-- The `_closed` event: the channel has been torn down. -/
  closed : Bool
  /-- `close` was called. -/
  closing : Bool
  /-- Next inner seq we will consume. -/
  sndNext : Nat
  /-- Next inner seq expected. -/
  rcvNext : Nat
  remoteWindow : UInt16
  /-- Unacked frames by inner seq; they are inserted in ascending order. -/
  sendBuffer : List Pending
  sendQueue : List Queued
  /-- Out-of-order frames: flags and data by inner seq. -/
  recvBuffer : AList fun _ : Nat => UInt8 × Bytes
  /-- The retransmit task is running. -/
  retransmitting : Bool
  outbox : List Bytes
  /-- History: every payload handed to the reassembler so far. -/
  fed : List Bytes

namespace Channel

def new : Channel where
  state := .closed
  closed := false
  closing := false
  sndNext := 0
  rcvNext := 0
  remoteWindow := 32
  sendBuffer := []
  sendQueue := []
  recvBuffer := ∅
  retransmitting := false
  outbox := []
  fed := []

/-! ## Sending -/

/-- Our window, bounded by the peer's advertised one. -/
def effectiveWindow (c : Channel) : Nat := min windowSize c.remoteWindow.toNat

/-- The window we advertise: slots left for frames out of order. -/
def recvWindow (c : Channel) : UInt16 := UInt16.ofNat (windowSize - c.recvBuffer.entries.length)

/-- Send one frame, with the current acknowledgement and window. -/
def transmit (c : Channel) (flags : UInt8) (seq : Nat) (data : Bytes) : Channel :=
  { c with
    outbox := c.outbox ++
      [{ flags, ackNum := c.rcvNext, window := c.recvWindow, seq, data : ChannelFrame }.serialize] }

/-- Consume the next inner seq, keep the frame for retransmission, transmit. -/
def transmitConsuming (now : Nat) (c : Channel) (flags : UInt8) (data : Bytes) : Channel :=
  let kept : Pending := ⟨flags, c.sndNext, data, now, 0⟩
  { c with
    sndNext := c.sndNext + 1
    sendBuffer := c.sendBuffer ++ [kept]
    retransmitting := true }.transmit flags c.sndNext data

/-- A pure ACK carries the next seq without consuming it. -/
def sendAck (c : Channel) : Channel := c.transmit flagAck c.sndNext []

/-- The loop of `_pump`. Each pass takes an item off the queue, so the queue's
length bounds the passes. -/
def pumpLoop (now : Nat) : Nat → Channel → Channel
  | 0, c => c
  | fuel + 1, c =>
    match c.sendQueue with
    | [] => c
    | item :: rest =>
      if c.sendBuffer.length < c.effectiveWindow then
        match item with
        | .fin =>
          pumpLoop now fuel
            { ({ c with sendQueue := rest }.transmitConsuming now (flagFin ||| flagAck) [])
              with state := .finSent }
        | .chunk data =>
          pumpLoop now fuel ({ c with sendQueue := rest }.transmitConsuming now flagAck data)
      else c

/-- Transmit what is queued while the window has room, once the handshake is done. -/
def pump (now : Nat) (c : Channel) : Channel :=
  if c.state ≠ .established ∧ c.state ≠ .finSent then c else pumpLoop now c.sendQueue.length c

/-! ## The calls of the application -/

/-- `open`: send SYN. -/
def connect (now : Nat) (c : Channel) : Option Channel :=
  if c.state ≠ .closed then none
  else some ({ c with state := .synSent }.transmitConsuming now flagSyn [])

/-- Queue the chunks of a message. -/
def sendMessage (now : Nat) (c : Channel) (msg : Bytes) (fid : FragmentId) : Option Channel :=
  if c.closing ∨ (c.state ≠ .synSent ∧ c.state ≠ .established) then none
  else
    (fragment msg Wire.maxChunkPayload fid).map fun chunks =>
      { c with sendQueue := c.sendQueue ++ chunks.map Queued.chunk }.pump now

/-- `close` up to its wait: a FIN behind what is queued. -/
def close (now : Nat) (c : Channel) : Channel :=
  if c.state = .closed ∨ c.closing then c
  else { c with closing := true, sendQueue := c.sendQueue ++ [Queued.fin] }.pump now

/-- The rest of `close`, after the `_closed` event or the timeout. -/
def closeReturn (c : Channel) : Channel := { c with retransmitting := false, state := .closed }

/-! ## Receiving -/

/-- Stop guaranteeing delivery. -/
def teardown (c : Channel) : Channel :=
  { c with state := .closed, sendBuffer := [], sendQueue := [], closed := true }

/-- Cumulative acknowledgement of every frame below `ackNum`, which is bounded by what was sent. -/
def handleAck (now : Nat) (c : Channel) (ackNum : Nat) : Channel :=
  let ackNum := min ackNum c.sndNext
  let sendBuffer := c.sendBuffer.filter fun p => ackNum ≤ p.seq
  if sendBuffer.length < c.sendBuffer.length then { c with sendBuffer := sendBuffer }.pump now
  else c

/-- Apply one frame whose turn it is; whether the answer already acknowledges it. -/
def processFrame (now : Nat) (c : Channel) (flags : UInt8) (data : Bytes) : Channel × Bool :=
  if hasFlag flags flagSyn then
    match c.state with
    | .closed =>
      -- responder: reply SYN+ACK
      (({ c with state := .established }.transmitConsuming now (flagSyn ||| flagAck) []).pump now,
        true)
    | .synSent => ({ c with state := .established }.pump now, false)
    | .established | .finSent => (c, false)
  else if hasFlag flags flagFin then
    if c.state = .finSent then (c.teardown, false)
    else ((c.transmitConsuming now (flagFin ||| flagAck) []).teardown, true)
  else if data ≠ [] then ({ c with fed := c.fed ++ [data] }, false)
  else (c, false)

/-- Process the buffered frames whose turn it is now. Each pass takes one out
of the buffer, so its size bounds the passes. -/
def drain (now : Nat) : Nat → Channel → Bool → Channel × Bool
  | 0, c, acked => (c, acked)
  | fuel + 1, c, acked =>
    match c.recvBuffer.lookup c.rcvNext with
    | none => (c, acked)
    | some (flags, data) =>
      let r := { c with
        recvBuffer := c.recvBuffer.erase c.rcvNext
        rcvNext := c.rcvNext + 1 }.processFrame now flags data
      drain now fuel r.1 (r.2 || acked)

/-- The frame whose turn it is, and those it lets through. -/
def accept (now : Nat) (c : Channel) (f : ChannelFrame) : Channel :=
  let r := { c with rcvNext := c.rcvNext + 1 }.processFrame now f.flags f.data
  let r := r.1.drain now r.1.recvBuffer.entries.length r.2
  if r.2 then r.1 else r.1.sendAck

/-- A frame before its turn is kept if it is in the window we advertise. -/
def keepEarly (c : Channel) (f : ChannelFrame) : Channel :=
  if f.seq < c.rcvNext + windowSize ∧ f.seq ∉ c.recvBuffer then
    { c with recvBuffer := c.recvBuffer.insert f.seq (f.flags, f.data) }
  else c

def handleFrame (now : Nat) (c : Channel) (f : ChannelFrame) : Channel :=
  let c := { c with remoteWindow := f.window }
  if f.has flagRst then c.teardown
  else
    let c := if f.has flagAck then c.handleAck now f.ackNum else c
    if !f.consumesSeq then c
    else if f.seq < c.rcvNext then c.sendAck
    else if c.rcvNext < f.seq then (c.keepEarly f).sendAck
    else c.accept now f

/-! ## Retransmission -/

/-- Note a retransmission. -/
def mark (c : Channel) (seq now : Nat) : Channel :=
  { c with
    sendBuffer := c.sendBuffer.map fun p =>
      if p.seq = seq then { p with retries := p.retries + 1, sentAt := now } else p }

/-- The loop over the unacked frames: those that are due are sent again, and
one that was sent too often ends the channel. -/
def resend (now : Nat) : List Pending → Channel → Channel
  | [], c => c
  | p :: rest, c =>
    if rto ≤ now - p.sentAt then
      if maxRetries ≤ p.retries then { c.teardown with retransmitting := false }
      else resend now rest ((c.mark p.seq now).transmit p.flags p.seq p.data)
    else resend now rest c

/-- One turn of the retransmit task; `none` if it is not running. -/
def retransmit (now : Nat) (c : Channel) : Option Channel :=
  if !c.retransmitting then none
  else if c.state = .closed ∧ c.sendBuffer = [] then some { c with retransmitting := false }
  else some (resend now c.sendBuffer c)

end Channel

end Telesthete.Python
