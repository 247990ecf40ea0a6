import Telesthete.Channel.Solo

/-!
# The additions of a core, checked

The counters of a core are `u64` in the code and natural numbers in the model.
Here every addition on them is made as the code makes it: `none` is an addition
that does not fit, which panics in a debug build and wraps around in a release
build. There are six of them, on `send_next` in the handshake, in `pump` and
for the answer to a FIN, on the sequence number of a SYN, on `rcv_next` in the
drain loop, and `rcv_next + window` in the window check.

Each method is the one of the model with these additions checked, branch by
branch.
-/

namespace Telesthete.Channel

open Telesthete.Lib Telesthete.Wire

/-- `a + b` on `u64`. -/
def checkedAdd (a b : Nat) : Option Nat := if a + b < 2 ^ 64 then some (a + b) else none

namespace ChannelCore

def emitNext? (c : ChannelCore) (flags : UInt8) (data : Bytes) : Option ChannelCore :=
  (checkedAdd c.sendNext 1).map fun next =>
    { c with sendNext := next }.emitReliable flags c.sendNext data

def connect? (c : ChannelCore) : Option ChannelCore :=
  if c.state ≠ .closed then some c
  else { c with state := .synSent }.emitNext? flagSyn []

def pumpData? (limit : Nat) : Nat → ChannelCore → Option ChannelCore
  | 0, c => some c
  | fuel + 1, c =>
    match c.sendQueue with
    | [] => some c
    | data :: rest =>
      if c.unacked.length < limit then
        ({ c with sendQueue := rest }.emitNext? flagAck data).bind (pumpData? limit fuel)
      else some c

def pump? (c : ChannelCore) : Option ChannelCore :=
  if c.state ≠ .established then some c
  else
    let limit := max c.peerWindow.toNat 1
    (pumpData? limit c.sendQueue.length c).bind fun c =>
      if c.closing && c.sendQueue.isEmpty && decide (c.unacked.length < limit) then
        (c.emitNext? (flagFin ||| flagAck) []).map fun c =>
          { c with state := .finSent, closing := false }
      else some c

def sendMessage? (c : ChannelCore) (msg : Bytes) (fid : FragmentId) : Option ChannelCore :=
  (fragment msg Wire.maxChunkPayload fid).bind fun chunks => (c.enqueue chunks).pump?

def close? (c : ChannelCore) : Option ChannelCore := { c with closing := true }.pump?

def consume? (now : Nat → Nat) (c : ChannelCore) (fr : ChannelFrame) : Option ChannelCore :=
  (checkedAdd c.rcvNext 1).bind fun next =>
    let seq := c.rcvNext
    let c := { c with recvBuffer := c.recvBuffer.erase seq, rcvNext := next }
    if fr.has flagFin then
      let c := { c with peerClosed := true }
      if c.state = .established then
        (c.emitNext? (flagFin ||| flagAck) []).map fun c => { c with state := .finSent }
      else some c
    else if fr.data ≠ [] then
      let fed := c.reassembler.feed fr.data (now seq)
      some { c with
        reassembler := fed.1
        delivered := c.delivered ++ fed.2.toList
        fed := c.fed ++ [fr.data]
        fedAt := c.fedAt ++ [now seq] }
    else some c

def drain? (now : Nat → Nat) : Nat → ChannelCore → Option ChannelCore
  | 0, c => some c
  | fuel + 1, c =>
    match c.recvBuffer.lookup c.rcvNext with
    | none => some c
    | some fr => (c.consume? now fr).bind (drain? now fuel)

def deliver? (now : Nat → Nat) (c : ChannelCore) (f : ChannelFrame) : Option ChannelCore :=
  if !f.consumesSeq then some c
  else if f.seq < c.rcvNext ∨ f.seq ∈ c.recvBuffer then some c.emitPureAck
  else
    (checkedAdd c.rcvNext c.window.toNat).bind fun bound =>
      if f.seq ≥ bound then some c.emitPureAck
      else
        let c := { c with recvBuffer := c.recvBuffer.insert f.seq f }
        (c.drain? now c.recvBuffer.entries.length).map emitPureAck

/-- The handshake transition of a responder: `rcv_next = f.seq + 1`, answered with SYN+ACK. -/
def respond? (c : ChannelCore) (f : ChannelFrame) : Option ChannelCore :=
  (checkedAdd f.seq 1).bind fun next =>
    { c with rcvNext := next, state := .established, justEstablished := true }.emitNext?
      (flagSyn ||| flagAck) []

def onFrame? (now : Nat → Nat) (c : ChannelCore) (f : ChannelFrame) : Option ChannelCore :=
  let c := { c.ack f.ackNum with peerWindow := f.window }
  if f.has flagRst then some { c with peerClosed := true }.teardown
  else
    match c.state with
    | .closed => if f.has flagSyn then c.respond? f else some c
    | .synSent =>
      if f.has flagSyn && f.has flagAck then
        (checkedAdd f.seq 1).bind fun next =>
          { c with
            rcvNext := next
            state := .established
            justEstablished := true }.emitPureAck.pump?
      else if f.has flagSyn then c.respond? f
      else some c
    | .established | .finSent => (c.deliver? now f).bind pump?

/-- `none` where an addition does not fit, and where `call` is not defined. -/
def call? (now : Nat → Nat) (c : ChannelCore) (e : Call) : Option ChannelCore :=
  if c.dead then none
  else
    match e with
    | .connect => c.connect?
    | .sendMessage msg fid => c.sendMessage? msg fid
    | .close => c.close?
    | .onTimeout => some c.onTimeout
    | .onFrame f => c.onFrame? now f

/-- An addition of the call overflows. -/
def Overflows (now : Nat → Nat) (c : ChannelCore) (e : Call) : Prop :=
  (c.call now e).isSome ∧ (c.call? now e).isNone

instance decidableOverflows (now : Nat → Nat) (c : ChannelCore) (e : Call) :
    Decidable (c.Overflows now e) :=
  inferInstanceAs (Decidable (_ ∧ _))

end ChannelCore

end Telesthete.Channel
