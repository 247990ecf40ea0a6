import Telesthete.Channel.Solo

/-!
# The connection task

`run_connection` owns a core. Each pass of its loop waits for one of three
things, a command of the endpoint, a frame from the hub or the retransmit timer,
lets the core handle it, and then settles: it sends what is in the outbox, hands
the reassembled messages on, answers a waiting connect, drops the sender once
the peer has closed, leaves if the core is dead, and otherwise sets the timer.

A pass is `turn`. A loop that has been left takes no further turn. The clock
reading of the pass is an argument, as is whether the endpoint still takes
messages. What the loop gives to the outside is kept as history: the frames
passed to the transport, whose own failures only reach the log, and the messages
handed to the endpoint.
-/

namespace Telesthete.Channel

open Telesthete.Lib Telesthete.Wire

/-- Commands of an endpoint to its connection task. -/
inductive Command where
  | connect
  | send (data : Bytes) (fid : FragmentId)
  | close

/-- What ends the wait of a pass. -/
inductive Wake where
  | command (cmd : Command)
  /-- The endpoint was dropped. -/
  | endpointDropped
  | frame (f : ChannelFrame)
  /-- The hub is gone. -/
  | hubGone
  | timer

structure Task where
  core : ChannelCore
  /-- The endpoint can still be given messages. -/
  delivering : Bool
  /-- A connect waits for its answer. -/
  pendingConnect : Bool
  /-- The retransmit timer, armed while frames are in flight. -/
  deadline : Option Nat
  /-- The loop has not been left. -/
  running : Bool
  /-- History: every frame passed to the transport. -/
  sent : List Bytes
  /-- History: every message handed to the endpoint. -/
  handed : List Bytes
  /-- History: how many connects were answered. -/
  answered : Nat

namespace Task

def start (window : UInt16) : Task where
  core := ChannelCore.new window
  delivering := true
  pendingConnect := false
  deadline := none
  running := true
  sent := []
  handed := []
  answered := 0

/-- One command. `none` is the panic of `fragment`. -/
def command (t : Task) : Command → Option Task
  | .connect =>
    if t.core.state = .established then some { t with answered := t.answered + 1 }
    else some { t with pendingConnect := true, core := t.core.connect }
  | .send data fid => (t.core.sendMessage data fid).map fun c => { t with core := c }
  | .close => some { t with core := t.core.close }

/-- `for bytes in core.outbox.drain(..)`. -/
def flush (t : Task) : Task :=
  { t with sent := t.sent ++ t.core.outbox, core := { t.core with outbox := [] } }

/-- The messages go to the endpoint while it takes them; a failed hand-over is the last. -/
def handOver (t : Task) (accepts : Bool) : Task :=
  { t with
    handed := if t.delivering && accepts then t.handed ++ t.core.delivered else t.handed
    delivering := t.delivering && (accepts || t.core.delivered.isEmpty)
    core := { t.core with delivered := [] } }

def answer (t : Task) : Task :=
  if t.core.justEstablished then
    { t with
      core := { t.core with justEstablished := false }
      answered := if t.pendingConnect then t.answered + 1 else t.answered
      pendingConnect := false }
  else t

/-- Dropping the sender is how the endpoint learns that the peer has closed. -/
def hangUp (t : Task) : Task := if t.core.peerClosed then { t with delivering := false } else t

/-- The end of a pass: a dead core ends the loop, and otherwise the timer is set, keeping that of
the oldest frame in flight. -/
def rearm (t : Task) (clock rto : Nat) : Task :=
  if t.core.dead then { t with running := false }
  else
    { t with
      deadline := if t.core.unacked = [] then none else some (t.deadline.getD (clock + rto)) }

/-- Everything after the wait. -/
def settle (t : Task) (clock rto : Nat) (accepts : Bool) : Task :=
  (t.flush.handOver accepts).answer.hangUp.rearm clock rto

/-- What the core has done when the wait is over. The timer arm is enabled while a deadline is
set, and fires when it has passed. The two arms that leave the loop are not here. -/
def handle (now : Nat → Nat) (clock : Nat) (t : Task) : Wake → Option Task
  | .command cmd => t.command cmd
  | .frame f => some { t with core := t.core.onFrame now f }
  | .timer =>
    if t.deadline.any (· ≤ clock) then some { t with core := t.core.onTimeout, deadline := none }
    else none
  | .endpointDropped | .hubGone => none

/-- One pass of the loop. -/
def turn (now : Nat → Nat) (rto clock : Nat) (accepts : Bool) (t : Task) (w : Wake) : Option Task :=
  if !t.running then none
  else
    match w with
    | .endpointDropped | .hubGone => some { t with running := false }
    | w => (t.handle now clock w).map fun t => t.settle clock rto accepts

/-- The clock reading of a pass, whether the endpoint takes messages, and what woke it. -/
structure Pass where
  clock : Nat
  accepts : Bool
  wake : Wake

def Reachable (now : Nat → Nat) (rto : Nat) (window : UInt16) (t : Task) : Prop :=
  GuardedRun (fun t (p : Pass) => turn now rto p.clock p.accepts t p.wake) (fun _ _ => True)
    (start window) t

end Task

end Telesthete.Channel
