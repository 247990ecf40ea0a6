import Telesthete.Channel.Core
import Telesthete.Lib.Run

/-!
# One core, whatever its peer does

The connection task calls its core in any order, and the frames it passes on
come from a peer that may send anything. `ChannelCore.call` is such a call. None
follows once `dead` is set: the task has left its loop.

A `Solo` is a core with the history its own fields forget: the chunks that were
ever queued, and the frames that left `unacked` because a frame of the peer
acknowledged them. What an incoming frame covers is said here by the meaning of
`ack_num`, every sequence number below it, and not by what the loop of `ack`
does with it.
-/

namespace Telesthete.Channel

open Telesthete.Lib Telesthete.Wire

/-- A call of the owning task into its core. -/
inductive Call where
  | connect
  | sendMessage (msg : Bytes) (fid : FragmentId)
  | close
  | onTimeout
  | onFrame (f : ChannelFrame)

namespace Call

/-- The chunks a call queues. -/
def chunks : Call → List Bytes
  | .sendMessage msg fid => chunksOf (fid, msg)
  | _ => []

/-- Whether the call brings an acknowledgement of a frame in flight. -/
def covers : Call → Unacked → Bool
  | .onFrame f, u => u.seq < f.ackNum
  | _, _ => false

end Call

/-- `none` once the core is dead, and where `fragment` panics. -/
def ChannelCore.call (now : Nat → Nat) (c : ChannelCore) (e : Call) : Option ChannelCore :=
  if c.dead then none
  else
    match e with
    | .connect => some c.connect
    | .sendMessage msg fid => c.sendMessage msg fid
    | .close => some c.close
    | .onTimeout => some c.onTimeout
    | .onFrame f => some (c.onFrame now f)

/-- A series of calls, each allowed in the state it finds, and the core after it. -/
def ChannelCore.Calls (now : Nat → Nat) (ok : ChannelCore → Call → Prop) :
    ChannelCore → List Call → ChannelCore → Prop
  | c, [], d => d = c
  | c, e :: es, d => ok c e ∧ ∃ c', c.call now e = some c' ∧ Calls now ok c' es d

/-- A core and the history it does not keep. -/
structure Solo where
  core : ChannelCore
  /-- Every chunk that was ever queued. -/
  queued : List Bytes
  /-- The frames that were in flight when an acknowledgement of them arrived. -/
  acknowledged : List Unacked

namespace Solo

def init (window : UInt16) : Solo where
  core := ChannelCore.new window
  queued := []
  acknowledged := []

def exec (now : Nat → Nat) (s : Solo) (e : Call) : Option Solo :=
  (s.core.call now e).map fun c =>
    { core := c
      queued := s.queued ++ e.chunks
      acknowledged := s.acknowledged ++ s.core.unacked.filter e.covers }

/-- The states any calls can lead to. -/
def Reachable (now : Nat → Nat) (window : UInt16) (s : Solo) : Prop :=
  GuardedRun (exec now) (fun _ _ => True) (init window) s

end Solo

end Telesthete.Channel
