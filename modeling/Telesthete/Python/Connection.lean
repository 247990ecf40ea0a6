import Telesthete.Channel.Link
import Telesthete.Python.Channel

/-!
# One connection between two implementations

Each end is a Python `Channel` or a Rust `ChannelCore`; the network between
them loses, duplicates, delays and reorders, as in `Channel.Link`. A frame
leaves an end in the event that produced it. Replay protection and
encryption, which the frames pass on the way, can only lose more of them.

`queued` is a history variable: the chunks an end's `send_message` queued.
-/

namespace Telesthete.Python

open Telesthete.Lib Telesthete.Wire Telesthete.Channel

inductive End where
  | python (c : Channel)
  | rust (c : ChannelCore)

namespace End

def sndNext : End → Nat
  | .python c => c.sndNext
  | .rust c => c.sendNext

def rcvNext : End → Nat
  | .python c => c.rcvNext
  | .rust c => c.rcvNext

/-- The payloads handed to the reassembler. -/
def fed : End → List Bytes
  | .python c => c.fed
  | .rust c => c.fed

def outbox : End → List Bytes
  | .python c => c.outbox
  | .rust c => c.outbox

/-- What was transmitted is on the network. -/
def sent : End → End
  | .python c => .python { c with outbox := [] }
  | .rust c => .rust { c with outbox := [] }

/-- A call on a core whose task has ended does not happen. -/
def live (c : ChannelCore) (r : ChannelCore) : Option End := if c.dead then none else some (.rust r)

def connect (now : Nat) : End → Option End
  | .python c => (c.connect now).map .python
  | .rust c => live c c.connect

def sendMessage (now : Nat) (msg : Bytes) (fid : FragmentId) : End → Option End
  | .python c => (c.sendMessage now msg fid).map .python
  | .rust c => (c.sendMessage msg fid).bind (live c)

def close (now : Nat) : End → Option End
  | .python c => some (.python (c.close now))
  | .rust c => live c c.close

/-- A Python `close` returns. -/
def closeReturn : End → Option End
  | .python c => if c.closing then some (.python c.closeReturn) else none
  | .rust _ => none

def retransmit (now : Nat) : End → Option End
  | .python c => (c.retransmit now).map .python
  | .rust c => live c c.onTimeout

def handleFrame (now : Nat) (f : ChannelFrame) : End → Option End
  | .python c => some (.python (c.handleFrame now f))
  | .rust c => live c (c.onFrame (fun _ => now) f)

end End

structure Connection where
  ends : Side → End
  /-- Every frame an end ever transmitted. -/
  emitted : Side → List Bytes
  queued : Side → List Bytes

namespace Connection

inductive Event where
  | connect (x : Side) (now : Nat)
  | sendMessage (x : Side) (msg : Bytes) (fid : FragmentId) (now : Nat)
  | close (x : Side) (now : Nat)
  | closeReturn (x : Side)
  | retransmit (x : Side) (now : Nat)
  /-- The network hands `x` a copy of a frame the other end transmitted. -/
  | deliver (x : Side) (frame : Bytes) (now : Nat)

def init (ends : Side → End) : Connection := ⟨ends, fun _ => [], fun _ => []⟩

/-- A fresh end of either kind; the window of a Rust end is configured. -/
inductive Fresh : End → Prop
  | python : Fresh (.python .new)
  | rust (window : UInt16) : Fresh (.rust (.new window))

/-- The new state of `x`, and what it transmitted. -/
def act (L : Connection) (x : Side) (e : End) : Connection :=
  { L with
    ends := Function.update L.ends x e.sent
    emitted := Function.update L.emitted x (L.emitted x ++ e.outbox) }

/-- Note the chunks of a message. -/
def record (L : Connection) (x : Side) (chunks : List Bytes) : Connection :=
  { L with queued := Function.update L.queued x (L.queued x ++ chunks) }

def exec (L : Connection) : Event → Option Connection
  | .connect x now => ((L.ends x).connect now).map (L.act x)
  | .sendMessage x msg fid now =>
    ((L.ends x).sendMessage now msg fid).map fun e => (L.act x e).record x (chunksOf (fid, msg))
  | .close x now => ((L.ends x).close now).map (L.act x)
  | .closeReturn x => (L.ends x).closeReturn.map (L.act x)
  | .retransmit x now => ((L.ends x).retransmit now).map (L.act x)
  | .deliver x frame now =>
    if (L.emitted x.other).contains frame then
      (ChannelFrame.parse frame).bind fun f => ((L.ends x).handleFrame now f).map (L.act x)
    else none

/-- `open` is called on an end that has not spoken yet. -/
def OpensOnce (L : Connection) : Event → Prop
  | .connect x _ => (L.ends x).sndNext = 0
  | _ => True

end Connection

end Telesthete.Python
