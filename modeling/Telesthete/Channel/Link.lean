import Telesthete.Channel.Core
import Telesthete.Lib.Run

/-!
# Two cores and a network: one Channel connection

A `Link` is one connection: a core on each side, and a network that may
lose, duplicate, delay and reorder. Such a network is a set of frames, the
ones a side ever emitted, any of which may be delivered to the other side at
any time and any number of times; losing a frame is never delivering it.
`emitted` is that set, as a list whose order and repetitions mean nothing.

The `outbox` of each core keeps the frames that were emitted and have not
left yet. The owning task drains it after each event; here a frame leaves by
`flush`, one at a time and in any order, and the network already knows it.

A core that set `dead` takes no further event: its task has left its loop.

`sent` is a history variable, the messages passed to `sendMessage` with the
fragment ids drawn for them; `queued` is the chunks those calls queued. The
clock readings of the two sides are a parameter of the whole run.
-/

namespace Telesthete.Channel

open Telesthete.Lib Telesthete.Wire

/-- The two ends of a connection. -/
inductive Side where
  | a
  | b
deriving DecidableEq, Repr

/-- The opposite end. -/
def Side.other : Side → Side
  | .a => .b
  | .b => .a

@[simp] theorem Side.other_other (x : Side) : x.other.other = x := by cases x <;> rfl

@[simp] theorem Side.other_ne (x : Side) : x.other ≠ x := by cases x <;> decide

@[simp] theorem Side.ne_other (x : Side) : x ≠ x.other := by cases x <;> decide

theorem Side.eq_or_eq_other (x y : Side) : y = x ∨ y = x.other := by
  cases x <;> cases y <;> decide

instance Side.decidableForall {P : Side → Prop} [DecidablePred P] : Decidable (∀ x, P x) :=
  decidable_of_iff (P .a ∧ P .b)
    ⟨fun h x => by cases x; exacts [h.1, h.2], fun h => ⟨h .a, h .b⟩⟩

structure Link where
  core : Side → ChannelCore
  /-- Every frame a side ever emitted. -/
  emitted : Side → List Bytes
  /-- History: the messages a side passed to `sendMessage`. -/
  sent : Side → List (FragmentId × Bytes)

inductive Event where
  | connect (x : Side)
  | sendMessage (x : Side) (msg : Bytes) (fid : FragmentId)
  | close (x : Side)
  | onTimeout (x : Side)
  /-- The network hands `x` a copy of a frame the other side emitted. -/
  | deliver (x : Side) (frame : Bytes)
  /-- The `i`-th frame of the outbox of `x` leaves. -/
  | flush (x : Side) (i : Nat)

namespace Link

/-- Every chunk the `sendMessage` calls of `x` have queued. -/
def queued (L : Link) (x : Side) : List Bytes := (L.sent x).flatMap chunksOf

def init (window : Side → UInt16) : Link where
  core x := ChannelCore.new (window x)
  emitted _ := []
  sent _ := []

/-- Install the new state of `x` after an event; what it emitted joins the
network. -/
def act (L : Link) (x : Side) (c : ChannelCore) : Link :=
  { L with
    core := Function.update L.core x c
    emitted := Function.update L.emitted x (L.emitted x ++ c.outbox) }

/-- Note a message passed to `sendMessage`. -/
def record (L : Link) (x : Side) (m : FragmentId × Bytes) : Link :=
  { L with sent := Function.update L.sent x (L.sent x ++ [m]) }

/-- The `i`-th frame of the outbox of `x` leaves. -/
def flush (L : Link) (x : Side) (i : Nat) : Link :=
  { L with
    core := Function.update L.core x
      { L.core x with outbox := (L.core x).outbox.eraseIdx i } }

/-- One event of a run; `none` where it cannot happen. -/
def exec (now : Side → Nat → Nat) (L : Link) : Event → Option Link
  | .connect x => if (L.core x).dead then none else some (L.act x (L.core x).connect)
  | .sendMessage x msg fid =>
    if (L.core x).dead then none
    else
      ((L.core x).sendMessage msg fid).map fun c => (L.act x c).record x (fid, msg)
  | .close x => if (L.core x).dead then none else some (L.act x (L.core x).close)
  | .onTimeout x => if (L.core x).dead then none else some (L.act x (L.core x).onTimeout)
  | .deliver x frame =>
    if (L.core x).dead ∨ frame ∉ L.emitted x.other then none
    else (ChannelFrame.parse frame).map fun f => L.act x ((L.core x).onFrame (now x) f)
  | .flush x i => some (L.flush x i)

/-- The states a connection with the given windows and clocks can be in. -/
def Reachable (now : Side → Nat → Nat) (window : Side → UInt16) (L : Link) : Prop :=
  GuardedRun (exec now) (fun _ _ => True) (init window) L

/-- The network hands `x` the `i`-th frame in the other side's outbox. -/
def pass (x : Side) (i : Nat) (L : Link) : Event :=
  .deliver x ((L.core x.other).outbox.getD i [])

theorem reachable_of_guarded {now : Side → Nat → Nat} {window : Side → UInt16} {L : Link}
    {ok : Link → Event → Prop} (h : GuardedRun (exec now) ok (init window) L) :
    Reachable now window L :=
  h.mono fun _ _ _ => trivial

theorem reachable_play {now : Side → Nat → Nat} {window : Side → UInt16} {L : Link}
    {script : List (Link → Event)}
    (h : play (exec now) (fun _ _ => true) (init window) script = some L) :
    Reachable now window L :=
  guardedRun_play (fun _ _ _ => trivial) h

end Link

end Telesthete.Channel
