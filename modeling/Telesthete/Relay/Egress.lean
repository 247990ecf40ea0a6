import Telesthete.Lib.Assoc
import Telesthete.Relay.Frame

/-!
# The carriers of a WebTransport connection

One task per connection takes the frames relayed to it and places each on its
carrier: a Stream frame is a datagram, the frames of one channel id share a
stream of their own, and everything else goes on the one control stream. The
streams of channels are bounded: a queue lists their ids in the order of opening,
and when the table is full the ids at its front lose their streams.

Whether a stream opens and whether a write to it succeeds is not for the task to
say, so every frame comes with both answers. A stream is the number of its
opening, which is all that tells one from another here; what is dropped to make
room is kept as history, with the table it was dropped from.
-/

namespace Telesthete.Relay

open Telesthete.Lib Telesthete.Wire

def maxEgressChannels : Nat := 64

/-- A frame to place, and what the connection answers while it is placed. -/
structure Carriage where
  frame : Bytes
  opens : Bool
  writes : Bool

/-- `write_framed`. A frame too long for its length prefix is dropped and the stream kept. -/
def Carriage.writeFramed (c : Carriage) : Bool := 65535 < c.frame.length || c.writes

abbrev StreamTable : Type := AList fun _ : UInt16 => Nat

/-- The locals of `egress_writer`. -/
structure EgressWriter where
  channels : StreamTable
  order : List UInt16
  control : Option Nat
  /-- How many streams were opened. -/
  opened : Nat
  /-- The ids whose streams were dropped to make room. Nothing reads it. -/
  evictions : List (StreamTable × UInt16)

namespace EgressWriter

def new : EgressWriter where
  channels := ∅
  order := []
  control := none
  opened := 0
  evictions := []

/-- `channels.remove(&old)`. An id whose stream is gone already evicts nothing. -/
def remove (s : EgressWriter) (old : UInt16) : EgressWriter :=
  { s with
    channels := s.channels.erase old
    evictions := if old ∈ s.channels then s.evictions ++ [(s.channels, old)] else s.evictions }

/-- Pop ids until the table is below its bound or the queue is empty. -/
def evict (s : EgressWriter) : List UInt16 → EgressWriter
  | [] => { s with order := [] }
  | old :: order =>
    if maxEgressChannels ≤ s.channels.entries.length then evict (s.remove old) order
    else { s with order := old :: order }

/-- The stream of a channel, opened when there is none. -/
def openChannel (s : EgressWriter) (cid : UInt16) (opens : Bool) : EgressWriter :=
  if cid ∈ s.channels then s
  else
    let s := s.evict s.order
    if opens then
      { s with
        channels := s.channels.insert cid s.opened
        order := s.order ++ [cid]
        opened := s.opened + 1 }
    else s

def placeChannel (s : EgressWriter) (cid : UInt16) (c : Carriage) : EgressWriter :=
  let s := s.openChannel cid c.opens
  if cid ∈ s.channels ∧ c.writeFramed = false then
    { s with channels := s.channels.erase cid }
  else s

def placeControl (s : EgressWriter) (c : Carriage) : EgressWriter :=
  let s :=
    if s.control.isNone && c.opens then
      { s with control := some s.opened, opened := s.opened + 1 }
    else s
  if s.control.isSome && !c.writeFramed then { s with control := none } else s

/-- One frame. The datagram of a Stream frame leaves no trace, sent or not. -/
def place (s : EgressWriter) (c : Carriage) : EgressWriter :=
  match routeInfo c.frame with
  | none => s
  | some info =>
    match info.channelType with
    | some .stream => s
    | some .channel => s.placeChannel info.channelId c
    | _ => s.placeControl c

def run (frames : List Carriage) : EgressWriter := frames.foldl place new

end EgressWriter

end Telesthete.Relay
