import Telesthete.Drop.Core

/-!
# What drives a receiver

A receiver core takes frames and ticks, one after the other. The task of a
`DropReceiver` feeds it: a packet is dropped when its outer sequence is not above
the last one of that peer, a restarted peer's mark is forgotten, and after each
frame and each tick the answers are sent and a completion is reported.
-/

namespace Telesthete.Drop

open Telesthete.Lib
open Telesthete.Band (SocketAddr)

inductive Input where
  | frame (source : SocketAddr) (frame : Frame) (now : Nat)
  | tick (now : Nat)

namespace DropReceiverCore

/-- One input to the core. None is a panic. -/
def answer (sha256Hex : Bytes → String) (r : DropReceiverCore) :
    Input → Option (DropReceiverCore × List Frame)
  | .frame source frame now => r.handleFrame sha256Hex source frame now
  | .tick now => some (r.tick now)

def step (sha256Hex : Bytes → String) (r : DropReceiverCore) (input : Input) :
    Option DropReceiverCore :=
  (r.answer sha256Hex input).map Prod.fst

/-- Whether an OFFER is for another file than the one before. -/
def namesOther (r : DropReceiverCore) (offer : OfferPayload) : Bool :=
  r.offer.any fun prev => offer.sha256 != prev.sha256 || offer.size != prev.size

end DropReceiverCore

structure ReceiverTask where
  core : DropReceiverCore
  watermark : AList fun _ : SocketAddr => Nat
  /-- History: the frames sent since the last OFFER for another file. -/
  sent : List (SocketAddr × Frame)
  /-- History: the completions reported to the application since then. -/
  reported : List (Bytes × Bool)

inductive TaskEvent where
  | packet (source : SocketAddr) (sequence : Nat) (frame : Frame) (now : Nat)
  | tick (now : Nat)
  /-- The peer restarted. -/
  | rebase (addr : SocketAddr)

namespace ReceiverTask

def init (held : AList fun _ : Nat => Bytes) : ReceiverTask := ⟨.new held, ∅, [], []⟩

/-- A sequence that is not above the last one of the peer. -/
def replayStale (t : ReceiverTask) (source : SocketAddr) (sequence : Nat) : Bool :=
  (t.watermark.lookup source).any fun mark => sequence ≤ mark

/-- The end of a pass of the loop: send the answers, report a completion. -/
def flush (t : ReceiverTask) (out : DropReceiverCore × List Frame) : ReceiverTask :=
  let taken := out.1.takeCompletion
  { t with
    core := taken.1
    sent := t.sent ++ (out.1.senderAddr.elim [] fun dest => out.2.map fun frame => (dest, frame))
    reported := t.reported ++ taken.2.toList }

/-- An OFFER for another file starts the history over. -/
def startOver (t : ReceiverTask) : Frame → ReceiverTask
  | .offer offer => if t.core.namesOther offer then { t with sent := [], reported := [] } else t
  | _ => t

def exec (sha256Hex : Bytes → String) (t : ReceiverTask) : TaskEvent → Option ReceiverTask
  | .packet source sequence frame now =>
    if t.replayStale source sequence then some t
    else
      let t := { t with watermark := t.watermark.insert source sequence }
      (t.core.handleFrame sha256Hex source frame now).map (t.startOver frame).flush
  | .tick now => some (t.flush (t.core.tick now))
  | .rebase addr => some { t with watermark := t.watermark.erase addr }

end ReceiverTask

end Telesthete.Drop
