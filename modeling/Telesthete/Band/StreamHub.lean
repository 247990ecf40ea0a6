import Telesthete.Band.Runtime

/-!
# Stream endpoints (§5)

`StreamHub::open` hands the application an endpoint for one stream of one
peer. The hub's task is the Stream task of `Band.Hub`, which keeps the sender
of an endpoint under the stream id alone; here the endpoints themselves are
kept too, with the peer each was opened for. Endpoints are numbered in the
order in which they were opened, as the task numbers its outlets.
-/

namespace Telesthete.Band

open Telesthete.Lib Telesthete.Wire

/-- Open a numbered endpoint behind the task; an earlier one under the same key is replaced. -/
def Subscriber.openOutlet (s : Subscriber) (key : Option SocketAddr × UInt16) : Subscriber :=
  { s with outlets := s.outlets.insert key s.opened, opened := s.opened + 1 }

/-- One handle per `stream_id` per peer. -/
structure StreamEndpoint where
  peer : SocketAddr
  streamId : UInt16
deriving DecidableEq, Repr

structure StreamHub where
  task : Subscriber
  /-- The endpoints handed out, the oldest first. -/
  endpoints : List StreamEndpoint

/-- `StreamHub::new`, when `next` values have been broadcast. -/
def StreamHub.new (next : Nat) : StreamHub where
  task := .new .streamHub next
  endpoints := []

def StreamHub.open (hub : StreamHub) (peer : SocketAddr) (streamId : UInt16) : StreamHub where
  task := hub.task.openOutlet (none, streamId)
  endpoints := hub.endpoints ++ [⟨peer, streamId⟩]

namespace StreamHub

inductive Event where
  | opens (peer : SocketAddr) (streamId : UInt16)
  /-- The task handles a packet. -/
  | inbound (pkt : Inbound)
  /-- The task takes its next signal from the rebase channel. -/
  | rebase (sent : List SocketAddr)

def exec (hub : StreamHub) : Event → Option StreamHub
  | .opens peer streamId => some (hub.open peer streamId)
  | .inbound pkt => some { hub with task := hub.task.handle pkt }
  | .rebase sent => (hub.task.onRebase sent).map fun task => { hub with task := task }

/-- Any opens, packets and signals, in any order. -/
def Reachable (hub : StreamHub) : Prop :=
  ∃ next, GuardedRun exec (fun _ _ => True) (.new next) hub

/-- Whether a packet passes the replay check. -/
def accepts (hub : StreamHub) (pkt : Inbound) : Bool :=
  (hub.task.kind.raise hub.task.marks pkt).isSome

/-- The endpoints a packet is handed to. -/
def handedTo (hub : StreamHub) (pkt : Inbound) : List Nat :=
  ((hub.task.handle pkt).handed.drop hub.task.handed.length).map (·.1)

/-- The number of the last endpoint opened that passes. -/
def lastOpened (endpoints : List StreamEndpoint) (keep : StreamEndpoint → Bool) : Option Nat :=
  (endpoints.zipIdx.reverse.find? fun e => keep e.1).map (·.2)

/-- The last endpoint opened for `stream_id`, whoever its peer. -/
def lastOn (hub : StreamHub) (streamId : UInt16) : Option StreamEndpoint :=
  hub.endpoints.reverse.find? (·.streamId = streamId)

end StreamHub

end Telesthete.Band
