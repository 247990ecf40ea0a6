import Telesthete.Relay.Registry
import Mathlib.Logic.Function.Basic

/-!
# A hub and its transports

The tasks of a hub share the registry and a few queues and are otherwise
independent. What a task holds between two accesses to them is part of the state
here, so that the tasks interleave as they may: a frame that a transport has
taken in and not yet forwarded, a fan-out that has collected its sinks and not
yet served them all, and a frame that is being offered to one link after the
other. A full queue drops what is sent to it; which sends find their queue full
is left open, and so is which packets a transport loses.

Every copy of a frame carries the number of the packet it came in and the number
of links it crossed. The hub reads neither; they are there to say where a
delivered frame comes from. The clock is an argument, as it is of the registry.
-/

namespace Telesthete.Relay

open Telesthete.Lib Telesthete.Wire
open Telesthete.Band (SocketAddr)

/-- The packet that a copy came in, counted over all hubs, and the links it crossed. -/
structure Mark where
  tag : Nat
  hops : Nat
deriving DecidableEq, Repr

/-- A copy of a frame. The mark is history. -/
structure Copy where
  bytes : Bytes
  mark : Mark
deriving DecidableEq

/-- The sink made for a peer of a band. The serial number tells the sinks apart that were made for
one address at different times. -/
structure Sink where
  band : BandId
  key : PeerKey
  serial : Nat
deriving DecidableEq

/-- The transports that have connections. -/
inductive Transport where
  | webSocket
  | webTransport
  | unix
deriving DecidableEq, Repr

/-- A connection, and what it is registered as. -/
structure Conn where
  transport : Transport
  registered : Option (BandId × UInt64)
  isOpen : Bool
deriving DecidableEq

/-- A fan-out in progress: the sinks it has still to serve, and what it will then offer to the
links. -/
structure Dispatch where
  sends : List (Sink × Copy)
  federated : List (BandId × Copy)
deriving DecidableEq

/-- A frame on its way to the links that were up when its turn came. -/
structure Fanning where
  band : BandId
  copy : Copy
  links : List Nat
deriving DecidableEq

/-- The state of a hub. `relayed` and `delivered` are history: the packets that were fanned out to
the local peers, and what was written to a peer's transport. -/
structure Hub where
  registry : Registry Sink
  nextConn : UInt64
  conns : List Conn
  /-- Frames that a transport is about to forward. -/
  accepted : List (BandId × PeerKey × Copy)
  dispatches : List Dispatch
  queues : Sink → List Copy
  /-- The queue of the federation task. -/
  egress : List (BandId × Copy)
  /-- The links that are up. -/
  links : List Nat
  fanning : Option Fanning
  relayed : List Nat
  delivered : List (Sink × Copy)

/-- The largest message that the WebSocket library takes by default. -/
def maxMessage : Nat := 64 * 2 ^ 20

/-- The receive buffer of a Unix socket. -/
def recvBuf : Nat := 128 * 1024

/-- Mark what is sent somewhere. -/
def marked {α : Type} (mark : Mark) (send : α × Bytes) : α × Copy := (send.1, ⟨send.2, mark⟩)

namespace Hub

def new (limits : Limits) (fed : Bool) : Hub where
  registry := .new limits fed
  nextConn := 1
  conns := []
  accepted := []
  dispatches := []
  queues := fun _ => []
  egress := []
  links := []
  fanning := none
  relayed := []
  delivered := []

/-! ## Ingress -/

/-- A packet that a transport has taken in, and now forwards. -/
def accept (hub : Hub) (band : BandId) (key : PeerKey) (pkt : Bytes) (tag : Nat) : Hub :=
  { hub with accepted := hub.accepted ++ [(band, key, ⟨pkt, tag, 0⟩)] }

/-- A datagram. The band is the one in its header. -/
def recvUdp (hub : Hub) (src : SocketAddr) (pkt : Bytes) (tag now later : Nat) : Hub :=
  match routeInfo pkt with
  | none => hub
  | some info =>
    let out := hub.registry.observeUdp info.bandId src ⟨info.bandId, .udp src, tag⟩ now later
    let hub := { hub with registry := out.registry }
    if out.result.isOk then hub.accept info.bandId (.udp src) pkt tag else hub

/-- The task of a connection ends. -/
def close (hub : Hub) (c : Nat) : Hub :=
  match hub.conns[c]? with
  | some conn =>
    { hub with
      registry :=
        match conn.isOpen, conn.registered with
        | true, some (band, id) => (hub.registry.disconnect band (.conn id)).registry
        | _, _ => hub.registry
      conns := hub.conns.set c { conn with isOpen := false } }
  | none => hub

/-- Register a connection under the next id; answers whether it was admitted. -/
def connect (hub : Hub) (band : BandId) (serial now later : Nat) : Hub × Bool :=
  let id := hub.nextConn
  let out := hub.registry.connect band (.conn id) ⟨band, .conn id, serial⟩ now later
  ({ hub with registry := out.registry, nextConn := id + 1 }, out.result.isOk)

/-- A frame on a connection that has its band: it is forwarded if it names that band. -/
def recvPinned (hub : Hub) (band : BandId) (id : UInt64) (pkt : Bytes) (tag now : Nat) : Hub :=
  match routeInfo pkt with
  | none => hub
  | some info =>
    if info.bandId = band then
      let registry := (hub.registry.touch band (.conn id) now).registry
      { hub with registry }.accept band (.conn id) pkt tag
    else hub

/-- The first frame of a WebSocket connection. It gives the connection its band. -/
def recvFirst (hub : Hub) (c : Nat) (pkt : Bytes) (tag now later : Nat) : Hub :=
  match routeInfo pkt with
  | none => hub
  | some info =>
    let joined := hub.connect info.bandId tag now later
    if joined.2 then
      let conn : Conn := ⟨.webSocket, some (info.bandId, hub.nextConn), true⟩
      { joined.1 with conns := hub.conns.set c conn }.accept info.bandId (.conn hub.nextConn) pkt
        tag
    else { joined.1 with conns := hub.conns.set c ⟨.webSocket, none, false⟩ }

/-- A message on a connection. A frame of a WebTransport session has a length of two bytes or comes
in one datagram; its readers may outlive the session. -/
def recv (hub : Hub) (c : Nat) (pkt : Bytes) (tag now later : Nat) : Option Hub :=
  match hub.conns[c]? with
  | none => none
  | some conn =>
    match conn.transport, conn.registered, conn.isOpen with
    | .webSocket, registered, true =>
      if maxMessage < pkt.length then some (hub.close c)
      else
        match registered with
        | some (band, id) => some (hub.recvPinned band id pkt tag now)
        | none => some (hub.recvFirst c pkt tag now later)
    | .webTransport, some (band, id), _ =>
      if pkt.length < 2 ^ 16 then some (hub.recvPinned band id pkt tag now) else none
    | .unix, some (band, id), true =>
      if pkt.length = 0 then some (hub.close c)
      else if recvBuf < pkt.length then some hub
      else some (hub.recvPinned band id pkt tag now)
    | _, _, _ => none

/-- A WebSocket connection is accepted. It is not registered yet. -/
def openWs (hub : Hub) : Hub := { hub with conns := hub.conns ++ [⟨.webSocket, none, true⟩] }

/-- A session on a transport where the band is known from the start: it is in the query of a
WebTransport session, and every Unix socket is for one band. -/
def openSession (hub : Hub) (transport : Transport) (band : BandId) (serial now later : Nat) : Hub :=
  let joined := hub.connect band serial now later
  if joined.2 then
    { joined.1 with conns := hub.conns ++ [⟨transport, some (band, hub.nextConn), true⟩] }
  else joined.1

def prune (hub : Hub) (ttl now : Nat) : Hub :=
  { hub with registry := (hub.registry.prune ttl now).1.registry }

/-! ## Fan-out -/

/-- A fan-out has its sinks. -/
def dispatch (hub : Hub) (out : Outcome Sink) (mark : Mark) : Hub :=
  { hub with
    registry := out.registry
    dispatches := hub.dispatches ++
      [⟨out.sends.map (marked mark), out.federated.map (marked mark)⟩] }

/-- A transport calls `Registry.forward`. -/
def forward (hub : Hub) (i : Nat) : Option Hub :=
  match hub.accepted[i]? with
  | some (band, key, copy) =>
    some
      { hub.dispatch (hub.registry.forward band key copy.bytes) copy.mark with
        accepted := hub.accepted.eraseIdx i
        relayed := hub.relayed ++ [copy.mark.tag] }
  | none => none

/-- A link calls `Registry.injectFromLink`. -/
def inject (hub : Hub) (band : BandId) (copy : Copy) : Hub :=
  hub.dispatch (hub.registry.injectFromLink band copy.bytes) copy.mark

/-- A fan-out serves its next sink. -/
def send (hub : Hub) (i : Nat) (ok : Bool) : Option Hub :=
  match hub.dispatches[i]? with
  | some ⟨(sink, copy) :: sends, federated⟩ =>
    some
      { hub with
        dispatches := hub.dispatches.set i ⟨sends, federated⟩
        queues :=
          if ok then Function.update hub.queues sink (hub.queues sink ++ [copy])
          else hub.queues }
  | _ => none

/-- A fan-out that has served its sinks offers the frame to the federation task and ends. -/
def federate (hub : Hub) (i : Nat) (ok : Bool) : Option Hub :=
  match hub.dispatches[i]? with
  | some ⟨[], federated⟩ =>
    some
      { hub with
        dispatches := hub.dispatches.eraseIdx i
        egress := if ok then hub.egress ++ federated else hub.egress }
  | _ => none

/-- The writer of a peer takes a frame from its queue. -/
def write (hub : Hub) (sink : Sink) (ok : Bool) : Option Hub :=
  match hub.queues sink with
  | copy :: queue =>
    some
      { hub with
        queues := Function.update hub.queues sink queue
        delivered := if ok then hub.delivered ++ [(sink, copy)] else hub.delivered }
  | [] => none

/-- The federation task takes the next frame, and the links that are up. -/
def fanEgress (hub : Hub) : Option Hub :=
  match hub.fanning, hub.egress with
  | none, (band, copy) :: egress =>
    some { hub with egress, fanning := some ⟨band, copy, hub.links⟩ }
  | _, _ => none

end Hub

end Telesthete.Relay
