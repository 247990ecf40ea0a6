import Telesthete.Relay.Federation
import Telesthete.Relay.Hub

/-!
# Hubs and the links between them

Any number of hubs, each with its clients, and the links that their
configurations let them dial: several between the same two hubs, from a hub to
itself, in any arrangement. A link is a connection with two ends. Each end greets
with the secret, then writes what its queue holds and reads what the other end
wrote; what an end wrote is kept with it until it is read, the bytes still in
flight after those that have arrived. A link may go down at any time, and a
writer may fail, from then on nothing is written.

`Net.step` takes one access of one task to what it shares with others, so that its
runs are the interleavings of all tasks of all hubs. `receipts` are the packets
that the hubs received from their clients, in order; a copy is marked with the
position of its packet.
-/

namespace Telesthete.Relay

open Telesthete.Lib Telesthete.Wire
open Telesthete.Band (SocketAddr)

def tHello : UInt8 := 0x01

variable {H : Type}

/-- The federation of a hub. The secret comes from the environment, where a value is far smaller
than the bound. -/
structure FedConfig (H : Type) where
  listen : Bool
  links : List H
  secret : Bytes
  inboundActive : Bool
  secret_lt : secret.length + 1 < 2 ^ 32

structure HubConfig (H : Type) where
  limits : Limits
  federation : Option (FedConfig H)

/-- An entry of a link's queue. A frame has its mark, an advertisement none. -/
structure LinkEntry where
  band : BandId
  bytes : Bytes
  mark : Option Mark
deriving DecidableEq

/-- The frame of an entry, if it is one. -/
def LinkEntry.frame (entry : LinkEntry) : Option (BandId × Copy) :=
  entry.mark.map fun mark => (entry.band, ⟨entry.bytes, mark⟩)

/-- What a message was written for. -/
inductive Sent where
  | hello (secret : Bytes)
  | queued (entry : LinkEntry)
deriving DecidableEq

def Sent.frame : Sent → Option (BandId × Copy)
  | .hello _ => none
  | .queued entry => entry.frame

inductive LinkPhase where
  | greeting
  | up
  | down
deriving DecidableEq, Repr

/-- One end of a link. `unread`, `written` and `crossed` are history: the messages that were written
here and not yet read at the other end, the frames that were written, and the packets whose frames
were injected at the other end. -/
structure LinkEnd (H : Type) where
  hub : H
  peer : Nat
  secret : Bytes
  active : Bool
  phase : LinkPhase
  /-- The writer runs. -/
  writing : Bool
  /-- The bands that the other end advertised. -/
  bands : Finset BandId
  queue : List LinkEntry
  arrived : Bytes
  inFlight : Bytes
  unread : List Sent
  written : List (BandId × Copy)
  crossed : List Nat

namespace LinkEnd

/-- An end of a new link, with its greeting written. -/
def new (hub : H) (peer : Nat) (secret : Bytes) (active : Bool) : LinkEnd H :=
  let hello := writeMsg tHello secret
  { hub, peer, secret, active
    phase := if hello.isSome then .greeting else .down
    writing := false
    bands := ∅
    queue := []
    arrived := []
    inFlight := hello.getD []
    unread := if hello.isSome then [.hello secret] else []
    written := []
    crossed := [] }

def enqueue (e : LinkEnd H) (entry : LinkEntry) : LinkEnd H := { e with queue := e.queue ++ [entry] }

/-- The link is up, and its writer starts. -/
def begin (e : LinkEnd H) : LinkEnd H := { e with phase := .up, writing := true }

/-- The writer ends, and its queue goes with it. -/
def endWriter (e : LinkEnd H) : LinkEnd H := { e with queue := [], writing := false }

def goDown (e : LinkEnd H) : LinkEnd H := { e.endWriter with phase := .down }

/-- The writer takes an entry from its queue. -/
def writeNext (e : LinkEnd H) : Option (LinkEnd H) :=
  match e.writing, e.queue with
  | true, entry :: queue =>
    match writeEntry (entry.band, entry.bytes) with
    | some bs =>
      some
        { e with
          queue
          inFlight := e.inFlight ++ bs
          unread := e.unread ++ [.queued entry]
          written := e.written ++ entry.frame.toList }
    | none => some e.endWriter
  | _, _ => none

def arrive (e : LinkEnd H) (n : Nat) : LinkEnd H :=
  { e with arrived := e.arrived ++ e.inFlight.take n, inFlight := e.inFlight.drop n }

/-- The other end reads a message: the message, and what it was written for. -/
def readMsg (e : LinkEnd H) : Option ((UInt8 × Bytes) × Option Sent × LinkEnd H) :=
  match readMsgSplit e.arrived with
  | some (msg, rest) =>
    some (msg, e.unread.head?, { e with arrived := rest, unread := e.unread.tail })
  | none => none

end LinkEnd

structure Net (H : Type) where
  hubs : H → Hub
  ends : List (LinkEnd H)
  receipts : List (H × Bytes)

/-- One access of one task. `ok` tells whether a queue had room or a transport took the frame. -/
inductive NetEvent (H : Type) where
  | datagram (h : H) (src : SocketAddr) (pkt : Bytes) (now later : Nat)
  | openWs (h : H)
  | openSession (h : H) (transport : Transport) (band : BandId) (now later : Nat)
  | message (h : H) (c : Nat) (pkt : Bytes) (now later : Nat)
  | close (h : H) (c : Nat)
  | prune (h : H) (ttl now : Nat)
  | forward (h : H) (i : Nat)
  | send (h : H) (i : Nat) (ok : Bool)
  | federate (h : H) (i : Nat) (ok : Bool)
  | write (h : H) (sink : Sink) (ok : Bool)
  | fanEgress (h : H)
  | fanNext (h : H) (ok : Bool)
  | dial (a b : H)
  | greet (k : Nat)
  | advertise (k : Nat) (bands : List BandId)
  | writeNext (k : Nat)
  | arrive (k n : Nat)
  | read (k : Nat)
  | endWriter (k : Nat)
  | goDown (k : Nat)

namespace Net

def init (config : H → HubConfig H) : Net H where
  hubs h := .new (config h).limits (config h).federation.isSome
  ends := []
  receipts := []

variable [DecidableEq H]

def setHub (net : Net H) (h : H) (hub : Hub) : Net H :=
  { net with hubs := Function.update net.hubs h hub }

def setEnd (net : Net H) (k : Nat) (e : LinkEnd H) : Net H := { net with ends := net.ends.set k e }

/-- A client's packet, and the hub as it leaves it. -/
def receive (net : Net H) (h : H) (pkt : Bytes) (hub : Hub) : Net H :=
  { net.setHub h hub with receipts := net.receipts ++ [(h, pkt)] }

/-- A hub dials another one, or itself, that its configuration names. -/
def dial (config : H → HubConfig H) (net : Net H) (a b : H) : Option (Net H) :=
  match (config a).federation, (config b).federation with
  | some dialer, some listener =>
    if dialer.links.contains b && listener.listen then
      let k := net.ends.length
      some
        { net with
          ends := net.ends ++
            [.new a (k + 1) dialer.secret true, .new b k listener.secret listener.inboundActive] }
    else none
  | _, _ => none

/-- The frame being fanned out is offered to the next link. -/
def fanNext (net : Net H) (h : H) (ok : Bool) : Option (Net H) :=
  match (net.hubs h).fanning with
  | some ⟨band, copy, k :: links⟩ =>
    match net.ends[k]? with
    | some e =>
      let net := net.setHub h { net.hubs h with fanning := some ⟨band, copy, links⟩ }
      if e.active && decide (band ∈ e.bands) && e.writing && ok then
        some (net.setEnd k (e.enqueue ⟨band, copy.bytes, some copy.mark⟩))
      else some net
    | none => none
  | some ⟨_, _, []⟩ => some (net.setHub h { net.hubs h with fanning := none })
  | none => none

/-- An end reads the greeting of the other one. -/
def greet (net : Net H) (k : Nat) : Option (Net H) :=
  match net.ends[k]? with
  | some e =>
    match e.phase, net.ends[e.peer]? with
    | .greeting, some p =>
      match p.readMsg with
      | some (msg, _, p) =>
        let hub := net.hubs e.hub
        let net := net.setEnd e.peer p
        if msg = (tHello, e.secret) then
          some ((net.setHub e.hub { hub with links := hub.links ++ [k] }).setEnd k e.begin)
        else some (net.setEnd k e.goDown)
      | none => none
    | _, _ => none
  | none => none

/-- The bands of the hub, in whatever order its map lists them, are queued for the other end. -/
def advertise (net : Net H) (k : Nat) (bands : List BandId) : Option (Net H) :=
  match net.ends[k]? with
  | some e =>
    if e.writing && bands.isPerm (net.hubs e.hub).registry.bands.keys then
      some (net.setEnd k (e.enqueue ⟨bandsMarker, encodeBands bands, none⟩))
    else none
  | none => none

/-- An end reads a message. -/
def read (net : Net H) (k : Nat) : Option (Net H) :=
  match net.ends[k]? with
  | some e =>
    match e.phase, net.ends[e.peer]? with
    | .up, some p =>
      match p.readMsg with
      | some (msg, sent, p) =>
        let reader := LinkReader.handle ⟨e.active, e.bands, []⟩ msg
        let mark := ((sent.bind Sent.frame).map fun frame => frame.2.mark).getD ⟨0, 0⟩
        match reader.injected with
        | [] =>
          some ((net.setEnd e.peer p).setEnd k { e with bands := reader.bands })
        | (band, frame) :: _ =>
          let p := { p with crossed := p.crossed ++ [mark.tag] }
          let hub := (net.hubs e.hub).inject band ⟨frame, mark.tag, mark.hops + 1⟩
          some (((net.setHub e.hub hub).setEnd e.peer p).setEnd k
            { e with bands := reader.bands })
      | none => none
    | _, _ => none
  | none => none

/-- The task of a link ends. -/
def goDown (net : Net H) (k : Nat) : Option (Net H) :=
  match net.ends[k]? with
  | some e =>
    let hub := net.hubs e.hub
    some ((net.setHub e.hub { hub with links := hub.links.filter (· ≠ k) }).setEnd k e.goDown)
  | none => none

def step (config : H → HubConfig H) (net : Net H) : NetEvent H → Option (Net H)
  | .datagram h src pkt now later =>
    if pkt.length < 2 ^ 16 then
      some (net.receive h pkt ((net.hubs h).recvUdp src pkt net.receipts.length now later))
    else none
  | .openWs h => some (net.setHub h (net.hubs h).openWs)
  | .openSession h transport band now later =>
    if transport = .webSocket then none
    else
      some (net.setHub h
        ((net.hubs h).openSession transport band net.receipts.length now later))
  | .message h c pkt now later =>
    ((net.hubs h).recv c pkt net.receipts.length now later).map (net.receive h pkt)
  | .close h c => some (net.setHub h ((net.hubs h).close c))
  | .prune h ttl now => some (net.setHub h ((net.hubs h).prune ttl now))
  | .forward h i => ((net.hubs h).forward i).map (net.setHub h)
  | .send h i ok => ((net.hubs h).send i ok).map (net.setHub h)
  | .federate h i ok => ((net.hubs h).federate i ok).map (net.setHub h)
  | .write h sink ok => ((net.hubs h).write sink ok).map (net.setHub h)
  | .fanEgress h => (net.hubs h).fanEgress.map (net.setHub h)
  | .fanNext h ok => net.fanNext h ok
  | .dial a b => net.dial config a b
  | .greet k => net.greet k
  | .advertise k bands => net.advertise k bands
  | .writeNext k => (net.ends[k]?.bind LinkEnd.writeNext).map (net.setEnd k)
  | .arrive k n => (net.ends[k]?.map fun e => e.arrive n).map (net.setEnd k)
  | .read k => net.read k
  | .endWriter k => (net.ends[k]?.map LinkEnd.endWriter).map (net.setEnd k)
  | .goDown k => net.goDown k

end Net

end Telesthete.Relay
