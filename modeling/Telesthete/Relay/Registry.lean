import Telesthete.Lib.Assoc
import Telesthete.Band.Message
import Telesthete.Relay.Frame

/-!
# The band registry of a hub

Peers of every transport live in one registry, by band and within a band by
their key. A registry only moves whole frames: what a transport hands to
`forward` or a link to `injectFromLink` goes to sinks of the band's peers, and
the sinks are what an operation answers, with the frame for each. A sink is
whatever the transport made, so its type is a parameter; the closure that makes
one stands here as the sink it would return, and `made` counts its calls.
Time is an argument of every operation that reads the clock.
-/

namespace Telesthete.Relay

open Telesthete.Lib Telesthete.Wire
open Telesthete.Band (SocketAddr)

/-- Caps and validation policy. -/
structure Limits where
  maxBands : Nat
  maxPeersPerBand : Nat
  udpValidationPackets : UInt32
deriving DecidableEq, Repr

inductive PeerKey where
  | udp (addr : SocketAddr)
  | conn (id : UInt64)
deriving DecidableEq, Repr

/-- A registered peer. `packets` and `made` are history: the packets counted since the peer was
admitted, without saturation, and the sinks made for it. -/
structure Peer (S : Type) where
  sink : Option S
  firstSeen : Nat
  lastSeen : Nat
  eligible : Bool
  seen : UInt32
  route : Option UInt16
  packets : Nat
  made : Nat
deriving DecidableEq, Repr

inductive RegError where
  | bandCap
  | peerCap
deriving DecidableEq, Repr

abbrev Peers (S : Type) := AList fun _ : PeerKey => Peer S

structure Registry (S : Type) where
  bands : AList fun _ : BandId => Peers S
  limits : Limits
  /-- A federation egress is installed. -/
  fed : Bool

variable {S : Type}

/-- What an operation does: the registry it leaves, its answer, the frames handed to sinks and to
the federation egress, and the number of sinks it had made. -/
structure Outcome (S : Type) where
  registry : Registry S
  result : Except RegError Unit := .ok ()
  sends : List (S × Bytes) := []
  federated : List (BandId × Bytes) := []
  made : Nat := 0

namespace Registry

def new (limits : Limits) (fed : Bool) : Registry S := ⟨∅, limits, fed⟩

/-- The peers of a band; none if the band is not there. -/
def peers (r : Registry S) (band : BandId) : Peers S := (r.bands.lookup band).getD ∅

def peer? (r : Registry S) (band : BandId) (key : PeerKey) : Option (Peer S) :=
  (r.peers band).lookup key

/-- Change the peers of a band that is there. -/
def update (r : Registry S) (band : BandId) (f : Peers S → Peers S) : Registry S :=
  { r with bands := modify band f r.bands }

end Registry

/-- Count a packet, as `u32::saturating_add` does. -/
def Peer.observed (p : Peer S) (now : Nat) : Peer S :=
  { p with
    lastSeen := now
    seen := if p.seen.toNat + 1 < 2 ^ 32 then p.seen + 1 else p.seen
    packets := p.packets + 1 }

/-- The entry under `k` lost its mapping when the one under `addr`, born at `born`, appeared. -/
def rebound (addr : SocketAddr) (id : UInt16) (born : Nat) (k : PeerKey) (q : Peer S) : Bool :=
  match k with
  | .udp a => a ≠ addr && a.ip = addr.ip && q.route = some id && q.lastSeen < born
  | .conn _ => false

/-- An eligible UDP peer takes its route id from entries of its IP that were silent since it
appeared. -/
def supersedeRebound (peers : Peers S) (key : PeerKey) : Peers S :=
  match key, peers.lookup key with
  | .udp addr, some p =>
    match p.route, p.eligible with
    | some id, true =>
      mapVals
        (fun k q => if rebound addr id p.firstSeen k q then { q with route := none } else q)
        peers
    | _, _ => peers
  | _, _ => peers

/-- A peer other than the sender that declared the id and is eligible. -/
def declared (src : Option PeerKey) (id : UInt16) (k : PeerKey) (p : Peer S) : Bool :=
  some k ≠ src && p.eligible && p.route = some id

/-- Delivery is narrowed to the declarers of the id. -/
def addressed (peers : Peers S) (src : Option PeerKey) (info : RouteInfo) : Bool :=
  info.channelType = some .addressed && info.channelId ≠ 0 &&
    peers.entries.any fun e => declared src info.channelId e.1 e.2

/-- The sinks a frame should reach. -/
def targets (peers : Peers S) (src : Option PeerKey) (info : RouteInfo) : List S :=
  ((peers.entries.filter fun e => some e.1 ≠ src && e.2.eligible).filter fun e =>
    !addressed peers src info || declared src info.channelId e.1 e.2).filterMap fun e => e.2.sink

namespace Registry

/-- Register a peer under its key, within the caps. The clock is read once for each of the two
times of the entry. -/
def insert (r : Registry S) (band : BandId) (key : PeerKey) (sink : S) (conn : Bool)
    (now later : Nat) : Outcome S :=
  let isNewBand := (r.bands.lookup band).isNone
  if isNewBand && r.limits.maxBands ≤ r.bands.entries.length then
    { registry := r, result := .error .bandCap }
  else
    let bands := if isNewBand then r.bands.insert band ∅ else r.bands
    let peers := (bands.lookup band).getD ∅
    if r.limits.maxPeersPerBand ≤ peers.entries.length then
      { registry := { r with bands := if isNewBand then bands.erase band else bands }
        result := .error .peerCap }
    else
      let eligible := conn || r.limits.udpValidationPackets ≤ 1
      let made := if eligible then 1 else 0
      let peer : Peer S :=
        { sink := if eligible then some sink else none
          firstSeen := now
          lastSeen := later
          eligible
          seen := 1
          route := none
          packets := 1
          made }
      { registry := { r with bands := bands.insert band (peers.insert key peer) }, made }

def connect (r : Registry S) (band : BandId) (key : PeerKey) (sink : S)
    (now later : Nat) : Outcome S :=
  r.insert band key sink true now later

/-- Register or refresh the UDP peer a datagram came from. -/
def observeUdp (r : Registry S) (band : BandId) (addr : SocketAddr) (sink : S)
    (now later : Nat) : Outcome S :=
  let key := PeerKey.udp addr
  match r.peer? band key with
  | some peer =>
    let peer := peer.observed now
    if !peer.eligible && r.limits.udpValidationPackets ≤ peer.seen then
      let peer := { peer with eligible := true, sink := some sink, made := peer.made + 1 }
      { registry := r.update band fun peers =>
          supersedeRebound (modify key (fun _ => peer) peers) key
        made := 1 }
    else { registry := r.update band (modify key fun _ => peer) }
  | none => r.insert band key sink false now later

/-- Refresh the liveness of a peer. -/
def touch (r : Registry S) (band : BandId) (key : PeerKey) (now : Nat) : Outcome S :=
  { registry := r.update band (modify key (·.observed now)) }

/-- Relay one frame to the other peers of its sender's band. -/
def forward (r : Registry S) (band : BandId) (src : PeerKey) (frame : Bytes) : Outcome S :=
  match routeInfo frame, r.bands.lookup band with
  | some info, some peers =>
    if info.channelType = some .route then
      -- consumed here: the declaration counts once its sender is eligible
      let route := if info.channelId ≠ 0 then some info.channelId else none
      { registry := r.update band fun peers =>
          supersedeRebound (modify src (fun p => { p with route := route }) peers) src }
    else
      { registry := r
        sends := (targets peers (some src) info).map fun sink => (sink, frame)
        federated := if r.fed then [(band, frame)] else [] }
  | _, _ => { registry := r }

/-- Hand out a frame that came over a federation link; it is never federated again. -/
def injectFromLink (r : Registry S) (band : BandId) (frame : Bytes) : Outcome S :=
  match routeInfo frame, r.bands.lookup band with
  | some info, some peers =>
    if info.channelType = some .route then { registry := r }
    else
      { registry := r
        sends := (targets peers none info).map fun sink => (sink, frame) }
  | _, _ => { registry := r }

def disconnect (r : Registry S) (band : BandId) (key : PeerKey) : Outcome S :=
  match r.bands.lookup band with
  | some peers =>
    let peers := peers.erase key
    if peers.entries.isEmpty then { registry := { r with bands := r.bands.erase band } }
    else { registry := r.update band fun _ => peers }
  | none => { registry := r }

/-- A peer that idle eviction keeps: a connection, or a UDP peer heard from within `ttl`. -/
def retained (ttl now : Nat) (k : PeerKey) (p : Peer S) : Bool :=
  match k with
  | .conn _ => true
  | .udp _ => now - p.lastSeen ≤ ttl

/-- The registry after evicting idle UDP peers and reaping empty bands. -/
def pruned (r : Registry S) (ttl now : Nat) : Registry S :=
  { r with
    bands := filterVals (fun _ peers => !peers.entries.isEmpty)
      (mapVals (fun _ peers => filterVals (retained ttl now) peers) r.bands) }

/-- Evict idle UDP peers; answers how many went and how many bands remain. -/
def prune (r : Registry S) (ttl now : Nat) : Outcome S × Nat × Nat :=
  ({ registry := r.pruned ttl now },
    (r.bands.entries.map fun e =>
      e.2.entries.length - (filterVals (retained ttl now) e.2).entries.length).sum,
    (r.pruned ttl now).bands.entries.length)

end Registry

/-- The operations of a registry, as the transports call them: only a connection connects or is
touched. -/
inductive Op (S : Type) where
  | connect (band : BandId) (id : UInt64) (sink : S) (now later : Nat)
  | observeUdp (band : BandId) (addr : SocketAddr) (sink : S) (now later : Nat)
  | touch (band : BandId) (id : UInt64) (now : Nat)
  | forward (band : BandId) (src : PeerKey) (frame : Bytes)
  | injectFromLink (band : BandId) (frame : Bytes)
  | disconnect (band : BandId) (key : PeerKey)
  | prune (ttl now : Nat)

def Registry.apply (r : Registry S) : Op S → Outcome S
  | .connect band id sink now later => r.connect band (.conn id) sink now later
  | .observeUdp band addr sink now later => r.observeUdp band addr sink now later
  | .touch band id now => r.touch band (.conn id) now
  | .forward band src frame => r.forward band src frame
  | .injectFromLink band frame => r.injectFromLink band frame
  | .disconnect band key => r.disconnect band key
  | .prune ttl now => (r.prune ttl now).1

def Registry.step (r : Registry S) (op : Op S) : Option (Registry S) := some (r.apply op).registry

/-- One operation after the other. -/
def Registry.run (r : Registry S) (ops : List (Op S)) : Registry S :=
  ops.foldl (fun r op => (r.apply op).registry) r

end Telesthete.Relay
