import Telesthete.Band.Control
import Telesthete.Python.Endpoint

/-!
# A Python band

The Python implementation is a single thread: a packet is handled from the
socket to the last handler before anything else happens. A `Band` holds the
peers, the control channel and the endpoint objects; an `Event` is a packet, a
round of the keepalive loop or a call by the application.

Epochs are as the sender's 8 bytes hold them; the source's `-1` for a peer
without one is `none`. Endpoint objects are numbered in the order they were
created, and the tables `streams`, `channels`, `boards` and `drops` refer to
them by number, since a Drop replaces the object that was there before.
-/

namespace Telesthete.Python

open Telesthete.Lib Telesthete.Crypto Telesthete.Wire Telesthete.Band

def typeFocusChange : UInt8 := 0x04
def typeMetacontrol : UInt8 := 0x05

/-- The values of `ControlMessageType`. -/
def isControlMessageType (type : UInt8) : Bool := 0x01 ≤ type ∧ type ≤ 0x08

structure Peer where
  hostname : String
  lastSeen : Nat
  capabilities : List String
  /-- The committed suite; `none` until the handshake. -/
  cipher : Option String
  sessionEpoch : Option UInt64

namespace Peer

def new (hostname : String) (now : Nat) : Peer := ⟨hostname, now, [], none, none⟩

def updateLastSeen (p : Peer) (now : Nat) : Peer := { p with lastSeen := now }

/-- Whether the peer was heard within the last 15 seconds. -/
def isAlive (p : Peer) (now : Nat) : Bool := now - p.lastSeen < 15000

end Peer

structure ControlChannel where
  destinations : List SocketAddr
  lastKeepaliveSent : Nat
  recvWatermark : AList fun _ : SocketAddr => Nat
  peerSession : AList fun _ : SocketAddr => UInt64
  /-- History: what was dispatched, with the address it came from. -/
  accepted : List (SocketAddr × Datagram)

/-- Hard cap on the peer registry. -/
def maxPeers : Nat := 4096

structure Band where
  psk : Bytes
  hostname : String
  capabilities : List String
  ciphers : List String
  sessionEpoch : UInt64
  /-- The next sequence of the band's `SequenceSource`. -/
  seqSource : Nat
  control : ControlChannel
  peers : AList fun _ : SocketAddr => Peer
  streams : AList fun _ : Nat => Nat
  nextStreamId : Nat
  channels : AList fun _ : Nat => Nat
  boards : AList fun _ : Nat => Nat
  drops : AList fun _ : Nat => Nat
  objects : List Endpoint
  /-- History: what was handed to the transport, and for whom. -/
  sent : List (SocketAddr × Datagram)

namespace Band

/-- `Band(psk, ...)`; `start` is where the sequence source was seeded. -/
def new (psk : Bytes) (hostname : String) (capabilities ciphers : List String)
    (sessionEpoch : UInt64) (start : Nat) : Band where
  psk := psk
  hostname := hostname
  capabilities := capabilities
  ciphers := withBaseline ciphers
  sessionEpoch := sessionEpoch
  seqSource := start % 2 ^ 64
  control := ⟨[], 0, ∅, ∅, []⟩
  peers := ∅
  streams := ∅
  nextStreamId := 1
  channels := ∅
  boards := ∅
  drops := ∅
  objects := []
  sent := []

/-- The suite of a peer; Python reads an empty id as a missing one. -/
def peerCipher (b : Band) (addr : SocketAddr) : String :=
  (((b.peers.lookup addr).bind (·.cipher)).filter (· ≠ "")).getD baselineCipher

def baseCrypto (b : Band) : Except CryptoError BandCrypto :=
  BandCrypto.new b.psk baselineCipher none

def sendCrypto (b : Band) (addr : SocketAddr) : Except CryptoError BandCrypto :=
  BandCrypto.new b.psk (b.peerCipher addr) (some b.sessionEpoch)

/-- The key for decrypting from a peer; no key until its handshake was seen. -/
def recvCrypto (b : Band) : RecvCrypto := fun addr =>
  match (b.peers.lookup addr).bind (·.sessionEpoch) with
  | none => .ok none
  | some epoch =>
    match BandCrypto.new b.psk (b.peerCipher addr) (some epoch) with
    | .error e => .error e
    | .ok c => .ok (some c)

/-! ### Sending on the control channel -/

def controlAad : Bytes := buildAad ChannelType.control.toU8 0

/-- The loop of `send_message` over its destinations; `false` if a key could
not be made for one, which ends the loop with an exception. -/
def sealFor (b : Band) (env : ControlEnvelope) (baseline : Bool) :
    List SocketAddr → List (SocketAddr × Datagram) × Bool
  | [] => ([], true)
  | dest :: rest =>
    match if baseline then b.baseCrypto else b.sendCrypto dest with
    | .error _ => ([], false)
    | .ok c =>
      let wire := ⟨⟨deriveBandId b.psk, .control, 0, b.seqSource⟩,
        c.encrypt b.seqSource (.json env) controlAad⟩
      let (packets, completed) := b.sealFor env baseline rest
      ((dest, wire) :: packets, completed)

/-- One sequence for the message, one ciphertext per destination. -/
def sendMessage (b : Band) (env : ControlEnvelope) (dest : Option SocketAddr) (baseline : Bool) :
    Band × Bool :=
  let (packets, completed) := b.sealFor env baseline (dest.elim b.control.destinations ([·]))
  ({ b with seqSource := (b.seqSource + 1) % 2 ^ 64, sent := b.sent ++ packets }, completed)

def sendHelloAck (b : Band) (dest : SocketAddr) (cipher : String) : Band :=
  let committed := if cipher = "" then baselineCipher else cipher
  (b.sendMessage ⟨typeHelloAck, .ofHelloAck
    ⟨b.hostname, b.capabilities, b.ciphers, committed, b.sessionEpoch⟩⟩ (some dest) true).1

/-- `connect_peer`: a HELLO with our preferences and epoch. -/
def connectPeer (b : Band) (dest : SocketAddr) : Band :=
  (b.sendMessage ⟨typeHello, .ofHello
    ⟨b.hostname, b.capabilities, b.ciphers, b.sessionEpoch⟩⟩ (some dest) true).1

/-! ### Peers -/

/-- Note that something arrived from a known peer. -/
def touch (b : Band) (addr : SocketAddr) (now : Nat) : Band :=
  match b.peers.lookup addr with
  | none => b
  | some peer => { b with peers := b.peers.insert addr (peer.updateLastSeen now) }

/-- Boards keep the address as a destination. -/
def removePeer (b : Band) (addr : SocketAddr) : Band :=
  if (b.peers.lookup addr).isSome then
    { b with
      peers := b.peers.erase addr
      control := { b.control with destinations := b.control.destinations.erase addr }
      objects := b.objects.map fun o => if o.kind = .stream then o.removeDestination addr else o }
  else b

/-- No peer was seen less recently than `victim`. -/
def isStalest (b : Band) (victim : SocketAddr) : Bool :=
  (b.peers.lookup victim).any fun p =>
    b.peers.entries.all fun entry => p.lastSeen ≤ entry.2.lastSeen

def addPeer (b : Band) (addr : SocketAddr) (hostname : String) (now : Nat) : Band :=
  { b with
    peers := b.peers.insert addr (.new hostname now)
    control :=
      { b.control with
        destinations :=
          if addr ∈ b.control.destinations then b.control.destinations
          else b.control.destinations ++ [addr] }
    objects := b.objects.map fun o =>
      if o.kind = .stream ∨ o.kind = .board then o.addDestination addr else o }

/-- A new peer displaces the least recently seen one when the registry is
full; `victim` is that one. -/
def ensurePeer (b : Band) (addr : SocketAddr) (hostname : String) (now : Nat)
    (victim : SocketAddr) : Option Band :=
  if (b.peers.lookup addr).isSome then some b
  else if maxPeers ≤ b.peers.entries.length then
    if b.isStalest victim then some ((b.removePeer victim).addPeer addr hostname now) else none
  else some (b.addPeer addr hostname now)

/-! ### Control messages -/

/-- What `_on_hello` reads, with the defaults of its `payload.get` calls. -/
def readHello (addr : SocketAddr) (payload : Value) : Hello :=
  payload.hello.getD ⟨s!"({addr.ip}, {addr.port})", [], [baselineCipher], 0⟩

def readHelloAck (addr : SocketAddr) (payload : Value) : HelloAck :=
  payload.helloAck.getD ⟨s!"({addr.ip}, {addr.port})", [], [], baselineCipher, 0⟩

/-- An older epoch than the peer's (§4.3). -/
def isStaleEpoch (b : Band) (addr : SocketAddr) (epoch : UInt64) : Bool :=
  ((b.peers.lookup addr).bind (·.sessionEpoch)).any (epoch < ·)

/-- Adopt what a handshake committed. -/
def commitPeer (b : Band) (addr : SocketAddr) (capabilities : List String) (cipher : String)
    (epoch : UInt64) (now : Nat) : Band :=
  match b.peers.lookup addr with
  | none => b
  | some peer =>
    { b with
      peers := b.peers.insert addr
        { peer with
          capabilities := capabilities
          cipher := some cipher
          sessionEpoch := some epoch
          lastSeen := now } }

/-- Handle HELLO: as responder, select the cipher and commit it (§3.5). -/
def onHello (b : Band) (addr : SocketAddr) (payload : Value) (now : Nat) (victim : SocketAddr) :
    Option Band :=
  let h := readHello addr payload
  let selected := selectCipher h.ciphers b.ciphers
  (b.ensurePeer addr h.hostname now victim).map fun b =>
    if b.isStaleEpoch addr h.session then b
    else (b.commitPeer addr h.capabilities selected h.session now).sendHelloAck addr selected

/-- Handle HELLO_ACK: adopt the cipher the responder committed, the baseline if
we did not offer it (§3.5). -/
def onHelloAck (b : Band) (addr : SocketAddr) (payload : Value) (now : Nat)
    (victim : SocketAddr) : Option Band :=
  let a := readHelloAck addr payload
  (b.ensurePeer addr a.hostname now victim).map fun b =>
    if b.isStaleEpoch addr a.session then b
    else
      b.commitPeer addr a.capabilities (if a.cipher ∈ b.ciphers then a.cipher else baselineCipher)
        a.session now

/-- Whether object `i` is in one of the tables. -/
def isOpen (b : Band) (i : Nat) : Bool :=
  (b.streams.entries ++ b.channels.entries ++ b.boards.entries ++ b.drops.entries).any (·.2 = i)

/-- A peer restarted: its watermarks are dropped in every open endpoint. -/
def onNewSession (b : Band) (addr : SocketAddr) : Band :=
  { b with objects := b.objects.mapIdx fun i o => if b.isOpen i then o.resetPeer addr else o }

/-- `_dispatch` to the handlers the band registers; the others do not touch it. -/
def dispatch (b : Band) (addr : SocketAddr) (env : ControlEnvelope) (now : Nat)
    (victim : SocketAddr) : Option Band :=
  if env.type = typeHello then b.onHello addr env.payload now victim
  else if env.type = typeHelloAck then b.onHelloAck addr env.payload now victim
  else if env.type = typeKeepalive then some (b.touch addr now)
  else if env.type = typeGoodbye then some (b.removePeer addr)
  else some b

/-- The peer's data key, then the base key. -/
def decryptControl (b : Band) (addr : SocketAddr) (wire : Datagram) :
    Except CryptoError Payload := do
  let rc ← b.recvCrypto addr
  match rc.bind fun c =>
      (c.decrypt wire.header.sequence wire.ciphertext controlAad).toOption with
  | some data => return data
  | none =>
    let base ← b.baseCrypto
    base.decrypt wire.header.sequence wire.ciphertext controlAad

/-- The control channel lets a message through: its marks and history. -/
def acceptControl (b : Band) (addr : SocketAddr) (wire : Datagram)
    (marks : AList fun _ : SocketAddr => Nat) : Band :=
  { b with
    control :=
      { b.control with
        recvWatermark := marks
        accepted := b.control.accepted ++ [(addr, wire)] } }

/-- The replay check at the end of `handle_packet`. -/
def dispatchFresh (b : Band) (addr : SocketAddr) (wire : Datagram) (env : ControlEnvelope)
    (now : Nat) (victim : SocketAddr) : Option Band :=
  match HighWater.raise b.control.recvWatermark addr wire.header.sequence with
  | none => some b
  | some marks => (b.acceptControl addr wire marks).dispatch addr env now victim

/-- A newer epoch: record it, set the watermark, reset the endpoints. -/
def startSession (b : Band) (addr : SocketAddr) (wire : Datagram) (epoch : UInt64) : Band :=
  ({ b with control := { b.control with peerSession := b.control.peerSession.insert addr epoch } }
    |>.acceptControl addr wire (b.control.recvWatermark.insert addr wire.header.sequence)
    |>.onNewSession addr)

/-- `ControlChannel.handle_packet`, once the packet is authenticated. -/
def handleMessage (b : Band) (addr : SocketAddr) (wire : Datagram) (env : ControlEnvelope)
    (now : Nat) (victim : SocketAddr) : Option Band :=
  if isControlMessageType env.type = false then some b
  else if env.isHandshake then
    let epoch := env.epoch
    let prev := b.control.peerSession.lookup addr
    if prev.any (epoch < ·) then some b
    else if prev.all (· < epoch) then
      (b.startSession addr wire epoch).dispatch addr env now victim
    else b.dispatchFresh addr wire env now victim
  else b.dispatchFresh addr wire env now victim

def handleControl (b : Band) (addr : SocketAddr) (wire : Datagram) (now : Nat)
    (victim : SocketAddr) : Option Band :=
  match b.decryptControl addr wire with
  | .error _ => some b
  | .ok data =>
    match data.envelope with
    | none => some b
    | some env => b.handleMessage addr wire env now victim

/-! ### Endpoints -/

/-- Hand a packet to the object open for its id. -/
def handleEndpoint (b : Band) (table : AList fun _ : Nat => Nat) (addr : SocketAddr)
    (wire : Datagram) : Band :=
  match table.lookup wire.header.channelId.toNat with
  | none => b
  | some i =>
    { b with objects := b.objects.modify i fun o =>
        -- a Channel is bound to one peer
        if o.kind.channelType = .channel ∧ o.kind ≠ .channel addr then o
        else o.handlePacket b.recvCrypto addr wire }

/-- The handlers registered with the transport. Those of Channels, Boards and
Drops are registered when the first of them is opened. -/
def receive (b : Band) (addr : SocketAddr) (wire : Datagram) (now : Nat) (victim : SocketAddr) :
    Option Band :=
  match wire.header.channelType with
  | .control => (b.touch addr now).handleControl addr wire now victim
  | .stream => some ((b.touch addr now).handleEndpoint b.streams addr wire)
  | .channel =>
    if b.channels.entries.isEmpty then some b
    else some ((b.touch addr now).handleEndpoint b.channels addr wire)
  | .board =>
    if b.boards.entries.isEmpty then some b
    else some ((b.touch addr now).handleEndpoint b.boards addr wire)
  | .drop =>
    if b.drops.entries.isEmpty then some b
    else some ((b.touch addr now).handleEndpoint b.drops addr wire)
  | .route => some b
  | .addressed => some b

def openStream (b : Band) (streamId : Option Nat) : Band :=
  let id := streamId.getD b.nextStreamId
  let b := if streamId.isNone then { b with nextStreamId := b.nextStreamId + 1 } else b
  if (b.streams.lookup id).isSome then b
  else
    { b with
      streams := b.streams.insert id b.objects.length
      objects := b.objects ++ [Endpoint.new .stream id b.peers.keys] }

def openChannel (b : Band) (channelId : Nat) (peerAddr : SocketAddr) : Band :=
  if (b.channels.lookup channelId).isSome then b
  else
    { b with
      channels := b.channels.insert channelId b.objects.length
      objects := b.objects ++ [Endpoint.new (.channel peerAddr) channelId []] }

/-- Advertise a capability, once. -/
def advertise (b : Band) (capability : String) : Band :=
  if capability ∈ b.capabilities then b
  else { b with capabilities := b.capabilities ++ [capability] }

def openBoard (b : Band) (boardId : Nat) : Band :=
  if (b.boards.lookup boardId).isSome then b
  else
    { b with
      boards := b.boards.insert boardId b.objects.length
      objects := b.objects ++ [Endpoint.new .board boardId b.peers.keys] }.advertise "board-v1"

/-- `drop_sender` and `drop_receiver`: each is a new object, also for an id in use. -/
def openDrop (b : Band) (dropId : Nat) : Band :=
  { b with
    drops := b.drops.insert dropId b.objects.length
    objects := b.objects ++ [Endpoint.new .drop dropId []] }.advertise "drop-v1"

/-! ### The keepalive loop and the application -/

/-- Send a KEEPALIVE if one is due; `false` if that raised. -/
def sendKeepalive (b : Band) (now : Nat) : Band × Bool :=
  if 5000 ≤ now - b.control.lastKeepaliveSent then
    let (b, completed) := b.sendMessage ⟨typeKeepalive, .empty⟩ none false
    if completed then ({ b with control := { b.control with lastKeepaliveSent := now } }, true)
    else (b, false)
  else (b, true)

/-- A round of the keepalive loop; an exception skips the dead-peer check. -/
def keepaliveRound (b : Band) (now : Nat) : Band :=
  let (b, completed) := b.sendKeepalive now
  if completed then
    (b.peers.entries.filter fun entry => !entry.2.isAlive now).foldl
      (fun b entry => b.removePeer entry.1) b
  else b

end Band

/-- What an application sends on the control channel. -/
inductive ControlMessage where
  | focusChange (payload : Value)
  | metacontrol (settings : Value)
  | goodbye
  | keyframeReq (k : KeyframeReq)
  | rateHint (r : RateHint)

def ControlMessage.envelope : ControlMessage → ControlEnvelope
  | .focusChange payload => ⟨typeFocusChange, payload⟩
  | .metacontrol settings => ⟨typeMetacontrol, settings⟩
  | .goodbye => ⟨typeGoodbye, .empty⟩
  | .keyframeReq k => ⟨typeKeyframeReq, .ofKeyframeReq k⟩
  | .rateHint r => ⟨typeRateHint, .ofRateHint r⟩

inductive Event where
  | recv (addr : SocketAddr) (wire : Datagram) (now : Nat) (victim : SocketAddr)
  | keepalive (now : Nat)
  | openStream (streamId : Option Nat)
  | openChannel (channelId : Nat) (peerAddr : SocketAddr)
  | openBoard (boardId : Nat)
  | openDrop (dropId : Nat)
  | connectPeer (dest : SocketAddr)
  /-- To one peer, or to all. -/
  | send (msg : ControlMessage) (dest : Option SocketAddr)

def Band.step (b : Band) : Event → Option Band
  | .recv addr wire now victim => b.receive addr wire now victim
  | .keepalive now => some (b.keepaliveRound now)
  | .openStream streamId => some (b.openStream streamId)
  | .openChannel channelId peerAddr => some (b.openChannel channelId peerAddr)
  | .openBoard boardId => some (b.openBoard boardId)
  | .openDrop dropId => some (b.openDrop dropId)
  | .connectPeer dest => some (b.connectPeer dest)
  | .send msg dest => some (b.sendMessage msg.envelope dest false).1

end Telesthete.Python
