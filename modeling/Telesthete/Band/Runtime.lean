import Telesthete.Band.Hub
import Telesthete.Lib.Run

/-!
# A running band

All the tasks of one band over their shared state: the receive loop, the
control task, the keepalive loop, the Stream and Channel hubs, the Board and
Drop demultiplexers and their endpoint tasks, and the application that opens
endpoints and sends. A `Band.Event` is one task's next operation on shared
state, and `step` performs it; a run is any interleaving of them.

The receive loop looks up the keys and decodes a datagram in one step, notes
when the peer was seen in a second and hands the packet on in a third. The
control task takes a packet off its queue in one step, updating its own maps,
and then performs the effects of that packet one by one (`pending`).
-/

namespace Telesthete.Band

open Telesthete.Lib Telesthete.Crypto Telesthete.Wire

inductive RecvLoop where
  | idle
  | decoded (pkt : Inbound)
  | seen (pkt : Inbound)

/-- Where the keepalive loop is (§4.5). -/
inductive Keepalive where
  | waiting
  /-- The peers still to be sent a KEEPALIVE. -/
  | sending (addrs : List SocketAddr)
  /-- The liveness snapshot the evictions are decided by. -/
  | scanned (seen : AList fun _ : SocketAddr => Nat)
  /-- What is left to forget of the evicted peers. -/
  | evicting (ops : List Transport.Forget)

/-- Something an application sends. -/
inductive Message where
  | hello (hostname : String) (capabilities ciphers : List String)
  | helloAck (hostname : String) (capabilities ciphers : List String) (cipher : String)
  | keepalive
  | goodbye
  | keyframeReq (k : KeyframeReq)
  | rateHint (r : RateHint)
  | stream (id : UInt16) (priority : UInt8) (data : Bytes)
  | channel (id : UInt16) (data : Bytes)
  | board (id : UInt16) (data : Bytes)
  | drop (id : UInt16) (data : Bytes)

/-- `send_control_json`: the base key for HELLO and HELLO_ACK only. -/
def controlOut (dest : SocketAddr) (type : UInt8) (payload : Value) (useBaseKey : Bool) :
    Outbound :=
  ⟨dest, .control, 0, .json ⟨type, payload⟩, useBaseKey⟩

def Message.outbound (session : UInt64) (dest : SocketAddr) : Message → Outbound
  | .hello hostname capabilities ciphers =>
    controlOut dest typeHello (.ofHello ⟨hostname, capabilities, ciphers, session⟩) true
  | .helloAck hostname capabilities ciphers cipher =>
    controlOut dest typeHelloAck
      (.ofHelloAck ⟨hostname, capabilities, ciphers, cipher, session⟩) true
  | .keepalive => controlOut dest typeKeepalive .empty false
  | .goodbye => controlOut dest typeGoodbye .empty false
  | .keyframeReq k => controlOut dest typeKeyframeReq (.ofKeyframeReq k) false
  | .rateHint r => controlOut dest typeRateHint (.ofRateHint r) false
  | .stream id priority data => ⟨dest, .stream, id, .bytes (priority :: data), false⟩
  | .channel id data => ⟨dest, .channel, id, .bytes data, false⟩
  | .board id data => ⟨dest, .board, id, .bytes data, false⟩
  | .drop id data => ⟨dest, .drop, id, .bytes data, false⟩

end Telesthete.Band

namespace Telesthete

open Lib Crypto Wire Band

structure Band where
  cfg : ControlConfig
  deadAfter : Nat
  transport : Transport
  /-- The live peer registry. -/
  peers : AList fun _ : SocketAddr => PeerState
  recvLoop : RecvLoop
  controlQueue : List Inbound
  control : ControlTask
  /-- What the control task still has to do for the packet it took last. -/
  pending : List Effect
  keepalive : Keepalive
  /-- Every address ever broadcast as restarted. -/
  rebases : List SocketAddr
  boardQueue : List Inbound
  dropQueue : List Inbound
  boards : AList fun _ : UInt16 => Nat
  drops : AList fun _ : UInt16 => Nat
  /-- The Stream hub, the Channel hub, then the Board and Drop endpoints. -/
  subscribers : List Subscriber
  /-- History: what was sent, and to whom. -/
  outbox : List (SocketAddr × Datagram)
  /-- History: the control events, with the packet that caused each. -/
  events : List (ControlEvent × Inbound)

namespace Band

/-- `Band::bind_with_options`; `seq` is where the sequence counter was seeded. -/
def bindWithOptions (psk : Bytes) (hostname : String) (session : UInt64)
    (ciphers capabilities : List String) (deadAfter seq : Nat) : Band where
  cfg := ⟨psk, session, hostname, capabilities, withBaseline ciphers⟩
  deadAfter := deadAfter
  transport := (Transport.bind (deriveKey psk) (deriveBandId psk) seq).setSessionKey
    (deriveSessionKey psk baselineCipher session)
  peers := ∅
  recvLoop := .idle
  controlQueue := []
  control := .new
  pending := []
  keepalive := .waiting
  rebases := []
  boardQueue := []
  dropQueue := []
  boards := ∅
  drops := ∅
  subscribers := [.new .streamHub 0, .new .channelHub 0]
  outbox := []
  events := []

/-- Send one packet. -/
def send (m : Band) (out : Outbound) : Band :=
  let (transport, wire) := m.transport.send out
  { m with transport := transport, outbox := m.outbox ++ [(out.dest, wire)] }

/-- `Band::connect_peer`: a HELLO with our preferences. -/
def connectPeer (m : Band) (peer : SocketAddr) : Band :=
  m.send ((Message.hello m.cfg.hostname m.cfg.capabilities m.cfg.ciphers).outbound
    m.cfg.session peer)

/-- Whether `victim` has the lowest epoch of the registry. -/
def isLowest (m : Band) (victim : SocketAddr) : Bool :=
  (m.peers.lookup victim).any fun st =>
    m.peers.entries.all fun e => st.sessionEpoch ≤ e.2.sessionEpoch

/-- One effect. The registry's iteration order decides which of several
lowest-epoch entries is evicted; `victim` is that choice. -/
def perform (m : Band) (victim : SocketAddr) : Effect → Option Band
  | .rebase addr => some { m with rebases := m.rebases ++ [addr] }
  | .registerPeerKey addr key suite =>
    some { m with transport := m.transport.registerPeerKey addr key suite }
  | .registerSendKey addr key suite =>
    some { m with transport := m.transport.registerSendKey addr key suite }
  | .makeRoom addr =>
    if m.peers.lookup addr = none ∧ peerMapSoftCap ≤ m.peers.entries.length then
      if m.isLowest victim then some { m with peers := m.peers.erase victim } else none
    else some m
  | .insertPeer addr state => some { m with peers := m.peers.insert addr state }
  | .sendHelloAck addr ack => some (m.send (controlOut addr typeHelloAck (.ofHelloAck ack) true))
  | .removePeer addr => some { m with peers := m.peers.erase addr }
  | .forget op => some { m with transport := m.transport.forget op }
  | .event ev pkt => some { m with events := m.events ++ [(ev, pkt)] }

/-- Making room evicts the victim, where the registry is full and the address not in it. -/
theorem makeRoom_cases {m m' : Band} {victim addr : SocketAddr}
    (h : m.perform victim (.makeRoom addr) = some m') :
    (m.peers.lookup addr = none ∧ peerMapSoftCap ≤ m.peers.entries.length ∧
      m' = { m with peers := m.peers.erase victim }) ∨ m' = m := by
  simp only [perform] at h
  split at h
  · rename_i hfull
    obtain ⟨-, hroom⟩ := Option.ite_none_right_eq_some.mp h
    exact .inl ⟨hfull.1, hfull.2, (Option.some.inj hroom).symm⟩
  · exact .inr (Option.some.inj h).symm

/-- Either way, nothing changes but the registry. -/
theorem perform_makeRoom {m m' : Band} {victim addr : SocketAddr}
    (h : m.perform victim (.makeRoom addr) = some m') :
    ∃ peers, m' = { m with peers := peers } := by
  rcases makeRoom_cases h with ⟨-, -, rfl⟩ | rfl
  · exact ⟨_, rfl⟩
  · exact ⟨m'.peers, rfl⟩

/-- Append to the queue of a task. -/
def enqueue (m : Band) (i : Nat) (pkt : Inbound) : Band :=
  { m with subscribers := m.subscribers.modify i fun s => { s with queue := s.queue ++ [pkt] } }

/-- The receive loop's dispatch; two of the channel types have no route. -/
def route (m : Band) (pkt : Inbound) : Band :=
  match pkt.header.channelType with
  | .control => { m with controlQueue := m.controlQueue ++ [pkt] }
  | .stream => m.enqueue 0 pkt
  | .channel => m.enqueue 1 pkt
  | .board => { m with boardQueue := m.boardQueue ++ [pkt] }
  | .drop => { m with dropQueue := m.dropQueue ++ [pkt] }
  | .route => m
  | .addressed => m

/-- A demultiplexer hands a packet to the endpoint open for its channel id. -/
def demux (m : Band) (endpoints : AList fun _ : UInt16 => Nat) (pkt : Inbound) : Band :=
  match endpoints.lookup pkt.header.channelId with
  | some i => m.enqueue i pkt
  | none => m

/-- The keepalive loop's next operation. -/
def keepaliveStep (m : Band) (now : Nat) : Band :=
  match m.keepalive with
  | .waiting => { m with keepalive := .sending m.peers.keys }
  | .sending (addr :: rest) =>
    { m.send (Message.keepalive.outbound m.cfg.session addr) with keepalive := .sending rest }
  | .sending [] => { m with keepalive := .scanned m.transport.lastSeen }
  | .scanned seen =>
    let alive addr := (seen.lookup addr).any fun t => now - t < m.deadAfter
    let dead := m.peers.keys.filter fun addr => !alive addr
    { m with
      peers := retain alive m.peers
      keepalive := .evicting (dead.flatMap Transport.forgetPeer) }
  | .evicting (op :: rest) =>
    { m with transport := m.transport.forget op, keepalive := .evicting rest }
  | .evicting [] => { m with keepalive := .waiting }

/-- Open a numbered endpoint behind a hub. -/
def openOutlet (m : Band) (i : Nat) (key : Option SocketAddr × UInt16) : Band :=
  { m with
    subscribers := m.subscribers.modify i fun s =>
      { s with outlets := s.outlets.insert key s.opened, opened := s.opened + 1 } }

/-- Spawn an endpoint task; it subscribes to the rebase channel from now on. -/
def spawn (m : Band) (kind : TaskKind) : Band :=
  { m with subscribers := m.subscribers ++ [.new kind m.rebases.length] }

inductive Event where
  /-- A datagram arrives from `source` and the receive loop decodes it. -/
  | recv (source : SocketAddr) (wire : Datagram)
  | seen (now : Nat)
  | dispatch
  /-- The control task takes its next packet. -/
  | control
  /-- The control task performs its next effect. -/
  | effect (victim : SocketAddr)
  | keepalive (now : Nat)
  | boardDemux
  | dropDemux
  /-- Task `i` handles its next packet. -/
  | packet (i : Nat)
  /-- Task `i` takes its next signal from the rebase channel. -/
  | rebase (i : Nat)
  | openStream (id : UInt16)
  | openChannel (peer : SocketAddr) (id : UInt16)
  | openBoard (id : UInt16)
  | openDrop (id : UInt16)
  /-- The application sends. -/
  | send (dest : SocketAddr) (msg : Message)

/-- Whether an address is in the registry. -/
def isLive (m : Band) (addr : SocketAddr) : Bool := (m.peers.lookup addr).isSome

def step (m : Band) : Event → Option Band
  | .recv source wire =>
    match m.recvLoop with
    | .idle =>
      match m.transport.decode source wire with
      | none => some m
      | some pkt => some { m with recvLoop := .decoded pkt }
    | _ => none
  | .seen now =>
    match m.recvLoop with
    | .decoded pkt =>
      some { m with
        recvLoop := .seen pkt
        transport := m.transport.refresh pkt.source now }
    | _ => none
  | .dispatch =>
    match m.recvLoop with
    | .seen pkt => some ({ m with recvLoop := .idle }.route pkt)
    | _ => none
  | .control =>
    match m.pending, m.controlQueue with
    | [], pkt :: rest =>
      let (control, effects) := m.control.handle m.cfg m.isLive pkt
      some { m with control := control, pending := effects, controlQueue := rest }
    | _, _ => none
  | .effect victim =>
    match m.pending with
    | [] => none
    | effect :: rest => { m with pending := rest }.perform victim effect
  | .keepalive now => some (m.keepaliveStep now)
  | .boardDemux =>
    match m.boardQueue with
    | [] => none
    | pkt :: rest => some ({ m with boardQueue := rest }.demux m.boards pkt)
  | .dropDemux =>
    match m.dropQueue with
    | [] => none
    | pkt :: rest => some ({ m with dropQueue := rest }.demux m.drops pkt)
  | .packet i =>
    (m.subscribers[i]?.bind Subscriber.onPacket).map fun s =>
      { m with subscribers := m.subscribers.set i s }
  | .rebase i =>
    (m.subscribers[i]?.bind fun s => s.onRebase m.rebases).map fun s =>
      { m with subscribers := m.subscribers.set i s }
  | .openStream id => some (m.openOutlet 0 (none, id))
  | .openChannel peer id => some (m.openOutlet 1 (some peer, id))
  | .openBoard id =>
    some { m.spawn .board with boards := m.boards.insert id m.subscribers.length }
  | .openDrop id =>
    some { m.spawn .drop with drops := m.drops.insert id m.subscribers.length }
  | .send dest msg => some (m.send (msg.outbound m.cfg.session dest))

end Band

end Telesthete
