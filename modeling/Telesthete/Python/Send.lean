import Telesthete.Python.Band

/-!
# What a Python band sends

A `Node` is a band together with the calls that are in the middle of sending.
An application may call `send` from its own threads, so between two
destinations of one message anything may happen to the band: other messages
are sent, peers come and go, handshakes commit other ciphers. A `Job` is such
a call.

Control and Stream draw one sequence for all destinations of a message before
the loop. Channel draws one for each frame it transmits, be it data, an ACK or
a retransmission. Board and Drop draw one for each packet, inside the loop.

The frames of Channels, Boards and Drops are whatever bytes those objects
build; they are part of the event here.
-/

namespace Telesthete.Python

open Telesthete.Lib Telesthete.Crypto Telesthete.Wire Telesthete.Band

/-- What a loop over destinations goes through. -/
inductive Targets where
  /-- The rest of a list made before the loop. -/
  | listed (rest : List SocketAddr)
  /-- From index `next` on, the destinations an object has at that moment. -/
  | live (object next : Nat)

/-- A call that sends one message. -/
structure Job where
  channelType : ChannelType
  channelId : Nat
  plaintext : Payload
  /-- The time that stands in the text of a control message. -/
  timestamp : Option Nat
  /-- The sequence for all destinations; `none` if each packet draws its own. -/
  sequence : Option Nat
  targets : Targets

def Job.aad (job : Job) : Bytes :=
  buildAad job.channelType.toU8 (UInt16.ofNat job.channelId)

/-- The next destination, and the call that is left. -/
def Job.next (job : Job) (b : Band) : Option (SocketAddr × Job) :=
  match job.targets with
  | .listed [] => none
  | .listed (dest :: rest) => some (dest, { job with targets := .listed rest })
  | .live object i =>
    match (b.objects[object]?).bind (·.destinations[i]?) with
    | none => none
    | some dest => some (dest, { job with targets := .live object (i + 1) })

/-- An encryption that was made, as the packet it went into. -/
structure Sealing where
  wire : Datagram
  timestamp : Option Nat
deriving DecidableEq

structure Node where
  band : Band
  jobs : List Job
  /-- History: every encryption. -/
  log : List Sealing
  /-- History: how many sequences were drawn. -/
  drawn : Nat

inductive Node.Event where
  /-- A packet, a keepalive round or a call of the band's own; `clock` is the time. -/
  | band (e : Python.Event) (clock : Nat)
  | controlSend (msg : ControlMessage) (dest : Option SocketAddr) (clock : Nat)
  | streamSend (object : Nat) (priority : UInt8) (data : Bytes)
  | channelTransmit (object : Nat) (frame : Bytes)
  | boardSendRaw (object : Nat) (plaintext : Bytes) (dest : Option SocketAddr)
  | dropSendFrame (object : Nat) (dest : SocketAddr) (frame : Bytes)
  /-- The loop of a call goes on with its next destination. -/
  | resume (job : Nat)

namespace Node

def new (b : Band) : Node := ⟨b, [], [], 0⟩

/-- `SequenceSource.next`. -/
def draw (n : Node) : Node :=
  { n with
    band := { n.band with seqSource := (n.band.seqSource + 1) % 2 ^ 64 }
    drawn := n.drawn + 1 }

/-- A call that draws its sequence first. -/
def begin (n : Node) (channelType : ChannelType) (channelId : Nat) (plaintext : Payload)
    (timestamp : Option Nat) (targets : Targets) : Node :=
  { n.draw with
    jobs := n.jobs ++
      [⟨channelType, channelId, plaintext, timestamp, some n.band.seqSource, targets⟩] }

/-- A call that draws a sequence for each packet. -/
def beginFresh (n : Node) (channelType : ChannelType) (channelId : Nat) (plaintext : Payload)
    (dests : List SocketAddr) : Node :=
  { n with jobs := n.jobs ++ [⟨channelType, channelId, plaintext, none, none, .listed dests⟩] }

/-- The object, if it is of the kind asked for. -/
def object (n : Node) (i : Nat) (channelType : ChannelType) : Option Endpoint :=
  (n.band.objects[i]?).filter (·.kind.channelType = channelType)

/-- Encrypt for `dest` and hand the packet to the transport. -/
def transmit (n : Node) (job : Job) (c : BandCrypto) (sequence : Nat) (dest : SocketAddr) : Node :=
  let wire : Datagram :=
    ⟨⟨deriveBandId n.band.psk, job.channelType, UInt16.ofNat job.channelId, sequence⟩,
      c.encrypt sequence job.plaintext job.aad⟩
  { n with
    band := { n.band with sent := n.band.sent ++ [(dest, wire)] }
    log := n.log ++ [⟨wire, job.timestamp⟩] }

/-- One turn of the loop of call `j`. An exception ends the call: a cipher
without an implementation, or an id that does not fit the two bytes of the
associated data. -/
def resume (n : Node) (j : Nat) : Option Node :=
  match n.jobs[j]? with
  | none => none
  | some job =>
    match job.next n.band with
    | none => some { n with jobs := n.jobs.eraseIdx j }
    | some (dest, job') =>
      match n.band.sendCrypto dest with
      | .error _ => some { n with jobs := n.jobs.eraseIdx j }
      | .ok c =>
        let sequence := job.sequence.getD n.band.seqSource
        let n := if job.sequence.isSome then n else n.draw
        if 2 ^ 16 ≤ job.channelId then some { n with jobs := n.jobs.eraseIdx j }
        else some { n.transmit job c sequence dest with jobs := n.jobs.set j job' }

/-- What the band encrypts in one of its own steps is a control message. -/
def stepBand (n : Node) (e : Python.Event) (clock : Nat) : Option Node :=
  (n.band.step e).map fun b =>
    { n with
      band := b
      log := n.log ++ (b.sent.drop n.band.sent.length).map fun p => ⟨p.2, some clock⟩
      drawn := if b.seqSource = n.band.seqSource then n.drawn else n.drawn + 1 }

def step (n : Node) : Event → Option Node
  | .band e clock => n.stepBand e clock
  | .controlSend msg dest clock =>
    some (n.begin .control 0 (.json msg.envelope) (some clock)
      (.listed (dest.elim n.band.control.destinations ([·]))))
  | .streamSend i priority data =>
    (n.object i .stream).map fun o =>
      n.begin .stream o.id (.bytes (priority :: data)) none (.live i 0)
  | .channelTransmit i frame =>
    (n.object i .channel).bind fun o =>
      match o.kind with
      | .channel peerAddr => some (n.begin .channel o.id (.bytes frame) none (.listed [peerAddr]))
      | _ => none
  | .boardSendRaw i plaintext dest =>
    (n.object i .board).map fun o =>
      n.beginFresh .board o.id (.bytes plaintext) (dest.elim o.destinations ([·]))
  | .dropSendFrame i dest frame =>
    (n.object i .drop).map fun o => n.beginFresh .drop o.id (.bytes frame) [dest]
  | .resume j => n.resume j

end Node

end Telesthete.Python
