import Telesthete.Lib.Run
import Telesthete.Spatial.Wire

/-!
# A session of the spatial transport (TELESTHETE §4, §5)

After the handshake the two ends of a session share a key for each direction of its
TCP stream and one for each direction of its datagrams. A `Conn` splits into two
halves that share no state: `TcpHalf` seals records under a counter and opens the
records of the peer under another, and `UdpHalf` seals datagrams under the nonce
`(type, channel, seq)` that their header carries.

The ciphers are ideal: a ciphertext opens only under the key and nonce that sealed
it, to the plaintext that was sealed. On the stream, where ciphertexts are bytes, a
`RecordCipher` says which bytes a plaintext is sealed to and a ciphertext opens if
the peer has sealed it under the counter it is opened at. On datagrams a ciphertext
is named by what went into it.

A counter of the code is a `u64` that panics when it overflows (or wraps, in a build
without that check): a step that would overflow it does not exist here. The clock
only decides when a PING is due, so PINGs are sent at any time. Everything that an
attacker on the path controls is an argument: the bytes and datagrams that arrive,
and how much of a record the socket takes before it fails.
-/

namespace Telesthete.Spatial

open Telesthete.Lib

inductive Role where
  | client
  | host
deriving DecidableEq, Repr

def Role.other : Role → Role
  | .client => .host
  | .host => .client

@[simp] theorem Role.other_ne (x : Role) : x.other ≠ x := by cases x <;> decide

@[simp] theorem Role.ne_other (x : Role) : x ≠ x.other := by cases x <;> decide

@[simp] theorem Role.other_other (x : Role) : x.other.other = x := by cases x <;> rfl

theorem Role.eq_or_eq_other (x y : Role) : y = x ∨ y = x.other := by
  cases x <;> cases y <;> decide

/-! ## The stream -/

/-- What one key seals a plaintext to, at each counter. -/
structure RecordCipher where
  enc : Nat → Bytes → Bytes
  /-- The ciphertext and a tag of 16 bytes. -/
  length_enc : ∀ n p, (enc n p).length = p.length + 16

/-- The two ciphers of one end, and how many bytes of each record its socket takes before it
fails; none if it takes them all. -/
structure TcpEnv where
  tx : RecordCipher
  rx : RecordCipher
  socket : Nat → Option Nat

structure TcpHalf where
  /-- Every plaintext sealed so far; their number is the counter of `tx`. -/
  plaintexts : List Bytes
  /-- The counter of `rx`. -/
  rxCounter : Nat
  rxBuf : Bytes
  alive : Bool
  /-- Everything `poll` has returned. -/
  out : List (UInt8 × Bytes)
  /-- History: the messages the application sent. -/
  sent : List (UInt8 × Bytes)
  /-- History: every byte written to the stream, and every byte read from it. -/
  wire : Bytes
  arrived : Bytes

/-- Open a ciphertext at a counter, when the peer has sealed these plaintexts. -/
def openRecord (cipher : RecordCipher) (plaintexts : List Bytes) (counter : Nat) (ct : Bytes) :
    Option Bytes :=
  plaintexts[counter]?.filter fun p => cipher.enc counter p = ct

/-- The record a ciphertext travels in. -/
def record (ct : Bytes) : Bytes := toLe 4 ct.length ++ ct

/-- The first record of the bytes there are, if it is complete. -/
def nextRecord (buf : Bytes) : Option (Bytes × Bytes) :=
  if buf.length < 4 then none
  else
    let ctLen := ofLe (buf.take 4)
    if buf.length < 4 + ctLen then none
    else some ((buf.drop 4).take ctLen, buf.drop (4 + ctLen))

namespace TcpHalf

def new : TcpHalf where
  plaintexts := []
  rxCounter := 0
  rxBuf := []
  alive := true
  out := []
  sent := []
  wire := []
  arrived := []

def sendTcp (env : TcpEnv) (c : TcpHalf) (channel : UInt8) (msg : Bytes) : TcpHalf :=
  let counter := c.plaintexts.length
  let frame := frameTcp channel msg
  let bytes := record (env.tx.enc counter frame)
  let written := ((env.socket counter).map bytes.take).getD bytes
  { c with
    plaintexts := c.plaintexts ++ [frame]
    wire := c.wire ++ written
    alive := c.alive && written.length = bytes.length }

/-- Note a message that the application sent. -/
def note (c : TcpHalf) (m : UInt8 × Bytes) : TcpHalf := { c with sent := c.sent ++ [m] }

/-- A PING is answered on the reserved channel. -/
def onCtrl (env : TcpEnv) (c : TcpHalf) (msg : Bytes) : TcpHalf :=
  if msg.head? = some dtPing then c.sendTcp env chKeepalive [dtPong] else c

/-- The message of a record that opened. -/
def onFrame (env : TcpEnv) (c : TcpHalf) (frame : Bytes) : TcpHalf :=
  match parseTcp frame with
  | some (channel, msg) =>
    if channel = chKeepalive then c.onCtrl env msg
    else { c with out := c.out ++ [(channel, msg)] }
  | none => c

/-- Take records from the buffer until one is incomplete or does not open. Each takes bytes, so the
length of the buffer is fuel enough. -/
def drain (env : TcpEnv) (peer : List Bytes) : Nat → TcpHalf → TcpHalf
  | 0, c => c
  | fuel + 1, c =>
    match nextRecord c.rxBuf with
    | none => c
    | some (ct, rest) =>
      match openRecord env.rx peer c.rxCounter ct with
      | some frame =>
        drain env peer fuel
          ({ c with rxBuf := rest, rxCounter := c.rxCounter + 1 }.onFrame env frame)
      | none => { c with rxBuf := rest, alive := false }

/-- Read what has arrived, to the end of the stream if it was closed. -/
def read (c : TcpHalf) (bytes : Bytes) (closed : Bool) : TcpHalf :=
  { c with
    rxBuf := c.rxBuf ++ bytes
    alive := c.alive && !closed
    arrived := c.arrived ++ bytes }

def pollTcp (env : TcpEnv) (peer : List Bytes) (c : TcpHalf) (bytes : Bytes) (closed : Bool) :
    TcpHalf :=
  (c.read bytes closed).drain env peer (c.read bytes closed).rxBuf.length

end TcpHalf

/-! ## The datagrams -/

/-- What a datagram key sealed: the nonce, with the two bytes of it that are associated data, and
the plaintext. `send` is history: the number of the message it is part of. -/
structure Sealed where
  dtype : UInt8
  channel : UInt8
  seq : UInt32
  body : Bytes
  send : Nat
deriving DecidableEq

/-- A message that was output, and the number it was sent under. -/
structure Output where
  channel : UInt8
  msg : Bytes
  send : Nat
deriving DecidableEq

structure UdpHalf where
  mtu : Nat
  sessionId : Bytes
  seqTx : UInt32
  msgIdTx : UInt32
  reasm : UdpReasm
  /-- Everything `poll` has returned. -/
  out : List Output
  /-- History: every datagram sealed, the messages sent, the sequence numbers drawn. -/
  datagrams : List Sealed
  sends : Nat
  drawn : Nat

/-- Open a datagram by the nonce its header gives. -/
def Sealed.open (ct : Sealed) (dtype channel : UInt8) (seq : UInt32) : Option Bytes :=
  if ct.dtype = dtype ∧ ct.channel = channel ∧ ct.seq = seq then some ct.body else none

namespace UdpHalf

def new (mtu : Nat) (sessionId : Bytes) : UdpHalf where
  mtu := mtu
  sessionId := sessionId
  seqTx := 1
  msgIdTx := 1
  reasm := .empty
  out := []
  datagrams := []
  sends := 0
  drawn := 0

/-- Draw a sequence number and throw it away, as the fragment path does with its first. -/
def draw (c : UdpHalf) : UdpHalf := { c with seqTx := c.seqTx + 1, drawn := c.drawn + 1 }

/-- Seal a datagram under the next sequence number. -/
def emit (c : UdpHalf) (dtype channel : UInt8) (body : Bytes) : UdpHalf :=
  { c.draw with datagrams := c.datagrams ++ [⟨dtype, channel, c.seqTx, body, c.sends⟩] }

/-- The loop over the fragments from index `i` on. -/
def emitFrags (channel : UInt8) (msgId : UInt32) (count : UInt16) :
    Nat → List Bytes → UdpHalf → UdpHalf
  | _, [], c => c
  | i, slice :: rest, c =>
    emitFrags channel msgId count (i + 1) rest
      (c.emit dtFrag channel (fragBody msgId (UInt16.ofNat i) count slice))

/-- Send a message as one datagram or in fragments; an error of the socket ends the loop after
`taken` of them. -/
def sendUdp (c : UdpHalf) (channel : UInt8) (msg : Bytes) (taken : Nat) : UdpHalf :=
  let frags := fragment msg c.mtu
  let c :=
    if frags.length = 1 then c.emit dtData channel msg
    else
      let c := c.draw
      emitFrags channel c.msgIdTx (UInt16.ofNat frags.length) 0 (frags.take taken)
        { c with msgIdTx := c.msgIdTx + 1 }
  { c with sends := c.sends + 1 }

def sendUdpHello (c : UdpHalf) : UdpHalf := c.emit dtHello 0 c.sessionId

/-- What a datagram that opened does. -/
def onBody (c : UdpHalf) (dtype channel : UInt8) (seq : UInt32) (body : Bytes) :
    UdpReasm × Option Bytes :=
  if dtype = dtData then c.reasm.onData channel seq body
  else if dtype = dtFrag then
    match parseFrag body with
    | some (msgId, idx, count, slice) => c.reasm.onFrag channel msgId idx count slice
    | none => (c.reasm, none)
  else (c.reasm, none)

/-- Read a datagram: its header in the clear, and the ciphertext. -/
def pollUdp (c : UdpHalf) (dtype channel : UInt8) (seq : UInt32) (ct : Sealed) : UdpHalf :=
  match ct.open dtype channel seq with
  | some body =>
    let (reasm, msg) := c.onBody dtype channel seq body
    { c with
      reasm := reasm
      out := c.out ++ (msg.map fun m => ⟨channel, m, ct.send⟩).toList }
  | none => c

end UdpHalf

/-! ## A session -/

/-- The cipher of each end's direction of the stream, and what its socket does. -/
structure World where
  cipher : Role → RecordCipher
  socket : Role → Nat → Option Nat

/-- An end opens what the other sealed. -/
def World.env (w : World) (x : Role) : TcpEnv := ⟨w.cipher x, w.cipher x.other, w.socket x⟩

/-- Sockets that take everything, and a cipher that appends the counter as its tag. -/
def World.plain : World where
  cipher _ := ⟨fun n p => p ++ List.replicate 16 (UInt8.ofNat n), by simp⟩
  socket _ _ := none

structure Session where
  tcp : Role → TcpHalf
  udp : Role → UdpHalf

inductive Event where
  | sendTcp (x : Role) (channel : UInt8) (msg : Bytes)
  /-- The keepalive of an idle session. -/
  | ping (x : Role)
  | pollTcp (x : Role) (bytes : Bytes) (closed : Bool)
  | sendUdp (x : Role) (channel : UInt8) (msg : Bytes) (taken : Nat)
  | sendUdpHello (x : Role)
  | pollUdp (x : Role) (dtype channel : UInt8) (seq : UInt32) (ct : Sealed)

/-- `Conn::send`: the socket a message goes to. -/
def Event.send (x : Role) (channel : UInt8) (msg : Bytes) (taken : Nat) : Event :=
  if isUdp channel (msg.headD 0) then .sendUdp x channel msg taken else .sendTcp x channel msg

namespace Session

/-- A session right after its handshake. -/
def init (mtu : Role → Nat) (sessionId : Bytes) : Session where
  tcp _ := .new
  udp x := .new (mtu x) sessionId

def setTcp (s : Session) (x : Role) (c : TcpHalf) : Session :=
  { s with tcp := Function.update s.tcp x c }

def setUdp (s : Session) (x : Role) (c : UdpHalf) : Session :=
  { s with udp := Function.update s.udp x c }

/-- The counters that seal records have not overflowed. -/
def checked (s : Session) (x : Role) : Option Session :=
  if (s.tcp x).plaintexts.length < 2 ^ 64 then some s else none

/-- One event; an attacker may deliver any bytes, and any datagram whose ciphertext was sealed. -/
def exec (w : World) (s : Session) : Event → Option Session
  | .sendTcp x channel msg =>
    (s.setTcp x (((s.tcp x).note (channel, msg)).sendTcp (w.env x) channel msg)).checked x
  | .ping x => (s.setTcp x ((s.tcp x).sendTcp (w.env x) chKeepalive [dtPing])).checked x
  | .pollTcp x bytes closed =>
    (s.setTcp x
      ((s.tcp x).pollTcp (w.env x) (s.tcp x.other).plaintexts bytes closed)).checked x
  | .sendUdp x channel msg taken => some (s.setUdp x ((s.udp x).sendUdp channel msg taken))
  | .sendUdpHello x => some (s.setUdp x (s.udp x).sendUdpHello)
  | .pollUdp x dtype channel seq ct =>
    if ct ∈ (s.udp x.other).datagrams then
      some (s.setUdp x ((s.udp x).pollUdp dtype channel seq ct))
    else none

end Session

end Telesthete.Spatial
