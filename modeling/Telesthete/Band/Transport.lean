import Mathlib.Data.List.AList
import Telesthete.Band.Message

/-!
# The transport: key tables, sending, decoding

One socket per band. A HELLO or HELLO_ACK is sealed under the base key, so
that a receiver can learn the sender's epoch from it; everything else goes
under the sender's session key for that peer. The receive loop tries the key
registered for the source address, then the base key.

Sending a packet is one step here: the sequence number is drawn, the key is
looked up and the packet is on the wire.
-/

namespace Telesthete.Band

open Telesthete.Lib Telesthete.Crypto Telesthete.Wire

abbrev Datagram := Packet Payload

/-- An inbound packet, decoded. -/
structure Inbound where
  source : SocketAddr
  header : Header
  payload : Payload
  /-- History: the datagram it was decoded from. -/
  wire : Datagram
deriving DecidableEq, Repr

/-- A packet to be encrypted and sent. -/
structure Outbound where
  dest : SocketAddr
  channelType : ChannelType
  channelId : UInt16
  plaintext : Payload
  /-- Encrypt under the base key rather than the session data key. -/
  useBaseKey : Bool

/-- A per-peer table of keys with their suite. -/
abbrev KeyTable := AList fun _ : SocketAddr => Key × Suite

structure Transport where
  baseKey : Key
  sessionKey : Key
  sendKeys : KeyTable
  peerKeys : KeyTable
  /-- When each peer's last authenticated packet arrived (§4.5). -/
  lastSeen : AList fun _ : SocketAddr => Nat
  bandId : BandId
  seq : Nat

namespace Transport

/-- A bound transport; `seq` is where the sequence counter was seeded. -/
def bind (key : Key) (bandId : BandId) (seq : Nat) : Transport where
  baseKey := key
  sessionKey := key
  sendKeys := ∅
  peerKeys := ∅
  lastSeen := ∅
  bandId := bandId
  seq := seq

def setSessionKey (t : Transport) (key : Key) : Transport := { t with sessionKey := key }

def registerPeerKey (t : Transport) (addr : SocketAddr) (key : Key) (suite : Suite) : Transport :=
  { t with peerKeys := t.peerKeys.insert addr (key, suite) }

def registerSendKey (t : Transport) (addr : SocketAddr) (key : Key) (suite : Suite) : Transport :=
  { t with sendKeys := t.sendKeys.insert addr (key, suite) }

/-- What `forget_peer` does under each of the three locks it takes in turn. -/
inductive Forget where
  | lastSeen (addr : SocketAddr)
  | peerKey (addr : SocketAddr)
  | sendKey (addr : SocketAddr)
deriving DecidableEq, Repr

/-- Forget a peer's liveness and key state (dead-peer eviction, GOODBYE). -/
def forgetPeer (addr : SocketAddr) : List Forget := [.lastSeen addr, .peerKey addr, .sendKey addr]

def forget (t : Transport) : Forget → Transport
  | .lastSeen addr => { t with lastSeen := t.lastSeen.erase addr }
  | .peerKey addr => { t with peerKeys := t.peerKeys.erase addr }
  | .sendKey addr => { t with sendKeys := t.sendKeys.erase addr }

/-- Note that an authenticated packet arrived. -/
def refresh (t : Transport) (addr : SocketAddr) (now : Nat) : Transport :=
  { t with lastSeen := t.lastSeen.insert addr now }

/-- The key and suite `out` is sealed with. -/
def sealingKey (t : Transport) (out : Outbound) : Key × Suite :=
  if out.useBaseKey then (t.baseKey, .chaCha20Poly1305)
  else (t.sendKeys.lookup out.dest).getD (t.sessionKey, .chaCha20Poly1305)

/-- Draw a sequence, encrypt, send. -/
def send (t : Transport) (out : Outbound) : Transport × Datagram :=
  let (key, suite) := t.sealingKey out
  let header := ⟨t.bandId, out.channelType, out.channelId, t.seq⟩
  ({ t with seq := (t.seq + 1) % 2 ^ 64 }, encodePacketSuite suite key header out.plaintext)

/-- The receive loop's decoding of one datagram under the keys of the moment:
the peer's session key first, then the base key; foreign bands are dropped. -/
def decode (t : Transport) (source : SocketAddr) (wire : Datagram) : Option Inbound := do
  let (header, payload) ←
    ((t.peerKeys.lookup source).bind fun (key, suite) => decodePacketSuite suite key wire).or
      (decodePacketSuite .chaCha20Poly1305 t.baseKey wire)
  if header.bandId = t.bandId then some ⟨source, header, payload, wire⟩ else none

/-- A decoded packet is what the sender sealed, under the base key or under
the key registered for the address it came from. -/
theorem decode_eq_some {t : Transport} {source : SocketAddr} {wire : Datagram} {pkt : Inbound}
    (h : t.decode source wire = some pkt) :
    pkt = ⟨source, wire.header, wire.ciphertext.plaintext, wire⟩ ∧
      (wire.ciphertext.key = t.baseKey ∨
        ∃ suite, t.peerKeys.lookup source = some (wire.ciphertext.key, suite)) := by
  obtain ⟨⟨header, payload⟩, hopen, hband⟩ := Option.bind_eq_some_iff.mp h
  obtain ⟨-, hpkt⟩ := Option.ite_none_right_eq_some.mp hband
  rcases Option.or_eq_some_iff.mp hopen with hpeer | ⟨-, hbase⟩
  · obtain ⟨⟨key, suite⟩, hkey, hdec⟩ := Option.bind_eq_some_iff.mp hpeer
    obtain ⟨rfl, rfl, rfl⟩ := decodePacketSuite_eq_some hdec
    exact ⟨(Option.some.inj hpkt).symm, .inr ⟨suite, hkey⟩⟩
  · obtain ⟨rfl, hbaseKey, rfl⟩ := decodePacketSuite_eq_some hbase
    exact ⟨(Option.some.inj hpkt).symm, .inl hbaseKey⟩

end Transport

end Telesthete.Band
