import Mathlib.Data.List.AList
import Telesthete.Band.Message
import Telesthete.Lib.Symbolic
import Telesthete.Relay.Frame

/-!
# Packets as bytes, and the receive loop on them

`Wire.Framing` keeps a packet as a header and a ciphertext that remembers what it
was made from. Here a packet is the byte string on the wire: 27 bytes of header
and what the AEAD made of the payload. The AEAD is a parameter, and so is the
type of keys.
-/

namespace Telesthete.Band.Raw

open Telesthete.Lib Telesthete.Crypto Telesthete.Wire Telesthete.Relay

def headerLen : Nat := 27

def tagLen : Nat := 16

structure Header where
  bandId : Relay.BandId
  channelType : ChannelType
  channelId : UInt16
  sequence : UInt64
deriving DecidableEq

/-- The 27 bytes of cleartext. -/
def Header.write (h : Header) : Bytes :=
  h.bandId.bytes ++ ([h.channelType.toU8] ++ (toBe 2 h.channelId.toNat ++ toBe 8 h.sequence.toNat))

inductive FramingError where
  | tooShort (len : Nat)
  | unknownChannelType (byte : UInt8)
  | crypto
deriving DecidableEq, Repr

def Header.parse (input : Bytes) : Except FramingError Header :=
  if hlen : input.length < headerLen then .error (.tooShort input.length)
  else
    match ChannelType.fromU8 (input.getD 16 0) with
    | none => .error (.unknownChannelType (input.getD 16 0))
    | some channelType =>
      .ok
        { bandId := ⟨slice input 0 16, by
            simp only [slice, headerLen, bandIdLen, List.drop_zero, List.length_take] at *
            omega⟩
          channelType := channelType
          channelId := UInt16.ofNat (ofBe (slice input 17 19))
          sequence := UInt64.ofNat (ofBe (slice input 19 27)) }

/-- The associated data a header is authenticated by. -/
def Header.aad (h : Header) : Bytes := buildAad h.channelType.toU8 h.channelId

section codec

variable {K : Type} (A : Aead Suite K)

def encodePacketSuite (suite : Suite) (key : K) (header : Header) (plaintext : Bytes) :
    Except FramingError Bytes :=
  (A.encrypt suite key (nonceBytes header.sequence.toNat) header.aad plaintext).elim
    (.error .crypto) fun ct => .ok (header.write ++ ct)

def decodePacketSuite (suite : Suite) (key : K) (packet : Bytes) :
    Except FramingError (Header × Bytes) :=
  if packet.length < minPacketLen then .error (.tooShort packet.length)
  else
    (Header.parse packet).bind fun header =>
      (A.decrypt suite key (nonceBytes header.sequence.toNat) header.aad
        (packet.drop headerLen)).elim (.error .crypto) fun plaintext => .ok (header, plaintext)

end codec

structure Inbound where
  source : SocketAddr
  header : Header
  payload : Bytes
deriving DecidableEq

/-- What the receive loop shares with the rest of the transport. -/
structure RecvLoop (K : Type) where
  baseKey : K
  peerKeys : AList fun _ : SocketAddr => K × Suite
  bandId : Relay.BandId
  /-- When each peer's last authenticated packet arrived (§4.5). -/
  lastSeen : AList fun _ : SocketAddr => Nat
  /-- The channel types somebody subscribed to. -/
  routes : List ChannelType

namespace RecvLoop

variable {K : Type} (A : Aead Suite K)

/-- The packet under the keys of the moment: the peer's session key first, then the base key. -/
def openPacket (t : RecvLoop K) (source : SocketAddr) (packet : Bytes) : Option (Header × Bytes) :=
  ((t.peerKeys.lookup source).bind fun registered =>
      (decodePacketSuite A registered.2 registered.1 packet).toOption).or
    (decodePacketSuite A .chaCha20Poly1305 t.baseKey packet).toOption

/-- What is dispatched, if anything is; foreign bands are dropped. -/
def dispatch (t : RecvLoop K) (source : SocketAddr) (packet : Bytes) : Option Inbound :=
  match t.openPacket A source packet with
  | none => none
  | some (header, payload) =>
    if header.bandId ≠ t.bandId then none else some ⟨source, header, payload⟩

/-- One turn of the loop: the peer's liveness, and what the subscriber of the type gets. -/
def receive (t : RecvLoop K) (source : SocketAddr) (packet : Bytes) (now : Nat) :
    RecvLoop K × Option Inbound :=
  match t.dispatch A source packet with
  | none => (t, none)
  | some inbound =>
    ({ t with lastSeen := t.lastSeen.insert source now },
      if t.routes.contains inbound.header.channelType then some inbound else none)

end RecvLoop

end Telesthete.Band.Raw
