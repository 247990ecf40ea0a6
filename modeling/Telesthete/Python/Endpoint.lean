import Telesthete.Band.Transport
import Telesthete.Lib.HighWater

/-!
# Keys and endpoints of the Python implementation

Streams, Channels, Boards and both ends of a Drop check a packet in the same
way before they look into it: its type and id, the watermark of its sender,
the sender's session key, the tag. Only then is the watermark advanced. What an
endpoint does with the packet afterwards is no part of this model; the packet
is noted as accepted.

A Python exception is an `Except.error`. Those raised here end in a handler
that drops the packet.
-/

namespace Telesthete.Python

open Telesthete.Lib Telesthete.Crypto Telesthete.Wire Telesthete.Band

inductive CryptoError where
  | unsupportedCipher (cipherId : String)
  | invalidTag
deriving DecidableEq, Repr

/-- AEAD under one negotiated suite. -/
structure BandCrypto where
  suite : Suite
  key : Key
deriving DecidableEq, Repr

namespace BandCrypto

/-- Without a session the base key, with one the data key of that epoch. -/
def new (psk : Bytes) (cipherId : String) (session : Option UInt64) :
    Except CryptoError BandCrypto :=
  match Suite.fromId cipherId with
  | none => .error (.unsupportedCipher cipherId)
  | some suite =>
    match session with
    | none => .ok ⟨suite, deriveKeyFor psk cipherId⟩
    | some epoch => .ok ⟨suite, deriveSessionKey psk cipherId epoch⟩

def encrypt (c : BandCrypto) (sequence : Nat) (data : Payload) (aad : Bytes) :
    Ciphertext Payload :=
  encryptSuite c.suite c.key sequence aad data

def decrypt (c : BandCrypto) (sequence : Nat) (ciphertext : Ciphertext Payload) (aad : Bytes) :
    Except CryptoError Payload :=
  match decryptSuite c.suite c.key sequence aad ciphertext with
  | none => .error .invalidTag
  | some data => .ok data

/-- What decrypts was sealed under this key. -/
theorem decrypt_eq_ok {c : BandCrypto} {sequence : Nat} {ciphertext : Ciphertext Payload}
    {aad : Bytes} {data : Payload} (h : c.decrypt sequence ciphertext aad = .ok data) :
    ciphertext.key = c.key ∧ ciphertext.plaintext = data := by
  unfold decrypt decryptSuite at h
  split at h
  · cases h
  · rename_i payload hopen
    obtain ⟨⟨-, hkey, -⟩, hplain⟩ := Option.ite_none_right_eq_some.mp hopen
    exact ⟨hkey, (Option.some.inj hplain).trans (Except.ok.inj h)⟩

end BandCrypto

/-- The key `recv_crypto` finds for an address: an exception, no key, or a key. -/
abbrev RecvCrypto := SocketAddr → Except CryptoError (Option BandCrypto)

inductive EndpointKind where
  | stream
  /-- A Channel talks to one peer. -/
  | channel (peerAddr : SocketAddr)
  | board
  | drop
deriving DecidableEq, Repr

def EndpointKind.channelType : EndpointKind → ChannelType
  | .stream => .stream
  | .channel _ => .channel
  | .board => .board
  | .drop => .drop

/-- A `Stream`, `Channel`, `Board`, `DropSender` or `DropReceiver` object. -/
structure Endpoint where
  kind : EndpointKind
  id : Nat
  recvWatermark : AList fun _ : SocketAddr => Nat
  /-- Where a Stream or Board sends to. -/
  destinations : List SocketAddr
  /-- History: what was authenticated and fresh, with the address it came from. -/
  accepted : List (SocketAddr × Datagram)

namespace Endpoint

def new (kind : EndpointKind) (id : Nat) (destinations : List SocketAddr) : Endpoint :=
  ⟨kind, id, ∅, destinations, []⟩

def aad (o : Endpoint) : Bytes := buildAad o.kind.channelType.toU8 (UInt16.ofNat o.id)

def addDestination (o : Endpoint) (addr : SocketAddr) : Endpoint :=
  if addr ∈ o.destinations then o else { o with destinations := o.destinations ++ [addr] }

def removeDestination (o : Endpoint) (addr : SocketAddr) : Endpoint :=
  { o with destinations := o.destinations.erase addr }

/-- Forget a peer's watermark on session restart (§3.3). -/
def resetPeer (o : Endpoint) (addr : SocketAddr) : Endpoint :=
  { o with recvWatermark := o.recvWatermark.erase addr }

/-- The checks of `handle_packet` (for the ends of a Drop, `_decrypt`), in the
order of the source: the marks to go on with and the plaintext, if it passes. -/
def check (o : Endpoint) (recvCrypto : RecvCrypto) (addr : SocketAddr) (wire : Datagram) :
    Option ((AList fun _ : SocketAddr => Nat) × Payload) :=
  if wire.header.channelType ≠ o.kind.channelType then none
  else if wire.header.channelId.toNat ≠ o.id then none
  else
    match HighWater.raise o.recvWatermark addr wire.header.sequence with
    | none => none
    | some marks =>
      match recvCrypto addr with
      | .error _ => none
      | .ok none => none
      | .ok (some c) =>
        match c.decrypt wire.header.sequence wire.ciphertext o.aad with
        | .error _ => none
        | .ok payload => some (marks, payload)

def handlePacket (o : Endpoint) (recvCrypto : RecvCrypto) (addr : SocketAddr) (wire : Datagram) :
    Endpoint :=
  match o.check recvCrypto addr wire with
  | none => o
  | some (marks, _) => { o with recvWatermark := marks, accepted := o.accepted ++ [(addr, wire)] }

theorem check_eq_some {o : Endpoint} {recvCrypto : RecvCrypto} {addr : SocketAddr}
    {wire : Datagram} {marks : AList fun _ : SocketAddr => Nat} {payload : Payload}
    (h : o.check recvCrypto addr wire = some (marks, payload)) :
    wire.header.channelType = o.kind.channelType ∧
      HighWater.raise o.recvWatermark addr wire.header.sequence = some marks ∧
      ∃ c, recvCrypto addr = .ok (some c) ∧ wire.ciphertext.key = c.key := by
  unfold check at h
  split at h
  · cases h
  · rename_i htype
    split at h
    · cases h
    · split at h
      · cases h
      · rename_i marks' hraise
        split at h
        · cases h
        · cases h
        · rename_i c hcrypto
          split at h
          · cases h
          · rename_i data hdec
            obtain ⟨rfl, rfl⟩ := Prod.mk.inj (Option.some.inj h)
            exact ⟨not_not.mp htype, hraise, c, hcrypto, (BandCrypto.decrypt_eq_ok hdec).1⟩

/-- A packet is accepted, above the mark and under the key of the moment, or
nothing happens. -/
theorem handlePacket_cases (o : Endpoint) (recvCrypto : RecvCrypto) (addr : SocketAddr)
    (wire : Datagram) :
    o.handlePacket recvCrypto addr wire = o ∨
      ∃ marks c, wire.header.channelType = o.kind.channelType ∧
        HighWater.raise o.recvWatermark addr wire.header.sequence = some marks ∧
        recvCrypto addr = .ok (some c) ∧ wire.ciphertext.key = c.key ∧
        o.handlePacket recvCrypto addr wire =
          { o with recvWatermark := marks, accepted := o.accepted ++ [(addr, wire)] } := by
  unfold handlePacket
  split
  · exact .inl rfl
  · rename_i marks payload hcheck
    obtain ⟨htype, hraise, c, hcrypto, hkey⟩ := check_eq_some hcheck
    exact .inr ⟨marks, c, htype, hraise, hcrypto, hkey, rfl⟩

end Endpoint

end Telesthete.Python
