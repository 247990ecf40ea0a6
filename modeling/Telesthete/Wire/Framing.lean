import Telesthete.Wire.Crypto

/-!
# Packets (SPEC §1)

A packet is a cleartext header and a ciphertext. The nonce is the header's
sequence and the associated data its channel type and id, so those three
header fields are authenticated; the band id is not, and is compared by the
receiver after decryption.

Packets stand here for the byte strings `encode_packet_suite` produces, so
the length and channel type checks of `decode_packet_suite`, which such a
string always passes, have no counterpart.
-/

namespace Telesthete.Wire

open Telesthete.Lib Telesthete.Crypto

/-- Multiplexing selector (§2). -/
inductive ChannelType where
  | control
  | stream
  | channel
  | board
  | drop
  | route
  | addressed
deriving DecidableEq, Repr

def ChannelType.toU8 : ChannelType → UInt8
  | .control => 0x00
  | .stream => 0x01
  | .channel => 0x02
  | .board => 0x03
  | .drop => 0x04
  | .route => 0x05
  | .addressed => 0x06

def ChannelType.fromU8 (x : UInt8) : Option ChannelType :=
  if x = 0x00 then some .control
  else if x = 0x01 then some .stream
  else if x = 0x02 then some .channel
  else if x = 0x03 then some .board
  else if x = 0x04 then some .drop
  else if x = 0x05 then some .route
  else if x = 0x06 then some .addressed
  else none

theorem ChannelType.fromU8_toU8 (t : ChannelType) : fromU8 t.toU8 = some t := by
  cases t <;> decide

structure Header where
  bandId : BandId
  channelType : ChannelType
  channelId : UInt16
  sequence : Nat
deriving DecidableEq, Repr

structure Packet (π : Type) where
  header : Header
  ciphertext : Ciphertext π
deriving DecidableEq, Repr

variable {π : Type}

/-- The associated data a header is authenticated by. -/
def Header.aad (h : Header) : Bytes := buildAad h.channelType.toU8 h.channelId

def encodePacketSuite (suite : Suite) (key : Key) (header : Header) (plaintext : π) : Packet π :=
  ⟨header, encryptSuite suite key header.sequence header.aad plaintext⟩

def decodePacketSuite (suite : Suite) (key : Key) (packet : Packet π) : Option (Header × π) :=
  (decryptSuite suite key packet.header.sequence packet.header.aad packet.ciphertext).map
    fun plaintext => (packet.header, plaintext)

theorem decodePacketSuite_encode {suite suite' : Suite} {key key' : Key} {header : Header}
    {plaintext : π} :
    decodePacketSuite suite key (encodePacketSuite suite' key' header plaintext) =
      if suite' = suite ∧ key' = key then some (header, plaintext) else none := by
  unfold decodePacketSuite encodePacketSuite encryptSuite decryptSuite
  by_cases h : suite' = suite ∧ key' = key
  · rw [if_pos h, if_pos ⟨h.1, h.2, rfl, rfl⟩]
    rfl
  · rw [if_neg h, if_neg (fun hall => h ⟨hall.1, hall.2.1⟩)]
    rfl

/-- What decodes was sealed with what opened it, and is the plaintext. -/
theorem decodePacketSuite_eq_some {suite : Suite} {key : Key} {packet : Packet π}
    {header : Header} {plaintext : π}
    (h : decodePacketSuite suite key packet = some (header, plaintext)) :
    packet.header = header ∧ packet.ciphertext.key = key ∧
      packet.ciphertext.plaintext = plaintext := by
  obtain ⟨m, hm, heq⟩ := Option.map_eq_some_iff.mp h
  obtain ⟨hheader, rfl⟩ := Prod.mk.inj heq
  obtain ⟨⟨-, hkey, -⟩, hplain⟩ := Option.ite_none_right_eq_some.mp hm
  exact ⟨hheader, hkey, Option.some.inj hplain⟩

end Telesthete.Wire
