import Telesthete.Lib.Bytes
import Telesthete.Wire.Framing

/-!
# The cleartext header, as a hub reads it

A hub holds no key. It reads the nineteen leading bytes of a frame, the band
id, the channel type and the channel id, and never looks at what follows; a
packet too short to be a frame has no routing information at all.
-/

namespace Telesthete.Relay

open Telesthete.Lib Telesthete.Wire

def bandIdLen : Nat := 16

/-- A header of 27 bytes and a tag of 16. -/
def minPacketLen : Nat := 43

/-- A band id, as bytes on the wire. -/
@[ext] structure BandId where
  bytes : Bytes
  length_bytes : bytes.length = bandIdLen
deriving DecidableEq

/-- The band of sixteen zeros. -/
def zeroBand : BandId := ⟨List.replicate 16 0, rfl⟩

/-- What a hub needs to route a frame. The channel type is `none` for a byte that names no type. -/
structure RouteInfo where
  bandId : BandId
  channelType : Option ChannelType
  channelId : UInt16
deriving DecidableEq

def routeInfo (pkt : Bytes) : Option RouteInfo :=
  if h : minPacketLen ≤ pkt.length then
    some
      { bandId := ⟨pkt.take bandIdLen, by
          rw [List.length_take, Nat.min_eq_left (le_trans (by decide) h)]⟩
        channelType := ChannelType.fromU8 (pkt.getD 16 0)
        channelId := UInt16.ofNat (ofBe [pkt.getD 17 0, pkt.getD 18 0]) }
  else none

theorem routeInfo_isSome {pkt : Bytes} : (routeInfo pkt).isSome ↔ minPacketLen ≤ pkt.length := by
  by_cases h : minPacketLen ≤ pkt.length
  · simp [routeInfo, h]
  · simp [routeInfo, h]

end Telesthete.Relay
