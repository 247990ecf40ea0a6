import Telesthete.Lib.Bytes

/-!
# The Channel frame (SPEC §6.1)

A frame is a 19-byte header, `flags ‖ ack_num ‖ window ‖ seq`, followed by
data. `ackNum` and `seq` are `u64` on the wire and natural numbers here:
`serialize` writes their low 64 bits, which loses nothing below `2 ^ 64`, so
the round trip `parse_serialize` asks for that range and for the reserved
flag bits to be clear, the one thing `parse` refuses besides a short buffer.
-/

namespace Telesthete.Channel

open Telesthete.Lib

/-- §6.2 flag bits. -/
def flagSyn : UInt8 := 0x01
def flagFin : UInt8 := 0x02
def flagAck : UInt8 := 0x04
def flagRst : UInt8 := 0x08
/-- Bits 4-7 are reserved; frames with any of them set are dropped. -/
def reservedMask : UInt8 := 0xF0

def channelHeaderLen : Nat := 19

/-- Parsed §6.1 Channel plaintext payload. -/
structure ChannelFrame where
  flags : UInt8
  ackNum : Nat
  window : UInt16
  seq : Nat
  data : Bytes
deriving DecidableEq, Repr

namespace ChannelFrame

def serialize (f : ChannelFrame) : Bytes :=
  f.flags :: (toBe 8 f.ackNum ++ (toBe 2 f.window.toNat ++ (toBe 8 f.seq ++ f.data)))

/-- Parse one frame; `none` on a short frame or one with reserved bits set. -/
def parse (buf : Bytes) : Option ChannelFrame :=
  if buf.length < channelHeaderLen then none
  else
    let flags := buf.headD 0
    if flags &&& reservedMask ≠ 0 then none
    else
      some
        { flags := flags
          ackNum := ofBe ((buf.drop 1).take 8)
          window := UInt16.ofNat (ofBe ((buf.drop 9).take 2))
          seq := ofBe ((buf.drop 11).take 8)
          data := buf.drop channelHeaderLen }

/-- Whether a flag bit is set. -/
def has (f : ChannelFrame) (flag : UInt8) : Bool := f.flags &&& flag ≠ 0

/-- True if this frame consumes an inner seq on receipt: SYN, FIN, or any
data-carrying frame. Pure ACKs do not. -/
def consumesSeq (f : ChannelFrame) : Bool :=
  f.has flagSyn || f.has flagFin || !f.data.isEmpty

theorem length_serialize (f : ChannelFrame) :
    f.serialize.length = channelHeaderLen + f.data.length := by
  simp [serialize, channelHeaderLen]
  omega

/-- What is written and read back: the frame, with its two counters modulo
the width of their fields. -/
theorem parse_serialize_mod {f : ChannelFrame} (hflags : f.flags &&& reservedMask = 0) :
    parse f.serialize =
      some { f with ackNum := f.ackNum % 2 ^ 64, seq := f.seq % 2 ^ 64 } := by
  have hlen : ¬ f.serialize.length < channelHeaderLen := by
    rw [length_serialize]; omega
  have hhead : f.serialize.headD 0 = f.flags := rfl
  have hackField : (f.serialize.drop 1).take 8 = toBe 8 f.ackNum := by
    simp [serialize]
  have hwinField : (f.serialize.drop 9).take 2 = toBe 2 f.window.toNat := by
    simp [serialize]
  have hseqField : (f.serialize.drop 11).take 8 = toBe 8 f.seq := by
    simp [serialize, List.drop_append, List.take_append]
  have hdata : f.serialize.drop channelHeaderLen = f.data := by
    simp [serialize, channelHeaderLen, List.drop_append, List.drop_eq_nil_of_le]
  have hwin : UInt16.ofNat f.window.toNat = f.window := by simp
  simp only [parse, if_neg hlen, hhead, hflags, ne_eq, not_true_eq_false, if_false,
    hackField, hwinField, hseqField, hdata]
  rw [ofBe_toBe_mod 8, ofBe_toBe_mod 8, ofBe_toBe (by simpa using f.window.toNat_lt), hwin,
    show 256 ^ 8 = 2 ^ 64 by decide]

theorem parse_serialize {f : ChannelFrame} (hflags : f.flags &&& reservedMask = 0)
    (hack : f.ackNum < 2 ^ 64) (hseq : f.seq < 2 ^ 64) : parse f.serialize = some f := by
  rw [parse_serialize_mod hflags, Nat.mod_eq_of_lt hack, Nat.mod_eq_of_lt hseq]

end ChannelFrame

end Telesthete.Channel
