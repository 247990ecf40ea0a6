import Mathlib.Data.List.DropRight
import Telesthete.Relay.BandHex

/-!
# The preshared key in a configuration (spec §3)

The key is written in hexadecimal digits, or after `base64:` in base64. The
hexadecimal decoder hands pairs of bytes to the number parser, as the hub's
reader of band ids does, and like that one it panics when a pair cuts a
character. The base64 decoder shifts six bits a symbol into an accumulator that
it never clears, and skips padding and line breaks wherever they stand.
-/

namespace Telesthete.Spatial

open Telesthete.Lib Telesthete.Crypto Telesthete.Relay

/-- A key of thirty-two bytes. -/
structure Psk where
  bytes : Bytes
  length_bytes : bytes.length = 32
deriving DecidableEq

/-- `char::is_whitespace`. -/
def isWhitespace (c : Char) : Bool :=
  let v := c.toNat
  0x09 ≤ v && v ≤ 0x0d || v == 0x20 || v == 0x85 || v == 0xa0 || v == 0x1680 ||
    0x2000 ≤ v && v ≤ 0x200a || v == 0x2028 || v == 0x2029 || v == 0x202f || v == 0x205f ||
    v == 0x3000

def trim (s : String) : String :=
  String.ofList ((s.toList.dropWhile isWhitespace).rdropWhile isWhitespace)

/-- The outer `none` is the panic of a pair that cuts a character. -/
def hexDecode (s : String) : Option (Except String Bytes) :=
  let text := utf8 (trim s)
  if text.length % 2 ≠ 0 then some (.error "hex psk odd length")
  else
    (readPairs text (List.range (text.length / 2))).map fun out =>
      out.elim (.error "bad hex in psk") .ok

def base64Alphabet : String := "ABCDEFGHIJKLMNOPQRSTUVWXYZabcdefghijklmnopqrstuvwxyz0123456789+/"

/-- At each byte its place in the alphabet, 255 if it has none. -/
def rev : Bytes :=
  (utf8 base64Alphabet).zipIdx.foldl (fun rev p => rev.set p.1.toNat (UInt8.ofNat p.2))
    (List.replicate 256 255)

structure Base64Decoder where
  out : Bytes := []
  acc : UInt32 := 0
  bits : Nat := 0
deriving DecidableEq

namespace Base64Decoder

def shiftIn (acc : UInt32) (v : UInt8) : UInt32 := acc <<< 6 ||| v.toUInt32

/-- Six more bits, and a byte when there are eight. -/
def push (d : Base64Decoder) (v : UInt8) : Base64Decoder :=
  let acc := shiftIn d.acc v
  let bits := d.bits + 6
  if 8 ≤ bits then
    { out := d.out ++ [(acc >>> UInt32.ofNat (bits - 8)).toUInt8], acc := acc, bits := bits - 8 }
  else { d with acc := acc, bits := bits }

/-- Padding and line breaks. -/
def isSkipped (c : UInt8) : Bool := c == 0x3d || c == 0x0a || c == 0x0d

def step (d : Base64Decoder) (c : UInt8) : Except String Base64Decoder :=
  if isSkipped c then .ok d
  else if rev.getD c.toNat 255 = 255 then .error "bad base64 in psk"
  else .ok (d.push (rev.getD c.toNat 255))

end Base64Decoder

def b64Decode (s : String) : Except String Bytes :=
  ((utf8 s).foldlM Base64Decoder.step {}).map Base64Decoder.out

def Psk.ofBytes (bytes : Bytes) : Except String Psk :=
  if h : bytes.length = 32 then .ok ⟨bytes, h⟩
  else .error ("psk must be 32 bytes, got " ++ toString bytes.length)

def parse (s : String) : Option (Except String Psk) :=
  let decoded := ("base64:".toList.isPrefixOf? s.toList).elim (hexDecode s) fun b64 =>
    some (b64Decode (trim (String.ofList b64)))
  decoded.map fun result => result.bind Psk.ofBytes

end Telesthete.Spatial
