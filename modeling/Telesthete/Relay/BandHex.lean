import Telesthete.Lib.Text
import Telesthete.Relay.Frame

/-!
# Band ids in texts (SPEC §9.6)

A WebTransport client names its band in the query of the request path, as the
hexadecimal digits of the band id. The hub cuts the text into pairs of bytes and
has each pair read as a number.

A function that can panic returns an `Option`, `none` being the panic, around
what it returns otherwise.
-/

namespace Telesthete.Relay

open Telesthete.Lib Telesthete.Crypto

/-- Two lowercase digits for every byte. -/
def bandHex (b : BandId) : String :=
  String.ofList (b.bytes.flatMap fun byte =>
    [Nat.digitChar (byte.toNat / 16), Nat.digitChar (byte.toNat % 16)])

/-- `char::to_digit(16)` of a byte taken as a character. -/
def toDigit (b : UInt8) : Option Nat :=
  if 0x30 ≤ b ∧ b ≤ 0x39 then some (b.toNat - 0x30)
  else if 0x61 ≤ b ∧ b ≤ 0x66 then some (b.toNat - 0x61 + 10)
  else if 0x41 ≤ b ∧ b ≤ 0x46 then some (b.toNat - 0x41 + 10)
  else none

def plusSign : UInt8 := 0x2b

def minusSign : UInt8 := 0x2d

/-- One digit of `from_str_radix`: multiply and add, both checked. -/
def pushDigit (acc : Nat) (b : UInt8) : Option Nat :=
  (toDigit b).bind fun d => if acc * 16 + d < 256 then some (acc * 16 + d) else none

/-- `u8::from_str_radix(src, 16).ok()`. A sign on its own is no number; before digits a plus sign
is skipped, and a minus sign is not since the type has no negative numbers. -/
def fromStrRadix : Bytes → Option UInt8
  | [] => none
  | [b] =>
    if b = plusSign ∨ b = minusSign then none
    else ([b].foldlM pushDigit 0).map UInt8.ofNat
  | b :: c :: rest =>
    let digits := if b = plusSign then c :: rest else b :: c :: rest
    (digits.foldlM pushDigit 0).map UInt8.ofNat

/-- The loop of `band_from_hex` over the positions still to fill: a pair of bytes that is no number
ends it. -/
def readPairs (text : Bytes) : List Nat → Option (Option Bytes)
  | [] => some (some [])
  | i :: rest =>
    match slice? text (i * 2) (i * 2 + 2) with
    | none => none
    | some pair =>
      match fromStrRadix pair with
      | none => some none
      | some byte => (readPairs text rest).map fun out => out.map fun bytes => byte :: bytes

/-- The array of bytes, once it has been filled. -/
def BandId.ofBytes? (bytes : Bytes) : Option BandId :=
  if h : bytes.length = bandIdLen then some ⟨bytes, h⟩ else none

def bandFromHex (s : String) : Option (Option BandId) :=
  if (utf8 s).length ≠ bandIdLen * 2 then some none
  else (readPairs (utf8 s) (List.range bandIdLen)).map fun out => out.bind BandId.ofBytes?

def defaultWtPath : String := "/telesthete"

/-- `str::split_once` at a character. -/
def splitOnce (sep : Char) : List Char → Option (List Char × List Char)
  | [] => none
  | c :: rest =>
    if c = sep then some ([], rest)
    else (splitOnce sep rest).map fun parts => (c :: parts.1, parts.2)

/-- The text of the first `band` parameter, if the path is the hub's. -/
def bandParam (path : String) : Option String :=
  (splitOnce '?' path.toList).bind fun parts =>
    if parts.1 ≠ defaultWtPath.toList then none
    else
      ((parts.2.splitOn '&').findSome? fun kv => "band=".toList.isPrefixOf? kv).map String.ofList

def parseBand (path : String) : Option (Option BandId) :=
  match bandParam path with
  | none => some none
  | some hex => bandFromHex hex

end Telesthete.Relay
