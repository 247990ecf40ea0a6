import Telesthete.Lib.Text
import Telesthete.Wire.Crypto

/-!
# Discovery announces (SPEC §9.2)

A host announces its name and port on the local network: magic, version, one
length byte, so many bytes of name, and the port. A name of more than 255 bytes
is cut at 255. A reader takes nothing but that version and a name that is UTF-8,
and does not look at what follows the port. In the Python implementation a port
is an unbounded integer, and one that does not fit two bytes is an
`OverflowError`, here `none`.
-/

namespace Telesthete.Wire

open Telesthete.Lib Telesthete.Crypto

/-- "TELE". -/
def announceMagic : Bytes := [0x54, 0x45, 0x4c, 0x45]

def protocolVersion : UInt8 := 3

/-- How many bytes of name the length byte can count. -/
def maxHostname : Nat := 255

def packAnnounce (hostname : String) (port : UInt16) : Bytes :=
  let hb := utf8 hostname
  let hb := hb.take (min hb.length maxHostname)
  announceMagic ++ protocolVersion :: UInt8.ofNat hb.length :: hb ++ toBe 2 port.toNat

def parseAnnounce (data : Bytes) : Option (String × UInt16) :=
  if data.length < 8 ∨ data.take 4 ≠ announceMagic ∨ data.getD 4 0 ≠ protocolVersion then none
  else
    let stop := 6 + (data.getD 5 0).toNat
    if data.length < stop + 2 then none
    else
      (fromUtf8 ((data.take stop).drop 6)).map fun hostname =>
        (hostname, UInt16.ofNat (ofBe [data.getD stop 0, data.getD (stop + 1) 0]))

end Telesthete.Wire

namespace Telesthete.Python

open Telesthete.Lib Telesthete.Crypto Telesthete.Wire

def packAnnounce (hostname : String) (port : Nat) : Option Bytes :=
  let hostnameBytes := utf8 hostname
  let hostnameBytes :=
    if hostnameBytes.length > maxHostname then hostnameBytes.take maxHostname else hostnameBytes
  if port < 65536 then
    some (announceMagic ++ [protocolVersion, UInt8.ofNat hostnameBytes.length] ++ hostnameBytes ++
      toBe 2 port)
  else none

def parseAnnounce (data : Bytes) : Option (String × Nat) :=
  if data.length < 8 ∨ ¬ announceMagic.isPrefixOf data then none
  else if data.getD 4 0 ≠ protocolVersion then none
  else
    let stop := 6 + (data.getD 5 0).toNat
    if data.length < stop + 2 then none
    else
      match fromUtf8 ((data.take stop).drop 6) with
      | none => none
      | some hostname => some (hostname, ofBe ((data.take (stop + 2)).drop stop))

end Telesthete.Python
