import Telesthete.Lib.Stream
import Telesthete.Relay.Frame
import Mathlib.Data.Finset.Basic

/-!
# A federation link

Two hubs share bands over a byte stream of length-prefixed messages. One queue
feeds the writer of a link: the frames for the remote, each with its band, and the
advertisements of the local bands, which are encoded beforehand and queued under a
band id that stands for them, `bandsMarker`. The writer tells the two apart by that
id alone. The reader keeps the set of bands that was last advertised to it and
injects every frame it reads into its registry, if the link is active.
-/

namespace Telesthete.Relay

open Telesthete.Lib

def tBands : UInt8 := 0x02
def tRelay : UInt8 := 0x03

def maxMsg : Nat := 4 * 1024 * 1024

/-- The band id that an encoded advertisement is queued under. -/
def bandsMarker : BandId := ⟨List.replicate 16 0xFF, rfl⟩

def encodeBands (bands : List BandId) : Bytes :=
  toBe 2 (min bands.length 65535) ++ (bands.take 65535).flatMap BandId.bytes

/-- Read up to `count` band ids; stops early where the bytes end. -/
def decodeBandIds : Nat → Bytes → Finset BandId → Finset BandId
  | 0, _, set => set
  | count + 1, payload, set =>
    if h : bandIdLen ≤ payload.length then
      let band : BandId := ⟨payload.take bandIdLen, List.length_take_of_le h⟩
      decodeBandIds count (payload.drop bandIdLen) (insert band set)
    else set

def decodeBands (payload : Bytes) : Finset BandId :=
  if payload.length < 2 then ∅
  else decodeBandIds (ofBe (payload.take 2)) (payload.drop 2) ∅

/-! ## Messages -/

/-- A message on the stream: its length as a `u32`, its type and its payload. -/
def writeMsg (t : UInt8) (payload : Bytes) : Option Bytes :=
  let len := 1 + payload.length
  if maxMsg < len % 2 ^ 32 then none else some (toBe 4 len ++ t :: payload)

/-- The first message of the bytes that have arrived. There is none while it is incomplete, and
none ever again after a length out of bounds. -/
def readMsgSplit (bs : Bytes) : Option ((UInt8 × Bytes) × Bytes) :=
  if bs.length < 4 then none
  else
    let len := ofBe (bs.take 4)
    if len = 0 ∨ maxMsg < len then none
    else
      let buf := (bs.drop 4).take len
      if buf.length < len then none
      else some ((buf.headD 0, buf.tail), (bs.drop 4).drop len)

/-! ## The two ends -/

/-- What the writer puts on the stream for an entry of its queue; none if it fails. -/
def writeEntry (entry : BandId × Bytes) : Option Bytes :=
  if entry.1 = bandsMarker then writeMsg tBands entry.2
  else writeMsg tRelay (entry.1.bytes ++ toBe 4 entry.2.length ++ entry.2)

/-- The writer drains its queue, and stops at the first failure. -/
def writer : List (BandId × Bytes) → Bytes
  | [] => []
  | entry :: queue =>
    match writeEntry entry with
    | some bs => bs ++ writer queue
    | none => []

/-- The reading end: the bands last advertised and the frames injected so far. -/
structure LinkReader where
  active : Bool
  bands : Finset BandId
  injected : List (BandId × Bytes)
deriving DecidableEq

namespace LinkReader

def new (active : Bool) : LinkReader := ⟨active, ∅, []⟩

/-- Inject a relayed frame, unless it is malformed or the link revoked. -/
def relay (l : LinkReader) (payload : Bytes) : LinkReader :=
  if h : bandIdLen + 4 ≤ payload.length then
    if l.active then
      let band : BandId := ⟨payload.take bandIdLen, List.length_take_of_le (by omega)⟩
      let flen := ofBe ((payload.drop bandIdLen).take 4)
      let start := bandIdLen + 4
      if payload.length < start + flen then l
      else { l with injected := l.injected ++ [(band, (payload.drop start).take flen)] }
    else l
  else l

def handle (l : LinkReader) (msg : UInt8 × Bytes) : LinkReader :=
  if msg.1 = tBands then { l with bands := decodeBands msg.2 }
  else if msg.1 = tRelay then l.relay msg.2
  else l

/-- The reader after some bytes have arrived. -/
def receive (active : Bool) (bs : Bytes) : LinkReader :=
  drive readMsgSplit handle bs.length (new active) bs

end LinkReader

end Telesthete.Relay
