import Telesthete.Drop.Core
import Telesthete.Lib.Dict

/-!
# The Python receiver of a Drop (SPEC §8)

The Python receiver does not list all missing ranges to find the next one. It keeps
`low`, an index below which nothing is missing, and looks from there; an OFFER
sets it back to zero.

A frame is what is left of an authenticated packet. A key that the object of an
OFFER lacks is `none`. Sending comes last in every method, so an error in it
changes no state.
-/

namespace Telesthete.Python.Drop

open Telesthete.Lib
open Telesthete.Band (SocketAddr)
open Telesthete.Drop (Frame maxRangeChunks rerequestTimeout splitRun)

structure Offer where
  size : Option Int
  chunkSize : Option Int
  totalChunks : Option Int
  sha256 : Option String
deriving DecidableEq

/-- `_valid_offer`: the count is that of chunks of 1024 bytes, and never zero. -/
def Offer.valid (o : Offer) : Bool :=
  (o.size.bind fun size => o.chunkSize.bind fun chunk => o.totalChunks.map fun total =>
    !(size < 0 || chunk ≠ Drop.chunkSize) && total = max 1 (-(-size).fdiv chunk)).getD false

/-- `_chunk_len`. -/
def Offer.chunkLen (o : Offer) (index : Int) : Int :=
  let total := o.totalChunks.getD 0
  if index < total - 1 then Drop.chunkSize else o.size.getD 0 - (total - 1) * Drop.chunkSize

structure DropReceiver where
  offer : Option Offer := none
  /-- The chunks there are; `have` in the code. -/
  held : Dict Int Bytes
  senderAddr : Option SocketAddr := none
  verified : Option Bool := none
  outstanding : Option (Nat × Nat) := none
  low : Nat := 0
  /-- In milliseconds. -/
  lastProgress : Int := 0

namespace DropReceiver

def total (r : DropReceiver) : Nat := ((r.offer.bind Offer.totalChunks).getD 0).toNat

def holds (r : DropReceiver) (i : Nat) : Bool := r.held.contains (i : Int)

/-- One pass of the loop of `missing_ranges`. -/
def missingPass (r : DropReceiver) (acc : Option Nat × List (Nat × Nat)) (i : Nat) :
    Option Nat × List (Nat × Nat) :=
  if i < r.total ∧ r.holds i = false then (some (acc.1.getD i), acc.2)
  else (none, acc.2 ++ acc.1.elim [] fun start => splitRun i (i - start) start)

def missingRanges (r : DropReceiver) : List (Nat × Nat) :=
  ((List.range (r.total + 1)).foldl r.missingPass (none, [])).2

/-- `while low < total and low in have`. -/
def seekLow (r : DropReceiver) : Nat → Nat → Nat
  | 0, low => low
  | fuel + 1, low => if low < r.total ∧ r.holds low = true then r.seekLow fuel (low + 1) else low

/-- `while end < limit and end not in have`. -/
def seekEnd (r : DropReceiver) (limit : Nat) : Nat → Nat → Nat
  | 0, stop => stop
  | fuel + 1, stop =>
    if stop < limit ∧ r.holds stop = false then r.seekEnd limit fuel (stop + 1) else stop

/-- Each loop ends within the number of chunks. -/
def nextMissingRange (r : DropReceiver) : DropReceiver × Option (Nat × Nat) :=
  let low := r.seekLow r.total r.low
  ({ r with low := low },
    if r.total ≤ low then none
    else some (low, r.seekEnd (min r.total (low + maxRangeChunks)) r.total (low + 1)))

def complete (r : DropReceiver) : Bool :=
  r.total ≤ r.held.length && (List.range r.total).all r.holds

def requestMissing (r : DropReceiver) : DropReceiver × List Frame :=
  if r.offer.isNone || r.senderAddr.isNone || r.verified.isSome then (r, [])
  else
    r.nextMissingRange.2.elim (r.nextMissingRange.1, []) fun window =>
      ({ r.nextMissingRange.1 with outstanding := some window },
        [.request [((window.1 : Int), (window.2 : Int))]])

def tick (r : DropReceiver) (now : Int) : DropReceiver × List Frame :=
  if r.offer.isSome && r.verified.isNone && rerequestTimeout < now - r.lastProgress then
    { r with lastProgress := now }.requestMissing
  else (r, [])

/-- An offer without a digest is an error here, before anything is changed or sent. -/
def finish (sha : Bytes → String) (r : DropReceiver) (o : Offer) : DropReceiver × List Frame :=
  let data := (List.range r.total).flatMap fun i => (r.held.get? (i : Int)).getD []
  let data := data.take (o.size.getD 0).toNat
  o.sha256.elim (r, []) fun digest =>
    ({ r with verified := some (sha data == digest) }, [.done (sha data)])

/-- Take on a valid offer. All chunks of another file are dropped, and in any case those that the
offer does not have. -/
def accept (r : DropReceiver) (peer : SocketAddr) (o : Offer) (now : Int) : DropReceiver :=
  let other := r.offer.any fun old => o.sha256 ≠ old.sha256 || o.size ≠ old.size
  let held := if other then .empty else r.held
  { r with
    offer := some o
    held := held.filter fun e =>
      0 ≤ e.1 && e.1 < o.totalChunks.getD 0 && e.2.length = o.chunkLen e.1
    senderAddr := some peer
    verified := if other then none else r.verified
    low := 0
    lastProgress := now }

def onOffer (sha : Bytes → String) (r : DropReceiver) (peer : SocketAddr) (o : Offer)
    (now : Int) : DropReceiver × List Frame :=
  if o.valid then
    let r := r.accept peer o now
    if r.complete then r.finish sha o else r.requestMissing
  else (r, [])

/-- Keep a chunk that is new and as long as it should be. -/
def store (r : DropReceiver) (o : Offer) (index : Nat) (chunk : Bytes) (now : Int) : DropReceiver :=
  if r.holds index = false ∧ chunk.length = o.chunkLen index then
    { r with held := r.held.set index chunk, lastProgress := now }
  else r

/-- A CHUNK: a big-endian index in the first four bytes, and the chunk. -/
def onChunk (sha : Bytes → String) (r : DropReceiver) (frame : Bytes) (now : Int) :
    DropReceiver × List Frame :=
  r.offer.elim (r, []) fun o =>
    let index := ofBe (frame.take 4)
    if r.total ≤ index then (r, [])
    else
      let r := r.store o index (frame.drop 4) now
      if r.complete then r.finish sha o
      else if r.outstanding.any fun w => (List.range' w.1 (w.2 - w.1)).all r.holds then
        r.requestMissing
      else (r, [])

end DropReceiver

/-- What happens to a receiver. Frames of the other types it ignores. -/
inductive Event where
  | offer (peer : SocketAddr) (o : Offer) (now : Int)
  | chunk (frame : Bytes) (now : Int)
  | tick (now : Int)
  | requestMissing

def DropReceiver.step (sha : Bytes → String) (r : DropReceiver) : Event → DropReceiver
  | .offer peer o now => (r.onOffer sha peer o now).1
  | .chunk frame now => (r.onChunk sha frame now).1
  | .tick now => (r.tick now).1
  | .requestMissing => r.requestMissing.1

end Telesthete.Python.Drop
