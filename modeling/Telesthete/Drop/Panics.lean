import Telesthete.Drop.Task

/-!
# The receiver, with its panics

`DropReceiverCore` computes what the methods of a receiver return. This file
computes whether they return: the additions to a chunk index are those of `u32`,
a vector has room for `isize::MAX` bytes at most, and a chunk that is looked up
may not be there. `none` is a panic. A frame is the bytes that arrived, of which
the JSON body of an OFFER goes through the parser `parseOffer`; the rest is line
by line what `Drop.Core` has.
-/

namespace Telesthete.Drop

open Telesthete.Lib
open Telesthete.Band (SocketAddr)

def typeOffer : UInt8 := 0x01

def typeChunk : UInt8 := 0x03

/-- `s + MAX_RANGE_CHUNKS as u32`. -/
def addWindow? (s : Nat) : Option Nat :=
  if s + maxRangeChunks < 2 ^ 32 then some (s + maxRangeChunks) else none

def splitRun? (stop : Nat) : Nat → Nat → Option (List (Nat × Nat))
  | 0, _ => some []
  | fuel + 1, s =>
    if s < stop then
      (addWindow? s).bind fun next =>
        (splitRun? stop fuel next).map fun rest => (s, min next stop) :: rest
    else some []

namespace DropReceiverCore

def missingPass? (r : DropReceiverCore) (acc : Option Nat × List (Nat × Nat)) (i : Nat) :
    Option (Option Nat × List (Nat × Nat)) :=
  let lacking := i < r.total && !decide (i ∈ r.held)
  match lacking, acc.1 with
  | true, none => some (some i, acc.2)
  | true, some _ => some acc
  | false, some start =>
    (splitRun? i (i - start) start).map fun pieces => (none, acc.2 ++ pieces)
  | false, none => some acc

def missingRanges? (r : DropReceiverCore) : Option (List (Nat × Nat)) :=
  ((List.range (r.total + 1)).foldlM r.missingPass? (none, [])).map Prod.snd

def requestMissing? (r : DropReceiverCore) : Option (DropReceiverCore × List Frame) :=
  if r.offer.isNone || r.senderAddr.isNone || r.verified.isSome then some (r, [])
  else
    r.missingRanges?.map fun ranges =>
      match ranges.head? with
      | some range =>
        ({ r with outstanding := some range }, [.request [((range.1 : Int), (range.2 : Int))]])
      | none => (r, [])

def tick? (r : DropReceiverCore) (now : Nat) : Option (DropReceiverCore × List Frame) :=
  if r.offer.isSome && r.verified.isNone &&
      r.lastProgress.all fun t => rerequestTimeout < now - t then
    { r with lastProgress := some now }.requestMissing?
  else some (r, [])

/-- `Vec::with_capacity(size)` comes first, then the chunks. -/
def finish? (sha256Hex : Bytes → String) (r : DropReceiverCore) (offer : OfferPayload) :
    Option (DropReceiverCore × List Frame) :=
  if offer.size < 2 ^ 63 then r.finish sha256Hex offer else none

def onOffer? (r : DropReceiverCore) (source : SocketAddr) (offer : OfferPayload) (now : Nat) :
    Option (DropReceiverCore × List Frame) :=
  let r := if r.namesOther offer then { r with held := ∅, verified := none } else r
  { r with
    offer := some offer
    senderAddr := some source
    lastProgress := some now }.requestMissing?

def onChunk? (sha256Hex : Bytes → String) (r : DropReceiverCore) (body : Bytes) (now : Nat) :
    Option (DropReceiverCore × List Frame) :=
  match r.offer with
  | none => some (r, [])
  | some offer =>
    if body.length < 4 then some (r, [])
    else
      let index := ofBe (body.take 4)
      if r.total ≤ index then some (r, [])
      else
        let r := r.keep index (body.drop 4) now
        if r.held.entries.length % 2 ^ 32 = r.total then r.finish? sha256Hex offer
        else if r.drained then r.requestMissing?
        else some (r, [])

/-- The frame that some bytes are, of those a receiver handles. -/
def decodeFrame (parseOffer : Bytes → Option OfferPayload) : Bytes → Option Frame
  | [] => none
  | type :: body =>
    if type = typeOffer then (parseOffer body).map .offer
    else if type = typeChunk then some (.chunk body)
    else none

def handleFrame? (parseOffer : Bytes → Option OfferPayload) (sha256Hex : Bytes → String)
    (r : DropReceiverCore) (source : SocketAddr) (frame : Bytes) (now : Nat) :
    Option (DropReceiverCore × List Frame) :=
  match decodeFrame parseOffer frame with
  | some (.offer offer) => r.onOffer? source offer now
  | some (.chunk body) => r.onChunk? sha256Hex body now
  | _ => some (r, [])

end DropReceiverCore

inductive RawInput where
  | frame (source : SocketAddr) (frame : Bytes) (now : Nat)
  | tick (now : Nat)

/-- One call of `handle_frame` or `tick`. -/
def DropReceiverCore.step? (parseOffer : Bytes → Option OfferPayload) (sha256Hex : Bytes → String)
    (r : DropReceiverCore) : RawInput → Option DropReceiverCore
  | .frame source frame now =>
    (r.handleFrame? parseOffer sha256Hex source frame now).map Prod.fst
  | .tick now => (r.tick? now).map Prod.fst

end Telesthete.Drop
