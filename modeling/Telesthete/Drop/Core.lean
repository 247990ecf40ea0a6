import Telesthete.Lib.Assoc
import Telesthete.Lib.Run
import Telesthete.Band.Message

/-!
# The Drop channel (SPEC §8)

A sender offers one file and serves the chunk ranges that receivers ask for; a
receiver pulls the ranges it lacks, one window at a time, and checks the digest of
what it put together. Both are sans-io cores: a method takes the state to the next
one and answers the frames to send.

The first byte of a frame is its type, here the constructor. An OFFER, a REQUEST
and a DONE carry JSON after it, which stands for the payload it encodes; the body
of a CHUNK is bytes. The digest is a parameter: nothing depends on which function
it is. Indexes and counts that the code casts to `u32` are reduced modulo `2 ^ 32`
where it does.
-/

namespace Telesthete.Drop

open Telesthete.Lib
open Telesthete.Band (SocketAddr)

/-- §8.2: the frame-data budget. -/
def chunkSize : Nat := 1024

/-- §8.1: a range spans at most this many chunks. -/
def maxRangeChunks : Nat := 64

/-- Ask again for an idle range after this many milliseconds. -/
def rerequestTimeout : Nat := 1000

structure OfferPayload where
  name : String
  size : Nat
  chunkSize : Nat
  totalChunks : Nat
  sha256 : String
deriving DecidableEq, Repr

inductive Frame where
  | offer (payload : OfferPayload)
  /-- Ranges `[start, end)` of chunk indexes, with whatever bounds the peer wrote. -/
  | request (ranges : List (Int × Int))
  | chunk (body : Bytes)
  | done (sha256 : String)
deriving DecidableEq, Repr

/-! ## The sender -/

structure DropSenderCore where
  name : String
  data : Bytes
  totalChunks : Nat
  sha256 : String
  /-- The verdict of each peer that sent a DONE. -/
  completed : AList fun _ : SocketAddr => Bool

namespace DropSenderCore

def new (sha256Hex : Bytes → String) (name : String) (data : Bytes) : DropSenderCore where
  name := name
  data := data
  totalChunks := max 1 ((data.length + chunkSize - 1) / chunkSize) % 2 ^ 32
  sha256 := sha256Hex data
  completed := ∅

/-- The OFFER that announces the file. -/
def offerFrame (s : DropSenderCore) : Frame :=
  .offer ⟨s.name, s.data.length, chunkSize, s.totalChunks, s.sha256⟩

/-- The bytes of one chunk; the last one may be short. -/
def chunk (s : DropSenderCore) (index : Nat) : Bytes :=
  let lo := index * chunkSize
  let hi := min (lo + chunkSize) s.data.length
  if s.data.length ≤ lo then [] else (s.data.drop lo).take (hi - lo)

/-- Serve one range, with its bounds clamped to the file and the window. -/
def serveRange (s : DropSenderCore) (start stop : Int) : List Frame :=
  let start := start.toNat
  let stop := min (min stop.toNat s.totalChunks) (start + maxRangeChunks)
  (List.range' start (stop - start)).map fun index => .chunk (toBe 4 index ++ s.chunk index)

/-- Handle one frame; answers the frames to send back and, for a DONE, the verdict. -/
def handleFrame (s : DropSenderCore) (source : SocketAddr) :
    Frame → DropSenderCore × List Frame × Option Bool
  | .request ranges => (s, ranges.flatMap fun r => s.serveRange r.1 r.2, none)
  | .done sha256 =>
    let ok := sha256 == s.sha256
    ({ s with completed := s.completed.insert source ok }, [], some ok)
  | _ => (s, [], none)

end DropSenderCore

/-! ## The receiver -/

structure DropReceiverCore where
  offer : Option OfferPayload
  /-- The chunks there are, by index; `have` in the code. -/
  held : AList fun _ : Nat => Bytes
  senderAddr : Option SocketAddr
  /-- None until complete, then the verdict of the digest. -/
  verified : Option Bool
  /-- The one window asked for. -/
  outstanding : Option (Nat × Nat)
  lastProgress : Option Nat
  completion : Option (Bytes × Bool)

/-- A run of missing chunks in pieces of at most a window. Each piece is nonempty, so the length
of the run is fuel enough. -/
def splitRun (stop : Nat) : Nat → Nat → List (Nat × Nat)
  | 0, _ => []
  | fuel + 1, s =>
    if s < stop then
      (s, min (s + maxRangeChunks) stop) :: splitRun stop fuel (s + maxRangeChunks)
    else []

namespace DropReceiverCore

def new (held : AList fun _ : Nat => Bytes) : DropReceiverCore where
  offer := none
  held := held
  senderAddr := none
  verified := none
  outstanding := none
  lastProgress := none
  completion := none

/-- The number of chunks offered, as the receiver reads it. -/
def total (r : DropReceiverCore) : Nat := (r.offer.map (·.totalChunks)).getD 0 % 2 ^ 32

/-- One pass of the loop of `missingRanges`: the start of the run it is in, and the ranges. -/
def missingPass (r : DropReceiverCore) (acc : Option Nat × List (Nat × Nat)) (i : Nat) :
    Option Nat × List (Nat × Nat) :=
  let lacking := i < r.total && !decide (i ∈ r.held)
  match lacking, acc.1 with
  | true, none => (some i, acc.2)
  | true, some _ => acc
  | false, some start => (none, acc.2 ++ splitRun i (i - start) start)
  | false, none => acc

/-- The runs of chunks that are lacking. -/
def missingRanges (r : DropReceiverCore) : List (Nat × Nat) :=
  ((List.range (r.total + 1)).foldl r.missingPass (none, [])).2

/-- Ask for the next missing window. -/
def requestMissing (r : DropReceiverCore) : DropReceiverCore × List Frame :=
  if r.offer.isNone || r.senderAddr.isNone || r.verified.isSome then (r, [])
  else
    match r.missingRanges.head? with
    | some range =>
      ({ r with outstanding := some range }, [.request [((range.1 : Int), (range.2 : Int))]])
    | none => (r, [])

/-- Ask again if nothing arrived for too long. -/
def tick (r : DropReceiverCore) (now : Nat) : DropReceiverCore × List Frame :=
  if r.offer.isSome && r.verified.isNone &&
      r.lastProgress.all fun t => rerequestTimeout < now - t then
    { r with lastProgress := some now }.requestMissing
  else (r, [])

/-- The chunks in order, cut to the size of the file; none where the code would panic on a chunk
that is not there. -/
def assemble (r : DropReceiverCore) (total size : Nat) : Option Bytes :=
  ((List.range total).mapM fun i => r.held.lookup i).map fun chunks => chunks.flatten.take size

/-- Put the file together and answer the verdict on it. -/
def finish (sha256Hex : Bytes → String) (r : DropReceiverCore) (offer : OfferPayload) :
    Option (DropReceiverCore × List Frame) :=
  (r.assemble (offer.totalChunks % 2 ^ 32) offer.size).map fun data =>
    let hex := sha256Hex data
    let ok := hex == offer.sha256
    ({ r with verified := some ok, completion := some (data, ok) }, [.done hex])

/-- What an OFFER does: another file than the one before starts over. -/
def onOffer (r : DropReceiverCore) (source : SocketAddr) (offer : OfferPayload) (now : Nat) :
    DropReceiverCore × List Frame :=
  let other := r.offer.any fun prev => offer.sha256 != prev.sha256 || offer.size != prev.size
  let r := if other then { r with held := ∅, verified := none } else r
  { r with
    offer := some offer
    senderAddr := some source
    lastProgress := some now }.requestMissing

/-- Keep a chunk that was not there. -/
def keep (r : DropReceiverCore) (index : Nat) (bytes : Bytes) (now : Nat) : DropReceiverCore :=
  if index ∈ r.held then r
  else { r with held := r.held.insert index bytes, lastProgress := some now }

/-- Everything asked for in the last window is there. -/
def drained (r : DropReceiverCore) : Bool :=
  r.outstanding.any fun w => (List.range' w.1 (w.2 - w.1)).all fun i => decide (i ∈ r.held)

def onChunk (sha256Hex : Bytes → String) (r : DropReceiverCore) (body : Bytes) (now : Nat) :
    Option (DropReceiverCore × List Frame) :=
  match r.offer with
  | none => some (r, [])
  | some offer =>
    if body.length < 4 then some (r, [])
    else
      let index := ofBe (body.take 4)
      if r.total ≤ index then some (r, [])
      else
        let r := r.keep index (body.drop 4) now
        if r.held.entries.length % 2 ^ 32 = r.total then r.finish sha256Hex offer
        else if r.drained then some r.requestMissing
        else some (r, [])

/-- Handle one frame; answers the frames for the sender. None is a panic. -/
def handleFrame (sha256Hex : Bytes → String) (r : DropReceiverCore) (source : SocketAddr)
    (frame : Frame) (now : Nat) : Option (DropReceiverCore × List Frame) :=
  match frame with
  | .offer offer => some (r.onOffer source offer now)
  | .chunk body => r.onChunk sha256Hex body now
  | _ => some (r, [])

def takeCompletion (r : DropReceiverCore) : DropReceiverCore × Option (Bytes × Bool) :=
  ({ r with completion := none }, r.completion)

end DropReceiverCore

/-! ## A transfer

The two cores over a network that loses, duplicates and reorders: a frame that was
ever sent may arrive at any time, any number of times or never. The sender also
serves other peers, and what it sent to them may arrive here too. -/

structure Transfer where
  sender : DropSenderCore
  receiver : DropReceiverCore
  /-- Every frame the sender ever sent. -/
  served : List Frame
  /-- Every frame the receiver ever sent. -/
  asked : List Frame

inductive Event where
  /-- The sender sends its OFFER. -/
  | offer
  /-- Another peer asks the sender for ranges. -/
  | request (source : SocketAddr) (ranges : List (Int × Int))
  | toReceiver (source : SocketAddr) (frame : Frame) (now : Nat)
  | toSender (source : SocketAddr) (frame : Frame)
  | tick (now : Nat)
  | takeCompletion

namespace Transfer

def init (sha256Hex : Bytes → String) (name : String) (file : Bytes)
    (held : AList fun _ : Nat => Bytes) : Transfer :=
  ⟨.new sha256Hex name file, .new held, [], []⟩

/-- The sender moved on and sent some frames. -/
def sent (t : Transfer) (out : DropSenderCore × List Frame × Option Bool) : Transfer :=
  { t with sender := out.1, served := t.served ++ out.2.1 }

/-- The receiver moved on and sent some frames. -/
def received (t : Transfer) (out : DropReceiverCore × List Frame) : Transfer :=
  { t with receiver := out.1, asked := t.asked ++ out.2 }

def exec (sha256Hex : Bytes → String) (t : Transfer) : Event → Option Transfer
  | .offer => some { t with served := t.served ++ [t.sender.offerFrame] }
  | .request source ranges => some (t.sent (t.sender.handleFrame source (.request ranges)))
  | .toReceiver source frame now =>
    if frame ∈ t.served then
      (t.receiver.handleFrame sha256Hex source frame now).map t.received
    else none
  | .toSender source frame =>
    if frame ∈ t.asked then some (t.sent (t.sender.handleFrame source frame)) else none
  | .tick now => some (t.received (t.receiver.tick now))
  | .takeCompletion => some { t with receiver := t.receiver.takeCompletion.1 }

/-- The states of a transfer of `file` to a receiver that starts with `held`. -/
def Reachable (sha256Hex : Bytes → String) (name : String) (file : Bytes)
    (held : AList fun _ : Nat => Bytes) (t : Transfer) : Prop :=
  GuardedRun (exec sha256Hex) (fun _ _ => True) (init sha256Hex name file held) t

end Transfer

/-! ## The pull loop

A receiver and a sender that take turns: what the receiver sends goes to the sender, and everything
the sender serves comes back, in some order and at some times. One such exchange is a round. -/

/-- Take frames one after the other, each at its time; answers the frames sent on the way. -/
def DropReceiverCore.feed (sha256Hex : Bytes → String) (source : SocketAddr) :
    DropReceiverCore → List (Frame × Nat) → Option (DropReceiverCore × List Frame)
  | r, [] => some (r, [])
  | r, (frame, now) :: rest =>
    (r.handleFrame sha256Hex source frame now).bind fun out =>
      (feed sha256Hex source out.1 rest).map fun last => (last.1, out.2 ++ last.2)

/-- What the sender serves for these frames. -/
def DropSenderCore.answers (s : DropSenderCore) (peer : SocketAddr) (frames : List Frame) :
    List Frame :=
  frames.flatMap fun f => (s.handleFrame peer f).2.1

/-- So many rounds, from a receiver and the frames it has just sent to the same later. The sender
does not change: only a DONE would change it. -/
inductive Rounds (sha256Hex : Bytes → String) (s : DropSenderCore) (peer source : SocketAddr) :
    Nat → DropReceiverCore × List Frame → DropReceiverCore × List Frame → Prop where
  | refl {x : DropReceiverCore × List Frame} : Rounds sha256Hex s peer source 0 x x
  | round {n : Nat} {x y z : DropReceiverCore × List Frame} {fed : List (Frame × Nat)} :
      (fed.map Prod.fst).Perm (s.answers peer x.2) →
      x.1.feed sha256Hex source fed = some y → Rounds sha256Hex s peer source n y z →
      Rounds sha256Hex s peer source (n + 1) x z

end Telesthete.Drop
