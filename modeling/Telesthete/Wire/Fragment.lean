import Mathlib.Data.List.AList
import Mathlib.Data.List.MinMax
import Mathlib.Data.Vector.Basic
import Telesthete.Lib.Bytes

/-!
# The message fragmentation envelope (SPEC §6.6)

A logical message larger than one Channel payload travels as chunks, each a
21-byte header followed by raw data. `fragment` cuts a message, and a
`Reassembler` collects chunks by `fragmentId` and answers the message once
every index below `total` has arrived.

The reassembler is the stateful half and the one with rules of its own:
partials expire on a clock, a byte budget evicts the oldest ones, and the
ids of evicted messages are remembered so that their late chunks do not
start over. The clock enters as an argument: `feed` takes the reading the
code makes inside the call. Times and durations are natural numbers of
nanoseconds, and `now - at` is the saturating difference `Instant` computes.

`u16` and `usize` counters are natural numbers; the two places where the
code narrows or subtracts are commented where they stand.
-/

namespace Telesthete.Wire

open Telesthete.Lib

def version : UInt8 := 0x01
def fragHeaderLen : Nat := 21
def maxChannelData : Nat := 1024
def maxChunkPayload : Nat := maxChannelData - fragHeaderLen

/-- The 16 random bytes that name one logical message. -/
abbrev FragmentId := List.Vector UInt8 16

/-- A parsed fragmentation chunk. -/
structure Chunk where
  fragmentId : FragmentId
  seq : Nat
  total : Nat
  data : Bytes
deriving DecidableEq

/-- Pack one chunk: 21-byte header, then the data. -/
def packChunk (fragmentId : FragmentId) (seq total : Nat) (data : Bytes) : Bytes :=
  version :: (fragmentId.toList ++ toBe 2 seq ++ toBe 2 total ++ data)

/-- Parse one chunk; `none` on a short, wrong-version or nonsense chunk. -/
def parseChunk (chunk : Bytes) : Option Chunk :=
  if h : chunk.length < fragHeaderLen ∨ chunk.head? ≠ some version then none
  else
    let seq := ofBe ((chunk.drop 17).take 2)
    let total := ofBe ((chunk.drop 19).take 2)
    if total = 0 ∨ seq ≥ total then none
    else
      some
        { fragmentId := ⟨(chunk.drop 1).take 16, by
            simp only [fragHeaderLen] at h; simp; omega⟩
          seq := seq
          total := total
          data := chunk.drop fragHeaderLen }

/-- The pieces `payload.chunks(chunkSize)` yields: full ones, then the rest. -/
def pieces (chunkSize : Nat) (payload : Bytes) : List Bytes :=
  (List.range ((payload.length + chunkSize - 1) / chunkSize)).map fun i =>
    (payload.drop (i * chunkSize)).take chunkSize

/-- Split `payload` into wire chunks under one `fragmentId`. The code asserts
that there are at most `0xFFFF` pieces; `none` is that assertion failing. -/
def fragment (payload : Bytes) (chunkSize : Nat) (fragmentId : FragmentId) :
    Option (List Bytes) :=
  if payload = [] then some [packChunk fragmentId 0 1 []]
  else
    let ps := pieces chunkSize payload
    if 0xFFFF < ps.length then none
    else some (ps.zipIdx.map fun p => packChunk fragmentId p.2 ps.length p.1)

/-- The chunks one message travels in under a Channel's chunk size. -/
def chunksOf (m : FragmentId × Bytes) : List Bytes := (fragment m.2 maxChunkPayload m.1).getD []

/-- Every chunk on the wire has its header. -/
theorem fragment_ne_nil {payload : Bytes} {chunkSize : Nat} {fid : FragmentId}
    {chunks : List Bytes} (h : fragment payload chunkSize fid = some chunks) :
    ∀ chunk ∈ chunks, chunk ≠ [] := by
  intro chunk hchunk
  rw [fragment] at h
  split at h
  · rw [← Option.some.inj h, List.mem_singleton] at hchunk
    simp [hchunk, packChunk]
  · simp only [Option.ite_none_left_eq_some, Option.some.injEq] at h
    rw [← h.2] at hchunk
    obtain ⟨p, -, rfl⟩ := List.mem_map.mp hchunk
    simp [packChunk]

def defaultReassemblyTimeout : Nat := 30 * 10 ^ 9
def defaultBufferLimit : Nat := 256
def defaultMaxFragments : Nat := 16384
def wireMaxFragments : Nat := 0xFFFF
def libraryMaxBufferedBytes : Nat := 64 * 1024 * 1024
def defaultEvictedMemory : Nat := 1024

/-- One message under assembly. -/
structure Partial where
  total : Nat
  parts : AList (fun _ : Nat => Bytes)
  /-- Bytes held in `parts`. -/
  size : Nat
  /-- Arrival time of the first chunk, for the timeout. -/
  firstSeen : Nat
  /-- Arrival order, so that the caps evict the oldest partial. -/
  order : Nat
deriving DecidableEq

/-- Collects fragments and emits full payloads. -/
structure Reassembler where
  buffers : AList (fun _ : FragmentId => Partial)
  limit : Nat
  maxFragments : Nat
  maxChunkPayload : Nat
  maxBufferedBytes : Option Nat
  timeout : Nat
  bytes : Nat
  evicted : AList (fun _ : FragmentId => Nat)
  evictedOrder : List (FragmentId × Nat)
  nextOrder : Nat
deriving DecidableEq

namespace Reassembler

def new : Reassembler where
  buffers := ∅
  limit := defaultBufferLimit
  maxFragments := defaultMaxFragments
  maxChunkPayload := Wire.maxChunkPayload
  maxBufferedBytes := none
  timeout := defaultReassemblyTimeout
  bytes := 0
  evicted := ∅
  evictedOrder := []
  nextOrder := 0

def withMaxChunkPayload (r : Reassembler) (m : Nat) : Reassembler :=
  { r with maxChunkPayload := max m 1 }

def withMaxFragments (r : Reassembler) (m : Nat) : Reassembler :=
  { r with maxFragments := max m 1 }

def withMaxBufferedBytes (r : Reassembler) (m : Option Nat) : Reassembler :=
  { r with maxBufferedBytes := m }

def withBufferLimit (r : Reassembler) (limit : Nat) : Reassembler :=
  { r with limit := max limit 1 }

def withTimeout (r : Reassembler) (timeout : Nat) : Reassembler := { r with timeout := timeout }

/-- A new reassembler with every limit set. -/
def configured (limit maxFragments maxChunkPayload : Nat) (maxBufferedBytes : Option Nat)
    (timeout : Nat) : Reassembler :=
  ((((new.withBufferLimit limit).withMaxFragments maxFragments).withMaxChunkPayload
    maxChunkPayload).withMaxBufferedBytes maxBufferedBytes).withTimeout timeout

/-- Bytes currently held across all partial messages. -/
def bufferedBytes (r : Reassembler) : Nat := r.bytes

/-- Number of partial messages currently buffered. -/
def pending (r : Reassembler) : Nat := r.buffers.entries.length

/-- A reassembler that accepts everything `fragment` can emit at
`chunkSize`, bounded by a byte budget that always holds one largest message.
The product saturates in the code; a chunk size anywhere near that is out of
the model's range. -/
def forChunkSize (chunkSize : Nat) : Reassembler :=
  let chunkSize := max chunkSize 1
  ((new.withMaxChunkPayload chunkSize).withMaxFragments wireMaxFragments).withMaxBufferedBytes
    (some (max libraryMaxBufferedBytes (chunkSize * wireMaxFragments)))

/-- The buffered message that arrived first, other than `exclude`. -/
def oldest (r : Reassembler) (exclude : Option FragmentId) : Option FragmentId :=
  ((r.buffers.entries.filter fun (e : Σ _ : FragmentId, Partial) => some e.1 ≠ exclude).argmin
    fun e => e.2.order).map (·.1)

def dropPartial (r : Reassembler) (fid : FragmentId) : Reassembler :=
  match r.buffers.lookup fid with
  | some p => { r with buffers := r.buffers.erase fid, bytes := r.bytes - p.size }
  | none => r

/-- The trimming loop of `evict`: forget the oldest evicted ids until at most
`defaultEvictedMemory` are left. An order entry whose id was evicted again
later names a time the map no longer holds, and is dropped without effect. -/
def trimEvicted (evicted : AList (fun _ : FragmentId => Nat)) :
    List (FragmentId × Nat) →
      AList (fun _ : FragmentId => Nat) × List (FragmentId × Nat)
  | [] => (evicted, [])
  | (old, at_) :: rest =>
    if evicted.entries.length > defaultEvictedMemory then
      trimEvicted (if evicted.lookup old = some at_ then evicted.erase old else evicted) rest
    else (evicted, (old, at_) :: rest)

/-- Drop a partial that can no longer complete and remember its id. -/
def evict (r : Reassembler) (fid : FragmentId) (now : Nat) : Reassembler :=
  let r := r.dropPartial fid
  let trimmed := trimEvicted (r.evicted.insert fid now) (r.evictedOrder ++ [(fid, now)])
  { r with evicted := trimmed.1, evictedOrder := trimmed.2 }

/-- The expiry loop of `gc` over the evicted ids, oldest first. -/
def expireEvicted (timeout now : Nat) (evicted : AList (fun _ : FragmentId => Nat)) :
    List (FragmentId × Nat) →
      AList (fun _ : FragmentId => Nat) × List (FragmentId × Nat)
  | [] => (evicted, [])
  | (fid, at_) :: rest =>
    if now - at_ > timeout then
      expireEvicted timeout now
        (if evicted.lookup fid = some at_ then evicted.erase fid else evicted) rest
    else (evicted, (fid, at_) :: rest)

/-- The ids of the partials that have expired at `now`. -/
def stale (r : Reassembler) (now : Nat) : List FragmentId :=
  (r.buffers.entries.filter fun (e : Σ _ : FragmentId, Partial) =>
    now - e.2.firstSeen > r.timeout).map (·.1)

def gc (r : Reassembler) (now : Nat) : Reassembler :=
  let expired := expireEvicted r.timeout now r.evicted r.evictedOrder
  let r := { r with evicted := expired.1, evictedOrder := expired.2 }
  (r.stale now).foldl dropPartial r

/-- The budget loop of `feed`: evict the oldest other partials until `n` more
bytes fit under `max`. The flag is `false` when only the message's own parts
were left, in which case the message itself has been evicted. Every pass
takes one partial out of `buffers`, so one pass more than there are partials
always ends the loop. -/
def makeRoom (fid : FragmentId) (n max now : Nat) : Nat → Reassembler → Reassembler × Bool
  | 0, r => (r, true)
  | fuel + 1, r =>
    if r.bytes + n > max then
      match r.oldest (some fid) with
      | some victim => makeRoom fid n max now fuel (r.evict victim now)
      | none => (r.evict fid now, false)
    else (r, true)

/-- Start an empty partial for `c` when none is buffered, evicting the oldest
message if the partials are at their limit. -/
def openPartial (r : Reassembler) (c : Chunk) (now : Nat) : Reassembler :=
  if c.fragmentId ∈ r.buffers then r
  else
    let r :=
      if r.buffers.entries.length ≥ r.limit then
        match r.oldest none with
        | some victim => r.evict victim now
        | none => r
      else r
    { r with
      buffers := r.buffers.insert c.fragmentId
        { total := c.total, parts := ∅, size := 0, firstSeen := now, order := r.nextOrder }
      nextOrder := r.nextOrder + 1 }

/-- The message a complete partial spells. The code indexes `parts` here and
would panic on a hole. -/
def assemble (p : Partial) : Bytes :=
  (List.range p.total).flatMap fun i => (p.parts.lookup i).getD []

/-- Store `c` in its partial, and answer the message if that completes it. -/
def store (r : Reassembler) (c : Chunk) : Reassembler × Option Bytes :=
  match r.buffers.lookup c.fragmentId with
  | none => (r, none)
  | some p =>
    let p := { p with
      parts := p.parts.insert c.seq c.data
      size := p.size + c.data.length }
    let bytes := r.bytes + c.data.length
    if p.parts.entries.length ≠ p.total then
      ({ r with buffers := r.buffers.insert c.fragmentId p, bytes := bytes }, none)
    else
      ({ r with buffers := r.buffers.erase c.fragmentId, bytes := bytes - p.size },
        some (assemble p))

/-- The part of `feed` after the early exits: make room, open, store. -/
def accept (r : Reassembler) (c : Chunk) (now : Nat) : Reassembler × Option Bytes :=
  if c.data.length > r.maxChunkPayload then (r, none)
  else
    match r.maxBufferedBytes with
    | none => (r.openPartial c now).store c
    | some m =>
      if c.data.length > m then (r, none)
      else
        let room := makeRoom c.fragmentId c.data.length m now (r.buffers.entries.length + 1) r
        if room.2 then (room.1.openPartial c now).store c else (room.1, none)

/-- Feed one decrypted Channel payload at clock reading `now`. -/
def feed (r : Reassembler) (chunk : Bytes) (now : Nat) : Reassembler × Option Bytes :=
  match parseChunk chunk with
  | none => (r, none)
  | some c =>
    if c.total > r.maxFragments then (r, none)
    else
      let r := r.gc now
      if c.fragmentId ∈ r.evicted then (r, none)
      else
        -- a sender that changes `total` mid-message resets its buffer
        let r :=
          match r.buffers.lookup c.fragmentId with
          | some p => if p.total ≠ c.total then r.dropPartial c.fragmentId else r
          | none => r
        match r.buffers.lookup c.fragmentId with
        | some p => if c.seq ∈ p.parts then (r, none) else r.accept c now
        | none => if c.total = 1 then (r, some c.data) else r.accept c now

end Reassembler

end Telesthete.Wire
