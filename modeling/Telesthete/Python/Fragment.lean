import Telesthete.Lib.Dict
import Telesthete.Wire.Fragment

/-!
# The reassembler of the Python implementation (SPEC §6.6)

The same envelope and the same caps as `Wire.Reassembler`, kept differently. A
partial carries no arrival number: the oldest one is found by its time, and among
equal times it is the one that was put into the dictionary first. The evicted ids
are a dictionary of their times, whose first key is the oldest.

A call reads the clock at several places; here all of them see the reading `now`.
Times are exact, and so are the integers, which Python does not bound; a limit may
be negative, and the constructor refuses some of those. An exception, and a loop
that does not end, is `none`.
-/

namespace Telesthete.Python.Fragment

open Telesthete.Lib Telesthete.Wire

def headerSize : Nat := 21

/-- Parse one chunk into its id, index, total and data. -/
def parseChunk (chunk : Bytes) : Option Chunk :=
  if h : chunk.length < headerSize then none
  else
    let seq := ofBe ((chunk.drop 17).take 2)
    let total := ofBe ((chunk.drop 19).take 2)
    if chunk.getD 0 0 ≠ version ∨ total = 0 ∨ seq ≥ total then none
    else
      some
        { fragmentId := ⟨(chunk.drop 1).take 16, by
            simp only [headerSize] at h; simp; omega⟩
          seq := seq
          total := total
          data := chunk.drop headerSize }

structure Partial where
  total : Nat
  parts : AList (fun _ : Nat => Bytes)
  firstSeen : Int
  /-- Bytes held in `parts`. -/
  size : Int

def Partial.complete (buf : Partial) : Bool := buf.parts.entries.length = buf.total

/-- `none` is the `KeyError` of a missing part. -/
def Partial.assemble (buf : Partial) : Option Bytes :=
  ((List.range buf.total).mapM fun i => buf.parts.lookup i).map List.flatten

structure Reassembler where
  buffers : Dict FragmentId Partial
  timeout : Int
  limit : Int
  maxFragments : Int
  maxBytes : Option Int
  maxChunk : Int
  bytes : Int
  evicted : Dict FragmentId Int

namespace Reassembler

/-- The constructor, and the texts of its `ValueError`s. -/
def init (timeout bufferLimit maxFragments : Int) (maxBufferedBytes : Option Int)
    (maxChunkPayload : Int) : Except String Reassembler :=
  if maxFragments < 1 then .error "max_fragments must be >= 1"
  else if maxChunkPayload < 1 then .error "max_chunk_payload must be >= 1"
  else if maxBufferedBytes.any (· < 0) then .error "max_buffered_bytes must be >= 0 or None"
  else
    .ok
      { buffers := .empty
        timeout := timeout
        limit := bufferLimit
        maxFragments := maxFragments
        maxBytes := maxBufferedBytes
        maxChunk := maxChunkPayload
        bytes := 0
        evicted := .empty }

def bufferedBytes (s : Reassembler) : Int := s.bytes

def pending (s : Reassembler) : Nat := s.buffers.length

/-- One entry of the scan for the oldest partial. -/
def older (exclude : Option FragmentId) (best : Option (FragmentId × Int))
    (e : FragmentId × Partial) : Option (FragmentId × Int) :=
  if some e.1 ≠ exclude ∧ best.all (e.2.firstSeen < ·.2) then some (e.1, e.2.firstSeen) else best

def oldest (s : Reassembler) (exclude : Option FragmentId) : Option FragmentId :=
  (s.buffers.entries.foldl (older exclude) none).map Prod.fst

def drop (s : Reassembler) (fid : FragmentId) : Reassembler :=
  match s.buffers.get? fid with
  | some buf => { s with buffers := s.buffers.pop fid, bytes := s.bytes - buf.size }
  | none => s

/-- Drop a partial that can no longer complete and remember its id. -/
def evict (s : Reassembler) (fid : FragmentId) (now : Int) : Reassembler :=
  let s := s.drop fid
  { s with evicted := ((s.evicted.pop fid).set fid now).trim defaultEvictedMemory }

def gcStale (s : Reassembler) (now : Int) : Reassembler :=
  let cutoff := now - s.timeout
  let s := { s with evicted := s.evicted.popWhile fun e => e.2 < cutoff }
  let stale := (s.buffers.entries.filter fun e => e.2.firstSeen < cutoff).map Prod.fst
  stale.foldl drop s

/-- The budget loop; `none` in the answer is a message that cannot fit. -/
def makeRoom (fid : FragmentId) (n max now : Int) :
    Nat → Reassembler → Option (Reassembler × Bool)
  | 0, _ => none
  | fuel + 1, s =>
    if s.bytes + n > max then
      match s.oldest (some fid) with
      | some victim => makeRoom fid n max now fuel (s.evict victim now)
      | none => some (s.evict fid now, false)
    else some (s, true)

/-- Room for one more partial. `none` is the exception of evicting the oldest of no partials. -/
def makeSlot (s : Reassembler) (now : Int) : Option Reassembler :=
  if (s.buffers.length : Int) ≥ s.limit then
    match s.oldest none with
    | some victim => some (s.evict victim now)
    | none => none
  else some s

/-- Open a partial for a message without one. -/
def openPartial (s : Reassembler) (c : Chunk) (now : Int) : Option (Reassembler × Partial) :=
  (s.makeSlot now).map fun s =>
    let buf : Partial := { total := c.total, parts := ∅, firstSeen := now, size := 0 }
    ({ s with buffers := s.buffers.set c.fragmentId buf }, buf)

/-- Put the chunk into the partial, which the dictionary shares, and answer a complete message. -/
def store (s : Reassembler) (c : Chunk) (buf : Partial) : Option (Reassembler × Option Bytes) :=
  let buf := { buf with
    parts := buf.parts.insert c.seq c.data
    size := buf.size + c.data.length }
  let s := { s with
    buffers := s.buffers.set c.fragmentId buf
    bytes := s.bytes + c.data.length }
  if !buf.complete then some (s, none)
  else buf.assemble.map fun out => (s.drop c.fragmentId, some out)

/-- What follows the budget: open a partial if there is none, then store. -/
def place (s : Reassembler) (c : Chunk) (buf : Option Partial) (now : Int) :
    Option (Reassembler × Option Bytes) :=
  match buf with
  | some buf => s.store c buf
  | none => (s.openPartial c now).bind fun opened => opened.1.store c opened.2

/-- The part of `feed` after the early exits. -/
def accept (s : Reassembler) (c : Chunk) (buf : Option Partial) (now : Int) :
    Option (Reassembler × Option Bytes) :=
  if (c.data.length : Int) > s.maxChunk then some (s, none)
  else
    match s.maxBytes with
    | none => s.place c buf now
    | some max =>
      if (c.data.length : Int) > max then some (s, none)
      else
        (makeRoom c.fragmentId c.data.length max now (s.buffers.length + 1) s).bind fun room =>
          if room.2 then room.1.place c buf now else some (room.1, none)

/-- Feed one decrypted Channel payload. -/
def feed (s : Reassembler) (chunk : Bytes) (now : Int) : Option (Reassembler × Option Bytes) :=
  match parseChunk chunk with
  | none => some (s, none)
  | some c =>
    if (c.total : Int) > s.maxFragments then some (s, none)
    else
      let s := s.gcStale now
      if s.evicted.contains c.fragmentId then some (s, none)
      else
        match s.buffers.get? c.fragmentId with
        | some buf =>
          if buf.total ≠ c.total then
            -- total mismatch, resetting
            let s := s.drop c.fragmentId
            if c.total = 1 then some (s, some c.data) else s.accept c none now
          else if c.seq ∈ buf.parts then some (s, none)
          else s.accept c (some buf) now
        | none => if c.total = 1 then some (s, some c.data) else s.accept c none now

end Reassembler

end Telesthete.Python.Fragment
