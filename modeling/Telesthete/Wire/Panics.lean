import Telesthete.Wire.Fragment

/-!
# The reassembler, with its panics

`Reassembler.feed` computes what a call returns. This file computes whether it
returns: every subtraction of a counter is checked, every index and every
`unwrap` may fail, and the eviction loop gets a number of passes after which it
is cut off. `none` is a call that does not come back with an answer. The rest is
line by line what `Wire.Fragment` has.
-/

namespace Telesthete.Wire

open Telesthete.Lib

/-- `a - b` of two `usize`. -/
def checkedSub (a b : Nat) : Option Nat := if b ≤ a then some (a - b) else none

namespace Reassembler

def dropPartial? (r : Reassembler) (fid : FragmentId) : Option Reassembler :=
  match r.buffers.lookup fid with
  | some p =>
    (checkedSub r.bytes p.size).map fun bytes =>
      { r with buffers := r.buffers.erase fid, bytes := bytes }
  | none => some r

def evict? (r : Reassembler) (fid : FragmentId) (now : Nat) : Option Reassembler :=
  (r.dropPartial? fid).map fun r =>
    let trimmed := trimEvicted (r.evicted.insert fid now) (r.evictedOrder ++ [(fid, now)])
    { r with evicted := trimmed.1, evictedOrder := trimmed.2 }

def gc? (r : Reassembler) (now : Nat) : Option Reassembler :=
  let expired := expireEvicted r.timeout now r.evicted r.evictedOrder
  let r := { r with evicted := expired.1, evictedOrder := expired.2 }
  (r.stale now).foldlM dropPartial? r

/-- The budget loop, cut off after so many passes. -/
def makeRoom? (fid : FragmentId) (n max now : Nat) :
    Nat → Reassembler → Option (Reassembler × Bool)
  | 0, _ => none
  | fuel + 1, r =>
    if r.bytes + n > max then
      match r.oldest (some fid) with
      | some victim => (r.evict? victim now).bind (makeRoom? fid n max now fuel)
      | none => (r.evict? fid now).map fun r => (r, false)
    else some (r, true)

def openPartial? (r : Reassembler) (c : Chunk) (now : Nat) : Option Reassembler :=
  if c.fragmentId ∈ r.buffers then some r
  else
    let room :=
      if r.buffers.entries.length ≥ r.limit then
        match r.oldest none with
        | some victim => r.evict? victim now
        | none => some r
      else some r
    room.map fun r =>
      { r with
        buffers := r.buffers.insert c.fragmentId
          { total := c.total, parts := ∅, size := 0, firstSeen := now, order := r.nextOrder }
        nextOrder := r.nextOrder + 1 }

/-- `part.parts[&i]` for every index below the total. -/
def assemble? (p : Partial) : Option Bytes :=
  ((List.range p.total).mapM fun i => p.parts.lookup i).map List.flatten

def store? (r : Reassembler) (c : Chunk) : Option (Reassembler × Option Bytes) :=
  match r.buffers.lookup c.fragmentId with
  | none => none
  | some p =>
    let p := { p with
      parts := p.parts.insert c.seq c.data
      size := p.size + c.data.length }
    let bytes := r.bytes + c.data.length
    if p.parts.entries.length ≠ p.total then
      some ({ r with buffers := r.buffers.insert c.fragmentId p, bytes := bytes }, none)
    else
      (checkedSub bytes p.size).bind fun bytes =>
        (assemble? p).map fun out =>
          ({ r with buffers := r.buffers.erase c.fragmentId, bytes := bytes }, some out)

def accept? (fuel : Nat) (r : Reassembler) (c : Chunk) (now : Nat) :
    Option (Reassembler × Option Bytes) :=
  if c.data.length > r.maxChunkPayload then some (r, none)
  else
    match r.maxBufferedBytes with
    | none => (r.openPartial? c now).bind fun r => r.store? c
    | some m =>
      if c.data.length > m then some (r, none)
      else
        (makeRoom? c.fragmentId c.data.length m now fuel r).bind fun room =>
          if room.2 then (room.1.openPartial? c now).bind fun r => r.store? c
          else some (room.1, none)

/-- Reset a partial whose total the sender changed; whether one is left. -/
def reset? (r : Reassembler) (c : Chunk) : Option (Reassembler × Bool) :=
  match r.buffers.lookup c.fragmentId with
  | some p =>
    if p.total ≠ c.total then (r.dropPartial? c.fragmentId).map fun r => (r, false)
    else some (r, true)
  | none => some (r, false)

/-- One call of `feed` whose eviction loop makes at most `fuel` passes. -/
def feed? (fuel : Nat) (r : Reassembler) (chunk : Bytes) (now : Nat) :
    Option (Reassembler × Option Bytes) :=
  match parseChunk chunk with
  | none => some (r, none)
  | some c =>
    if c.total > r.maxFragments then some (r, none)
    else
      (r.gc? now).bind fun r =>
        if c.fragmentId ∈ r.evicted then some (r, none)
        else
          (r.reset? c).bind fun (r, existing) =>
            if existing then
              -- `self.buffers[&c.fragment_id]`
              match r.buffers.lookup c.fragmentId with
              | none => none
              | some p => if c.seq ∈ p.parts then some (r, none) else r.accept? fuel c now
            else if c.total = 1 then some (r, some c.data)
            else r.accept? fuel c now

end Reassembler

end Telesthete.Wire
