import Telesthete.Lib.Bytes

/-!
# Dmabuf descriptors (SPEC §5.4.2)

A stream packet with the `DMABUF` flag carries the description of an image in
place of codec bytes: a header of 22 bytes and nine bytes for every plane. The
file descriptors the planes refer to travel beside the packet, the last of them
being a fence when the packet says so. What is parsed is then checked against the
flags of the packet it came in.
-/

namespace Telesthete.Wire

open Telesthete.Lib

/-- The flag bits of a stream packet (§5.4.1). -/
structure StreamFlags where
  bits : UInt8
deriving DecidableEq, Repr

namespace StreamFlags

def withFence : StreamFlags := ⟨0x20⟩

def reuse : StreamFlags := ⟨0x40⟩

def contains (flags other : StreamFlags) : Bool := flags.bits &&& other.bits = other.bits

end StreamFlags

def maxPlanes : Nat := 4

/-- Four planes and a fence. -/
def maxFdsPerPacket : Nat := 5

structure DmabufPlane where
  offset : UInt32
  stride : UInt32
  /-- Index into the file descriptors that came with the packet. -/
  fdIndex : UInt8
deriving DecidableEq, Repr

structure DmabufDescriptor where
  width : UInt32
  height : UInt32
  fourcc : UInt32
  modifier : UInt64
  planes : List DmabufPlane
  fdCount : UInt8
deriving DecidableEq, Repr

inductive DmabufError where
  | tooShort (got need : Nat)
  | planeCountOutOfRange (count : UInt8)
  | fdCountOutOfRange (count : UInt8)
  | fdIndexOutOfRange (fd idx : UInt8)
  | reuseFdMismatch (fd : UInt8)
deriving DecidableEq, Repr

def headerBytes : Nat := 22

def planeBytes : Nat := 9

def encodedLen (planeCount : Nat) : Nat := headerBytes + planeBytes * planeCount

def DmabufPlane.bytes (p : DmabufPlane) : Bytes :=
  toBe 4 p.offset.toNat ++ (toBe 4 p.stride.toNat ++ [p.fdIndex])

/-- The nine bytes at an offset. -/
def planeAt (input : Bytes) (off : Nat) : DmabufPlane :=
  { offset := UInt32.ofNat (ofBe (slice input off (off + 4)))
    stride := UInt32.ofNat (ofBe (slice input (off + 4) (off + 8)))
    fdIndex := input.getD (off + 8) 0 }

/-- The loop over the planes, of which so many are left, from an offset on. -/
def parsePlanes (input : Bytes) (fdCount : UInt8) :
    Nat → Nat → Except DmabufError (List DmabufPlane)
  | 0, _ => .ok []
  | n + 1, off =>
    let plane := planeAt input off
    if fdCount > 0 ∧ plane.fdIndex ≥ fdCount then
      .error (.fdIndexOutOfRange fdCount plane.fdIndex)
    else (parsePlanes input fdCount n (off + planeBytes)).map fun planes => plane :: planes

namespace DmabufDescriptor

/-- The header, then the planes. -/
def bytes (d : DmabufDescriptor) : Bytes :=
  toBe 4 d.width.toNat ++ (toBe 4 d.height.toNat ++ (toLe 4 d.fourcc.toNat ++
    (toBe 8 d.modifier.toNat ++ ([UInt8.ofNat d.planes.length, d.fdCount] ++
      d.planes.flatMap DmabufPlane.bytes))))

/-- Pack into `out`: the buffer afterwards, and the number of bytes written. -/
def write (d : DmabufDescriptor) (out : Bytes) : Except DmabufError (Bytes × Nat) :=
  let need := encodedLen d.planes.length
  if out.length < need then .error (.tooShort out.length need)
  else if ¬ (1 ≤ d.planes.length ∧ d.planes.length ≤ maxPlanes) then
    .error (.planeCountOutOfRange (UInt8.ofNat (min d.planes.length 255)))
  else if d.fdCount.toNat > maxFdsPerPacket then .error (.fdCountOutOfRange d.fdCount)
  else .ok (d.bytes ++ out.drop need, need)

def parse (input : Bytes) : Except DmabufError DmabufDescriptor :=
  if input.length < headerBytes then .error (.tooShort input.length headerBytes)
  else
    let planeCount := input.getD 20 0
    let fdCount := input.getD 21 0
    if ¬ (1 ≤ planeCount ∧ planeCount.toNat ≤ maxPlanes) then
      .error (.planeCountOutOfRange planeCount)
    else if fdCount.toNat > maxFdsPerPacket then .error (.fdCountOutOfRange fdCount)
    else
      let need := encodedLen planeCount.toNat
      if input.length < need then .error (.tooShort input.length need)
      else
        (parsePlanes input fdCount planeCount.toNat headerBytes).map fun planes =>
          { width := UInt32.ofNat (ofBe (slice input 0 4))
            height := UInt32.ofNat (ofBe (slice input 4 8))
            fourcc := UInt32.ofNat (ofLe (slice input 8 12))
            modifier := UInt64.ofNat (ofBe (slice input 12 20))
            planes := planes
            fdCount := fdCount }

/-- The fence among the file descriptors, if the packet has one. -/
def expectedFenceFds (flags : StreamFlags) : UInt8 :=
  if flags.contains StreamFlags.withFence then 1 else 0

/-- `planes.iter().map(|p| p.fd_index as u16 + 1).max().unwrap_or(0)`. -/
def planeFdsNeeded (d : DmabufDescriptor) : Nat :=
  (d.planes.map fun p => p.fdIndex.toNat + 1).max?.getD 0

/-- Whether the descriptor fits the flags of the packet that carries it. -/
def checkFlags (d : DmabufDescriptor) (flags : StreamFlags) : Except DmabufError Unit :=
  if flags.contains StreamFlags.reuse then
    -- the consumer has imported the buffer: only a fresh fence may come along
    if d.fdCount ≠ expectedFenceFds flags then .error (.reuseFdMismatch d.fdCount) else .ok ()
  else if d.planeFdsNeeded > d.fdCount.toNat - (expectedFenceFds flags).toNat then
    .error (.fdIndexOutOfRange d.fdCount (UInt8.ofNat (d.planeFdsNeeded - 1)))
  else .ok ()

/-- `parse`, then `check_flags`. -/
def accept (input : Bytes) (flags : StreamFlags) : Except DmabufError DmabufDescriptor :=
  (parse input).bind fun d => (d.checkFlags flags).map fun _ => d

end DmabufDescriptor

end Telesthete.Wire
