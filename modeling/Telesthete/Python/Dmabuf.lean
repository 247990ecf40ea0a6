import Telesthete.Wire.Dmabuf

/-!
# Dmabuf descriptors of the Python implementation (SPEC §5.4.2)

The layout and the checks of `Wire.Dmabuf`, over unbounded integers: a field
that does not fit its bytes is refused when the descriptor is packed. An
exception is an error with its message.
-/

namespace Telesthete.Python

open Telesthete.Lib Telesthete.Wire

structure DmabufPlane where
  offset : Int
  stride : Int
  fdIndex : Int
deriving DecidableEq, Repr

structure DmabufDescriptor where
  width : Int
  height : Int
  fourcc : Int
  modifier : Int
  planes : List DmabufPlane
  fdCount : Int
deriving DecidableEq, Repr

/-- One unsigned big-endian field of `struct.pack`. -/
def packField (w : Nat) (n : Int) : Except String Bytes :=
  if 0 ≤ n ∧ n < 256 ^ w then .ok (toBe w n.toNat) else .error "argument out of range"

/-- `code.to_bytes(4, "little")`. -/
def fourccToBytes (code : Int) : Except String Bytes :=
  if 0 ≤ code ∧ code < 256 ^ 4 then .ok (toLe 4 code.toNat)
  else .error "int too big to convert"

/-- `struct.pack(">IIB", ...)`. -/
def DmabufPlane.pack (p : DmabufPlane) : Except String Bytes :=
  (packField 4 p.offset).bind fun offset =>
    (packField 4 p.stride).bind fun stride =>
      (packField 1 p.fdIndex).map fun fdIndex => offset ++ (stride ++ fdIndex)

/-- The loop of `pack` over the planes. -/
def packPlanes : List DmabufPlane → Except String Bytes
  | [] => .ok []
  | p :: planes => p.pack.bind fun bytes => (packPlanes planes).map fun rest => bytes ++ rest

/-- `struct.unpack(">IIB", data[off:off + PLANE_BYTES])`. -/
def unpackPlane (data : Bytes) (off : Nat) : DmabufPlane :=
  let field := slice data off (off + planeBytes)
  { offset := ofBe (slice field 0 4)
    stride := ofBe (slice field 4 8)
    fdIndex := (field.getD 8 0).toNat }

/-- The loop of `parse` over the planes, of which so many are left, from an offset on. -/
def unpackPlanes (data : Bytes) (fdCount : Nat) :
    Nat → Nat → Except String (List DmabufPlane)
  | 0, _ => .ok []
  | n + 1, off =>
    let plane := unpackPlane data off
    if fdCount > 0 ∧ plane.fdIndex ≥ fdCount then
      .error s!"fd_count {fdCount} cannot serve plane fd_index {plane.fdIndex}"
    else (unpackPlanes data fdCount n (off + planeBytes)).map fun planes => plane :: planes

namespace DmabufDescriptor

def pack (d : DmabufDescriptor) : Except String Bytes :=
  if ¬ (1 ≤ d.planes.length ∧ d.planes.length ≤ maxPlanes) then
    .error s!"plane_count {d.planes.length} out of range (1..=4)"
  else if ¬ (0 ≤ d.fdCount ∧ d.fdCount ≤ maxFdsPerPacket) then
    .error s!"fd_count {d.fdCount} exceeds MAX_FDS_PER_PACKET (5)"
  else
    (packField 4 d.width).bind fun width =>
      (packField 4 d.height).bind fun height =>
        (fourccToBytes d.fourcc).bind fun fourcc =>
          (packField 8 d.modifier).bind fun modifier =>
            (packField 1 d.planes.length).bind fun planeCount =>
              (packField 1 d.fdCount).bind fun fdCount =>
                (packPlanes d.planes).map fun planes =>
                  width ++ (height ++ (fourcc ++ (modifier ++ (planeCount ++ (fdCount ++ planes)))))

def parse (data : Bytes) : Except String DmabufDescriptor :=
  if data.length < headerBytes then
    .error s!"dmabuf payload too short: {data.length} bytes, need {headerBytes}"
  else
    let sizes := slice data 0 8
    let counts := slice data 12 22
    let planeCount := (counts.getD 8 0).toNat
    let fdCount := (counts.getD 9 0).toNat
    if ¬ (1 ≤ planeCount ∧ planeCount ≤ maxPlanes) then
      .error s!"plane_count {planeCount} out of range (1..=4)"
    else if fdCount > maxFdsPerPacket then
      .error s!"fd_count {fdCount} exceeds MAX_FDS_PER_PACKET (5)"
    else
      let need := encodedLen planeCount
      if data.length < need then
        .error s!"dmabuf payload too short: {data.length} bytes, need {need}"
      else
        (unpackPlanes data fdCount planeCount headerBytes).map fun planes =>
          { width := ofBe (slice sizes 0 4)
            height := ofBe (slice sizes 4 8)
            fourcc := ofLe (slice data 8 12)
            modifier := ofBe (slice counts 0 8)
            planes := planes
            fdCount := fdCount }

/-- `1 if flags & StreamFlags.WITH_FENCE else 0`. -/
def fenceFds (flags : StreamFlags) : Int :=
  if flags.bits &&& StreamFlags.withFence.bits ≠ 0 then 1 else 0

/-- `max((p.fd_index + 1 for p in self.planes), default=0)`. -/
def planeFdsNeeded (d : DmabufDescriptor) : Int :=
  (d.planes.map fun p => p.fdIndex + 1).max?.getD 0

def checkFlags (d : DmabufDescriptor) (flags : StreamFlags) : Except String Unit :=
  if flags.bits &&& StreamFlags.reuse.bits ≠ 0 then
    if d.fdCount ≠ fenceFds flags then
      .error s!"REUSE set but fd_count={d.fdCount} (expected {fenceFds flags} with these flags)"
    else .ok ()
  else if d.planeFdsNeeded > max (d.fdCount - fenceFds flags) 0 then
    .error s!"fd_count {d.fdCount} cannot serve plane fd_index {d.planeFdsNeeded - 1}"
  else .ok ()

/-- `parse`, then `check_flags`. -/
def accept (data : Bytes) (flags : StreamFlags) : Except String DmabufDescriptor :=
  (parse data).bind fun d => (d.checkFlags flags).map fun _ => d

end DmabufDescriptor

end Telesthete.Python
