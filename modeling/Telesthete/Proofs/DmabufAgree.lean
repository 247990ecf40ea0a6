import Telesthete.Proofs.Dmabuf
import Telesthete.Python.Dmabuf

/-!
# Two implementations of the dmabuf descriptor

The Python implementation cuts its input along other seams and computes with
unbounded integers, but every number it reads is one that `Wire.Dmabuf` reads,
and every check compares the same numbers. So the two accept the same inputs, as
the same descriptors, and what `Proofs.Dmabuf` says about an accepted input is
true of both.
-/

namespace Telesthete.Wire

open Telesthete.Lib

variable {bs : Bytes} {lo hi w : Nat} {ε α β : Type}

def DmabufPlane.toPython (p : DmabufPlane) : Python.DmabufPlane :=
  ⟨p.offset.toNat, p.stride.toNat, p.fdIndex.toNat⟩

def DmabufDescriptor.toPython (d : DmabufDescriptor) : Python.DmabufDescriptor :=
  ⟨d.width.toNat, d.height.toNat, d.fourcc.toNat, d.modifier.toNat,
    d.planes.map DmabufPlane.toPython, d.fdCount.toNat⟩

/-! ## Reading -/

theorem slice_slice {lo hi a b : Nat} (h : lo + b ≤ hi) :
    slice (slice bs lo hi) a b = slice bs (lo + a) (lo + b) := by
  rw [slice, slice, slice, List.take_drop, List.take_take, List.drop_drop, Nat.min_eq_left h]

theorem getD_slice {lo hi i : Nat} (h : lo + i < hi) :
    (slice bs lo hi).getD i 0 = bs.getD (lo + i) 0 := by
  rw [slice, List.getD_eq_getElem?_getD, List.getElem?_drop, List.getElem?_take_of_lt h,
    ← List.getD_eq_getElem?_getD]

theorem length_slice_le (bs : Bytes) (lo hi : Nat) : (slice bs lo hi).length ≤ hi - lo := by
  rw [slice, List.length_drop]
  exact Nat.sub_le_sub_right (List.length_take_le hi bs) lo

theorem ofBe_slice_lt (h : hi - lo ≤ w) :
    ofBe (slice bs lo hi) < 256 ^ w :=
  lt_of_lt_of_le (ofBe_lt _)
    (Nat.pow_le_pow_right (by decide) (le_trans (length_slice_le bs lo hi) h))

theorem ofLe_slice_lt (h : hi - lo ≤ w) :
    ofLe (slice bs lo hi) < 256 ^ w :=
  lt_of_lt_of_le (ofLe_lt _)
    (Nat.pow_le_pow_right (by decide) (le_trans (length_slice_le bs lo hi) h))

theorem unpackPlane_eq (data : Bytes) (off : Nat) :
    Python.unpackPlane data off = (planeAt data off).toPython := by
  have hoffset : ofBe (slice data off (off + 4)) < 2 ^ 32 := ofBe_slice_lt (w := 4) (by omega)
  have hstride : ofBe (slice data (off + 4) (off + 8)) < 2 ^ 32 := ofBe_slice_lt (w := 4) (by omega)
  have hfirst : slice (slice data off (off + 9)) 0 4 = slice data off (off + 4) :=
    slice_slice (by omega)
  have hsecond : slice (slice data off (off + 9)) 4 8 = slice data (off + 4) (off + 8) :=
    slice_slice (by omega)
  have hindex : (slice data off (off + 9)).getD 8 0 = data.getD (off + 8) 0 :=
    getD_slice (by omega)
  simp only [Python.unpackPlane, planeAt, DmabufPlane.toPython, planeBytes, hfirst, hsecond, hindex,
    UInt32.toNat_ofNat', Nat.mod_eq_of_lt hoffset, Nat.mod_eq_of_lt hstride]

theorem toOption_map (x : Except ε α) (f : α → β) :
    (x.map f).toOption = x.toOption.map f := by
  cases x <;> rfl

theorem toOption_bind (x : Except ε α) (f : α → Except ε β) :
    (x.bind f).toOption = x.toOption.bind fun a => (f a).toOption := by
  cases x <;> rfl

theorem unpackPlanes_eq (data : Bytes) (fdCount : UInt8) (n : Nat) :
    ∀ off, (Python.unpackPlanes data fdCount.toNat n off).toOption =
      (parsePlanes data fdCount n off).toOption.map (List.map DmabufPlane.toPython) := by
  induction n with
  | zero => exact fun _ => rfl
  | succ n ih =>
    intro off
    have hcheck : (fdCount.toNat > 0 ∧
        (planeAt data off).toPython.fdIndex ≥ (fdCount.toNat : Int)) ↔
          fdCount > 0 ∧ (planeAt data off).fdIndex ≥ fdCount := by
      refine and_congr Iff.rfl ?_
      rw [ge_iff_le, ge_iff_le, UInt8.le_iff_toNat_le]
      exact Int.ofNat_le
    rw [Python.unpackPlanes, parsePlanes, unpackPlane_eq]
    by_cases hfd : fdCount > 0 ∧ (planeAt data off).fdIndex ≥ fdCount
    · rw [if_pos (hcheck.mpr hfd), if_pos hfd]
      rfl
    · rw [if_neg (fun h => hfd (hcheck.mp h)), if_neg hfd, toOption_map, toOption_map, ih,
        Option.map_map, Option.map_map]
      rfl

namespace DmabufDescriptor

variable {d : DmabufDescriptor}

theorem python_parse (data : Bytes) :
    (Python.DmabufDescriptor.parse data).toOption = (parse data).toOption.map toPython := by
  have hplanes : (slice data 12 22).getD 8 0 = data.getD 20 0 := getD_slice (by decide)
  have hfds : (slice data 12 22).getD 9 0 = data.getD 21 0 := getD_slice (by decide)
  have hmodifier : slice (slice data 12 22) 0 8 = slice data 12 20 := slice_slice (by decide)
  have hwidth : slice (slice data 0 8) 0 4 = slice data 0 4 := slice_slice (by decide)
  have hheight : slice (slice data 0 8) 4 8 = slice data 4 8 := slice_slice (by decide)
  have hcount : (1 ≤ (data.getD 20 0).toNat ∧ (data.getD 20 0).toNat ≤ maxPlanes) ↔
      1 ≤ data.getD 20 0 ∧ (data.getD 20 0).toNat ≤ maxPlanes :=
    and_congr_left fun _ => (UInt8.le_iff_toNat_le (a := 1)).symm
  unfold Python.DmabufDescriptor.parse parse
  dsimp only
  rw [hplanes, hfds, hmodifier, hwidth, hheight]
  by_cases hheader : data.length < headerBytes
  · rw [if_pos hheader, if_pos hheader]
    rfl
  rw [if_neg hheader, if_neg hheader]
  by_cases hrange : 1 ≤ data.getD 20 0 ∧ (data.getD 20 0).toNat ≤ maxPlanes
  · rw [if_neg (not_not_intro (hcount.mpr hrange)), if_neg (not_not_intro hrange)]
    by_cases hmany : (data.getD 21 0).toNat > maxFdsPerPacket
    · rw [if_pos hmany, if_pos hmany]
      rfl
    rw [if_neg hmany, if_neg hmany]
    by_cases hshort : data.length < encodedLen (data.getD 20 0).toNat
    · rw [if_pos hshort, if_pos hshort]
      rfl
    rw [if_neg hshort, if_neg hshort, toOption_map, toOption_map, unpackPlanes_eq, Option.map_map,
      Option.map_map]
    refine congrArg (fun f => Option.map f _) (funext fun planes => ?_)
    have h4 : ofBe (slice data 0 4) < 2 ^ 32 := ofBe_slice_lt (w := 4) (by decide)
    have h8 : ofBe (slice data 4 8) < 2 ^ 32 := ofBe_slice_lt (w := 4) (by decide)
    have h12 : ofLe (slice data 8 12) < 2 ^ 32 := ofLe_slice_lt (w := 4) (by decide)
    have h20 : ofBe (slice data 12 20) < 2 ^ 64 := ofBe_slice_lt (w := 8) (by decide)
    simp only [Function.comp_apply, toPython, UInt32.toNat_ofNat', UInt64.toNat_ofNat',
      Nat.mod_eq_of_lt h4, Nat.mod_eq_of_lt h8, Nat.mod_eq_of_lt h12, Nat.mod_eq_of_lt h20]
  · rw [if_pos (fun h => hrange (hcount.mp h)), if_pos hrange]
    rfl

/-! ## The flags -/

/-- A single bit is set when it is not clear. -/
theorem contains_withFence :
    ∀ b : UInt8, StreamFlags.contains ⟨b⟩ StreamFlags.withFence = true ↔
      b &&& StreamFlags.withFence.bits ≠ 0 :=
  forall_byte (by decide +kernel)

theorem contains_reuse :
    ∀ b : UInt8, StreamFlags.contains ⟨b⟩ StreamFlags.reuse = true ↔
      b &&& StreamFlags.reuse.bits ≠ 0 :=
  forall_byte (by decide +kernel)

theorem fenceFds_eq (flags : StreamFlags) :
    Python.DmabufDescriptor.fenceFds flags = (expectedFenceFds flags).toNat := by
  rw [Python.DmabufDescriptor.fenceFds, expectedFenceFds]
  by_cases h : flags.contains StreamFlags.withFence = true
  · rw [if_pos ((contains_withFence flags.bits).mp h), if_pos h]
    rfl
  · rw [if_neg (fun hb => h ((contains_withFence flags.bits).mpr hb)), if_neg h]
    rfl

theorem python_checkFlags (d : DmabufDescriptor) (flags : StreamFlags) :
    (d.toPython.checkFlags flags).toOption = (d.checkFlags flags).toOption := by
  rw [Python.DmabufDescriptor.checkFlags, checkFlags, fenceFds_eq]
  by_cases hreuse : flags.contains StreamFlags.reuse = true
  · rw [if_pos ((contains_reuse flags.bits).mp hreuse), if_pos hreuse]
    have hfd : d.toPython.fdCount ≠ ((expectedFenceFds flags).toNat : Int) ↔
        d.fdCount ≠ expectedFenceFds flags := by
      rw [ne_eq, ne_eq, ← UInt8.toNat_inj]
      exact not_congr Int.ofNat_inj
    by_cases hne : d.fdCount ≠ expectedFenceFds flags
    · rw [if_pos (hfd.mpr hne), if_pos hne]
      rfl
    · rw [if_neg (fun h => hne (hfd.mp h)), if_neg hne]
      rfl
  · rw [if_neg (fun hb => hreuse ((contains_reuse flags.bits).mpr hb)), if_neg hreuse]
    have hneed : d.toPython.planeFdsNeeded >
        max (d.toPython.fdCount - ((expectedFenceFds flags).toNat : Int)) 0 ↔
          d.planeFdsNeeded > d.fdCount.toNat - (expectedFenceFds flags).toNat := by
      rw [gt_iff_lt, gt_iff_lt, ← not_le, ← not_le, planeFdsNeeded_le_iff,
        Python.DmabufDescriptor.planeFdsNeeded, max?_getD_le_iff (le_max_right _ _),
        List.forall_mem_map, toPython, List.forall_mem_map]
      refine not_congr (forall₂_congr fun p _ => ?_)
      simp only [DmabufPlane.toPython]
      omega
    by_cases hgt : d.planeFdsNeeded > d.fdCount.toNat - (expectedFenceFds flags).toNat
    · rw [if_pos (hneed.mpr hgt), if_pos hgt]
      rfl
    · rw [if_neg (fun h => hgt (hneed.mp h)), if_neg hgt]
      rfl

theorem python_accept (data : Bytes) (flags : StreamFlags) :
    (Python.DmabufDescriptor.accept data flags).toOption =
      (accept data flags).toOption.map toPython := by
  rw [Python.DmabufDescriptor.accept, accept, toOption_bind, toOption_bind, python_parse]
  cases parse data with
  | error e => rfl
  | ok d =>
    show ((d.toPython.checkFlags flags).map fun _ => d.toPython).toOption =
      ((d.checkFlags flags).map fun _ => d).toOption.map toPython
    rw [toOption_map, toOption_map, python_checkFlags, Option.map_map]
    rfl

/-! ## Writing back -/

theorem packField_toNat {w n : Nat} (h : n < 256 ^ w) : Python.packField w n = .ok (toBe w n) := by
  rw [Python.packField, if_pos ⟨Int.natCast_nonneg n, by exact_mod_cast h⟩, Int.toNat_natCast]

theorem packPlanes_toPython (planes : List DmabufPlane) :
    Python.packPlanes (planes.map DmabufPlane.toPython) =
      .ok (planes.flatMap DmabufPlane.bytes) := by
  induction planes with
  | nil => rfl
  | cons p planes ih =>
    have hfd : toBe 1 p.fdIndex.toNat = [p.fdIndex] := by
      simp [toBe]
    have hpack : p.toPython.pack = .ok p.bytes := by
      simp only [Python.DmabufPlane.pack, DmabufPlane.toPython, DmabufPlane.bytes,
        packField_toNat (w := 4) p.offset.toNat_lt, packField_toNat (w := 4) p.stride.toNat_lt,
        packField_toNat (w := 1) p.fdIndex.toNat_lt, hfd]
      rfl
    rw [List.map_cons, Python.packPlanes, hpack, ih]
    rfl

theorem pack_toPython (h : d.Sized) : d.toPython.pack = .ok d.bytes := by
  have hlength : d.toPython.planes.length = d.planes.length := List.length_map _
  have hcount : 1 ≤ d.toPython.planes.length ∧ d.toPython.planes.length ≤ maxPlanes := by
    rw [hlength]
    exact ⟨h.one_le, h.le_maxPlanes⟩
  have hfds : 0 ≤ d.toPython.fdCount ∧ d.toPython.fdCount ≤ maxFdsPerPacket :=
    ⟨Int.natCast_nonneg _, Int.ofNat_le.mpr h.fdCount_le⟩
  have hsmall : d.planes.length < 256 ^ 1 :=
    lt_of_le_of_lt h.le_maxPlanes (by decide)
  have hfourcc : Python.fourccToBytes (d.fourcc.toNat : Int) = .ok (toLe 4 d.fourcc.toNat) := by
    have hlt : (d.fourcc.toNat : Int) < 256 ^ 4 := by exact_mod_cast d.fourcc.toNat_lt
    rw [Python.fourccToBytes, if_pos ⟨Int.natCast_nonneg _, hlt⟩, Int.toNat_natCast]
  have hbyte : ∀ n : Nat, toBe 1 n = [UInt8.ofNat n] := fun n => by simp [toBe]
  rw [Python.DmabufDescriptor.pack, if_neg (not_not_intro hcount), if_neg (not_not_intro hfds),
    hlength]
  simp only [toPython, packField_toNat (w := 4) d.width.toNat_lt,
    packField_toNat (w := 4) d.height.toNat_lt, hfourcc,
    packField_toNat (w := 8) d.modifier.toNat_lt, packField_toNat hsmall,
    packField_toNat (w := 1) d.fdCount.toNat_lt, packPlanes_toPython, hbyte, UInt8.ofNat_toNat]
  rfl

theorem accept_eq_ok_iff {input : Bytes} {flags : StreamFlags} :
    accept input flags = .ok d ↔ parse input = .ok d ∧ d.checkFlags flags = .ok () := by
  unfold accept
  cases parse input with
  | error e => exact iff_of_false (fun h => by cases h) fun h => by cases h.1
  | ok d' =>
    show ((d'.checkFlags flags).map fun _ => d') = .ok d ↔ _
    cases hflags : d'.checkFlags flags with
    | error e =>
      refine iff_of_false (fun h => by cases h) ?_
      rintro ⟨h, hok⟩
      cases h
      rw [hflags] at hok
      cases hok
    | ok u =>
      refine ⟨fun h => ?_, fun h => h.1⟩
      cases h
      exact ⟨rfl, hflags⟩

/-- An input both implementations accept, they accept as the same descriptor. Its counts are in
range, writing it gives back the bytes that were consumed, and without reuse every plane has a
file descriptor of the packet other than the fence, which is the last. -/
theorem dmabuf_accept_canonical (input : Bytes) (flags : StreamFlags) :
    (Python.DmabufDescriptor.accept input flags).toOption =
        (accept input flags).toOption.map toPython ∧
      ∀ d, accept input flags = .ok d →
        (1 ≤ d.planes.length ∧ d.planes.length ≤ 4 ∧ d.fdCount.toNat ≤ 5) ∧
        encodedLen d.planes.length ≤ input.length ∧
        (∀ out : Bytes, encodedLen d.planes.length ≤ out.length →
          d.write out = .ok (input.take (encodedLen d.planes.length) ++
            out.drop (encodedLen d.planes.length), encodedLen d.planes.length)) ∧
        d.toPython.pack = .ok (input.take (encodedLen d.planes.length)) ∧
        (flags.contains StreamFlags.reuse = false → ∀ p ∈ d.planes,
          p.fdIndex.toNat < d.fdCount.toNat ∧
            (flags.contains StreamFlags.withFence = true →
              p.fdIndex.toNat ≠ d.fdCount.toNat - 1)) := by
  refine ⟨python_accept input flags, fun d hd => ?_⟩
  obtain ⟨hparse, hflags⟩ := accept_eq_ok_iff.mp hd
  obtain ⟨r, rfl, hsized, -⟩ := parse_eq_ok_iff.mp hparse
  rw [List.take_left' d.length_bytes, List.length_append, length_bytes]
  refine ⟨⟨hsized.one_le, hsized.le_maxPlanes, hsized.fdCount_le⟩, Nat.le_add_right _ _, ?_,
    pack_toPython hsized, ?_⟩
  · intro out hout
    exact write_eq_ok_iff.mpr ⟨hsized, hout, rfl, rfl⟩
  · intro hreuse p hp
    have hle := (checkFlags_eq_ok_of_not_reuse (Bool.eq_false_iff.mp hreuse)).mp hflags p hp
    refine ⟨by omega, fun hfence => ?_⟩
    rw [expectedFenceFds, if_pos hfence] at hle
    have hone : (1 : UInt8).toNat = 1 := rfl
    omega

/-- An image of two planes, with a file descriptor for each and a fence. -/
def fencedImage : DmabufDescriptor :=
  ⟨1920, 1080, 0x3231564e, 0, [⟨0, 1920, 0⟩, ⟨0, 1920, 1⟩], 3⟩

theorem dmabuf_accept_canonical_fence :
    accept (fencedImage.bytes ++ [7]) ⟨0x30⟩ = .ok fencedImage ∧
      fencedImage.toPython.pack = .ok ((fencedImage.bytes ++ [7]).take 40) ∧
      ∀ p ∈ fencedImage.planes, p.fdIndex.toNat < 3 ∧ p.fdIndex.toNat ≠ 2 := by
  have haccept : accept (fencedImage.bytes ++ [7]) ⟨0x30⟩ = .ok fencedImage := by decide +kernel
  obtain ⟨-, h⟩ := dmabuf_accept_canonical (fencedImage.bytes ++ [7]) ⟨0x30⟩
  obtain ⟨-, -, -, hpack, hplanes⟩ := h fencedImage haccept
  exact ⟨haccept, hpack, fun p hp => ⟨(hplanes rfl p hp).1, (hplanes rfl p hp).2 rfl⟩⟩

end DmabufDescriptor

end Telesthete.Wire
