import Telesthete.Wire.Dmabuf

/-!
# What a dmabuf descriptor is parsed from

The bytes of a descriptor determine it, and so does any longer input that starts
with them: `parse` gives back exactly the descriptors whose counts are in range
and whose planes name file descriptors of the packet (`parse_eq_ok_iff`). Both
directions come from one observation, that every input long enough is the bytes
of some descriptor and a rest.

The last condition is where writing and parsing part. A packet that reuses a
buffer has no plane file descriptors, and `parse` therefore asks nothing of the
indices when the count is zero. A packet that reuses a buffer and brings a fence
has a count of one, the fence, and then `parse` does ask.
-/

namespace Telesthete.Wire

open Telesthete.Lib List

/-! ## Planes -/

@[simp] theorem DmabufPlane.length_bytes (p : DmabufPlane) : p.bytes.length = planeBytes := rfl

theorem DmabufPlane.exists_bytes {bs : Bytes} (h : bs.length = planeBytes) :
    ∃ p : DmabufPlane, p.bytes = bs := by
  obtain ⟨offset, rest, hoffset, rfl⟩ := exists_append bs 4 (by rw [h]; decide)
  rw [length_append, hoffset] at h
  obtain ⟨stride, last, hstride, rfl⟩ := exists_append rest 4
    (by simp only [planeBytes] at h; omega)
  rw [length_append, hstride] at h
  obtain ⟨fdIndex, rfl⟩ := length_eq_one_iff.mp (show last.length = 1 by
    simp only [planeBytes] at h; omega)
  refine ⟨⟨UInt32.ofNat (ofBe offset), UInt32.ofNat (ofBe stride), fdIndex⟩, ?_⟩
  rw [DmabufPlane.bytes, toBe_uint32 hoffset, toBe_uint32 hstride]

theorem planeAt_append {a r : Bytes} {off : Nat} (h : a.length = off) (p : DmabufPlane) :
    planeAt (a ++ (p.bytes ++ r)) off = p := by
  have hoffset : slice (a ++ (p.bytes ++ r)) off (off + 4) = toBe 4 p.offset.toNat := by
    rw [DmabufPlane.bytes, append_assoc]
    exact slice_append h (by rw [length_toBe])
  have hstride : slice (a ++ (p.bytes ++ r)) (off + 4) (off + 8) = toBe 4 p.stride.toNat := by
    rw [DmabufPlane.bytes, append_assoc, ← append_assoc a, append_assoc (toBe 4 _)]
    exact slice_append (by rw [length_append, h, length_toBe]) (by rw [length_toBe])
  have hfd : (a ++ (p.bytes ++ r)).getD (off + 8) 0 = p.fdIndex := getD_append h 8
  rw [planeAt, hoffset, hstride, hfd, ofBe_uint32, ofBe_uint32]

/-- What `parse` asks of a plane: no index beyond the file descriptors, if there are any. -/
def Fits (fdCount : UInt8) (p : DmabufPlane) : Prop := ¬ (fdCount > 0 ∧ p.fdIndex ≥ fdCount)

instance instDecidableFits (fdCount : UInt8) (p : DmabufPlane) : Decidable (Fits fdCount p) :=
  inferInstanceAs (Decidable (¬ _))

theorem length_flatMap_bytes (planes : List DmabufPlane) :
    (planes.flatMap DmabufPlane.bytes).length = planeBytes * planes.length := by
  induction planes with
  | nil => rfl
  | cons p planes ih =>
    rw [flatMap_cons, length_append, ih, DmabufPlane.length_bytes, length_cons,
      Nat.mul_succ, Nat.add_comm]

theorem exists_planes (n : Nat) :
    ∀ bs : Bytes, bs.length = planeBytes * n →
      ∃ planes : List DmabufPlane, planes.length = n ∧ planes.flatMap DmabufPlane.bytes = bs := by
  induction n with
  | zero => exact fun _ h => ⟨[], rfl, (eq_nil_of_length_eq_zero h).symm⟩
  | succ n ih =>
    intro bs h
    rw [Nat.mul_succ] at h
    obtain ⟨first, rest, hfirst, rfl⟩ := exists_append bs planeBytes (by omega)
    rw [length_append, hfirst] at h
    obtain ⟨p, rfl⟩ := DmabufPlane.exists_bytes hfirst
    obtain ⟨planes, rfl, rfl⟩ := ih rest (by omega)
    exact ⟨p :: planes, rfl, rfl⟩

/-- The loop reads the planes back, or stops at one that does not fit. -/
theorem parsePlanes_append (fdCount : UInt8) (planes : List DmabufPlane) (r : Bytes) :
    ∀ {a : Bytes} {off : Nat}, a.length = off →
      ((∀ p ∈ planes, Fits fdCount p) →
        parsePlanes (a ++ (planes.flatMap DmabufPlane.bytes ++ r)) fdCount planes.length off =
          .ok planes) ∧
      ((∃ p ∈ planes, ¬ Fits fdCount p) →
        ∃ e, parsePlanes (a ++ (planes.flatMap DmabufPlane.bytes ++ r)) fdCount planes.length off =
          .error e) := by
  induction planes with
  | nil =>
    refine fun _ => ⟨fun _ => rfl, ?_⟩
    rintro ⟨p, hp, -⟩
    exact absurd hp not_mem_nil
  | cons p planes ih =>
    intro a off h
    have hat := planeAt_append (r := planes.flatMap DmabufPlane.bytes ++ r) h p
    rw [flatMap_cons, append_assoc, length_cons, parsePlanes]
    rw [hat]
    have hnext : (a ++ p.bytes).length = off + planeBytes := by
      rw [length_append, h, DmabufPlane.length_bytes]
    obtain ⟨hall, hsome⟩ := ih hnext
    rw [append_assoc] at hall hsome
    constructor
    · intro hfits
      obtain ⟨hp, hrest⟩ := forall_mem_cons.mp hfits
      rw [if_neg hp, hall hrest]
      rfl
    · rintro ⟨q, hq, hqfits⟩
      by_cases hp : Fits fdCount p
      · rw [if_neg hp]
        rcases mem_cons.mp hq with rfl | hq
        · exact absurd hp hqfits
        · obtain ⟨e, he⟩ := hsome ⟨q, hq, hqfits⟩
          exact ⟨e, by rw [he]; rfl⟩
      · exact ⟨_, if_pos (not_not.mp hp)⟩

/-! ## Descriptors -/

namespace DmabufDescriptor

variable {d : DmabufDescriptor} {flags : StreamFlags}

/-- The counts a packet can carry. -/
structure Sized (d : DmabufDescriptor) : Prop where
  one_le : 1 ≤ d.planes.length
  le_maxPlanes : d.planes.length ≤ maxPlanes
  fdCount_le : d.fdCount.toNat ≤ maxFdsPerPacket

theorem bytes_append (d : DmabufDescriptor) (r : Bytes) :
    d.bytes ++ r = toBe 4 d.width.toNat ++ (toBe 4 d.height.toNat ++ (toLe 4 d.fourcc.toNat ++
      (toBe 8 d.modifier.toNat ++ ([UInt8.ofNat d.planes.length, d.fdCount] ++
        (d.planes.flatMap DmabufPlane.bytes ++ r))))) := by
  simp only [bytes, append_assoc]

theorem length_bytes (d : DmabufDescriptor) : d.bytes.length = encodedLen d.planes.length := by
  simp only [bytes, length_append, length_toBe, length_toLe, length_flatMap_bytes,
    length_cons, length_nil, encodedLen, headerBytes]
  omega

section append

variable {d : DmabufDescriptor} {r : Bytes}

theorem slice_width : slice (d.bytes ++ r) 0 4 = toBe 4 d.width.toNat := by
  rw [bytes_append]
  exact slice_append (a := []) (b := toBe 4 d.width.toNat) rfl (by rw [length_toBe])

theorem slice_height : slice (d.bytes ++ r) 4 8 = toBe 4 d.height.toNat := by
  rw [bytes_append]
  exact slice_append (length_toBe _ _) (by rw [length_toBe])

theorem slice_fourcc : slice (d.bytes ++ r) 8 12 = toLe 4 d.fourcc.toNat := by
  rw [bytes_append, ← append_assoc]
  exact slice_append (by simp) (by rw [length_toLe])

theorem slice_modifier : slice (d.bytes ++ r) 12 20 = toBe 8 d.modifier.toNat := by
  rw [bytes_append, ← append_assoc, ← append_assoc]
  exact slice_append (by simp) (by rw [length_toBe])

/-- The twenty bytes before the counts, the counts and the planes. -/
theorem bytes_append_counts (d : DmabufDescriptor) (r : Bytes) :
    ∃ a : Bytes, a.length = 20 ∧
      d.bytes ++ r = a ++ ([UInt8.ofNat d.planes.length, d.fdCount] ++
        (d.planes.flatMap DmabufPlane.bytes ++ r)) := by
  refine ⟨toBe 4 d.width.toNat ++ (toBe 4 d.height.toNat ++ (toLe 4 d.fourcc.toNat ++
    toBe 8 d.modifier.toNat)), by simp, ?_⟩
  rw [bytes_append]
  simp only [append_assoc]

theorem getD_planeCount : (d.bytes ++ r).getD 20 0 = UInt8.ofNat d.planes.length := by
  obtain ⟨a, ha, heq⟩ := bytes_append_counts d r
  rw [heq]
  exact getD_append ha 0

theorem getD_fdCount : (d.bytes ++ r).getD 21 0 = d.fdCount := by
  obtain ⟨a, ha, heq⟩ := bytes_append_counts d r
  rw [heq]
  exact getD_append ha 1

/-- The header, as the bytes before the planes. -/
theorem bytes_append_header (d : DmabufDescriptor) (r : Bytes) :
    ∃ a : Bytes, a.length = headerBytes ∧
      d.bytes ++ r = a ++ (d.planes.flatMap DmabufPlane.bytes ++ r) := by
  obtain ⟨a, ha, heq⟩ := bytes_append_counts d r
  refine ⟨a ++ [UInt8.ofNat d.planes.length, d.fdCount], by simp [ha, headerBytes], ?_⟩
  rw [heq, append_assoc]

theorem Sized.toNat_planeCount (h : d.Sized) :
    (UInt8.ofNat d.planes.length).toNat = d.planes.length := by
  have hle := h.le_maxPlanes
  rw [UInt8.toNat_ofNat']
  exact Nat.mod_eq_of_lt (by simp only [maxPlanes] at hle; omega)

/-- On the bytes of a descriptor the checks of the counts pass, and the planes decide. -/
theorem parse_append (h : d.Sized) :
    parse (d.bytes ++ r) =
      (parsePlanes (d.bytes ++ r) d.fdCount d.planes.length headerBytes).map fun planes =>
        { d with planes := planes } := by
  have hlen : encodedLen d.planes.length ≤ (d.bytes ++ r).length := by
    rw [length_append, length_bytes]
    exact Nat.le_add_right _ _
  have hheader : ¬ (d.bytes ++ r).length < headerBytes :=
    not_lt.mpr (le_trans (Nat.le_add_right _ _) hlen)
  have hcount : 1 ≤ UInt8.ofNat d.planes.length ∧
      (UInt8.ofNat d.planes.length).toNat ≤ maxPlanes := by
    refine ⟨UInt8.le_iff_toNat_le.mpr ?_, ?_⟩
    · rw [h.toNat_planeCount]
      exact h.one_le
    · rw [h.toNat_planeCount]
      exact h.le_maxPlanes
  rw [parse, if_neg hheader]
  rw [getD_planeCount, getD_fdCount, if_neg (not_not_intro hcount),
    if_neg (not_lt.mpr h.fdCount_le), h.toNat_planeCount, if_neg (not_lt.mpr hlen),
    slice_width, slice_height, slice_fourcc, slice_modifier, ofBe_uint32, ofBe_uint32, ofLe_uint32,
    ofBe_uint64]

end append

theorem exists_fields {a : Bytes} (h : a.length = 20) :
    ∃ (width height fourcc : UInt32) (modifier : UInt64),
      a = toBe 4 width.toNat ++ (toBe 4 height.toNat ++ (toLe 4 fourcc.toNat ++
        toBe 8 modifier.toNat)) := by
  obtain ⟨width, a, hwidth, rfl⟩ := exists_append a 4 (by omega)
  rw [length_append, hwidth] at h
  obtain ⟨height, a, hheight, rfl⟩ := exists_append a 4 (by omega)
  rw [length_append, hheight] at h
  obtain ⟨fourcc, modifier, hfourcc, rfl⟩ := exists_append a 4 (by omega)
  rw [length_append, hfourcc] at h
  refine ⟨UInt32.ofNat (ofBe width), UInt32.ofNat (ofBe height), UInt32.ofNat (ofLe fourcc),
    UInt64.ofNat (ofBe modifier), ?_⟩
  rw [toBe_uint32 hwidth, toBe_uint32 hheight, toLe_uint32 hfourcc, toBe_uint64 (by omega)]

/-- Every input long enough for the planes it announces is the bytes of a descriptor and a rest. -/
theorem exists_bytes_append {input : Bytes}
    (h : encodedLen (input.getD 20 0).toNat ≤ input.length) :
    ∃ d r, input = bytes d ++ r ∧ d.planes.length = (input.getD 20 0).toNat ∧
      d.fdCount = input.getD 21 0 := by
  simp only [encodedLen, headerBytes] at h
  obtain ⟨a, tail, ha, rfl⟩ := exists_append input 20 (by omega)
  rw [getD_append ha 0, length_append, ha] at h
  rw [getD_append ha 0, getD_append ha 1]
  obtain ⟨planeCount, tail, rfl⟩ := exists_cons_of_length_pos (l := tail) (by omega)
  rw [length_cons] at h
  obtain ⟨fdCount, tail, rfl⟩ := exists_cons_of_length_pos (l := tail) (by omega)
  rw [length_cons, getD_cons_zero] at h
  obtain ⟨body, r, hbody, rfl⟩ :=
    exists_append tail (planeBytes * planeCount.toNat) (by omega)
  obtain ⟨width, height, fourcc, modifier, rfl⟩ := exists_fields ha
  obtain ⟨planes, hplanes, rfl⟩ := exists_planes planeCount.toNat _ hbody
  refine ⟨⟨width, height, fourcc, modifier, planes, fdCount⟩, r, ?_, hplanes, rfl⟩
  rw [bytes_append, hplanes, UInt8.ofNat_toNat]
  simp only [append_assoc, cons_append, nil_append]

/-- An input parses exactly as the descriptor whose bytes it starts with. -/
theorem parse_eq_ok_iff {input : Bytes} :
    parse input = .ok d ↔
      ∃ r, input = d.bytes ++ r ∧ d.Sized ∧ ∀ p ∈ d.planes, Fits d.fdCount p := by
  have hplanes : ∀ (d : DmabufDescriptor) (r : Bytes), d.Sized →
      ((∀ p ∈ d.planes, Fits d.fdCount p) → parse (d.bytes ++ r) = .ok d) ∧
      ((∃ p ∈ d.planes, ¬ Fits d.fdCount p) → ∃ e, parse (d.bytes ++ r) = .error e) := by
    intro d r hsized
    obtain ⟨a, ha, heq⟩ := bytes_append_header d r
    obtain ⟨hall, hsome⟩ := parsePlanes_append d.fdCount d.planes r ha
    rw [← heq] at hall hsome
    rw [parse_append hsized]
    refine ⟨fun h => by rw [hall h]; rfl, fun h => ?_⟩
    obtain ⟨e, he⟩ := hsome h
    exact ⟨e, by rw [he]; rfl⟩
  constructor
  · intro h
    obtain ⟨d', r, rfl, hsized⟩ : ∃ d' r, input = bytes d' ++ r ∧ d'.Sized := by
      dsimp only [parse] at h
      split_ifs at h with hheader hcount hfd hlen
      obtain ⟨d', r, heq, hlength, hfdCount⟩ := exists_bytes_append (not_lt.mp hlen)
      obtain ⟨hone, hmax⟩ := hcount
      refine ⟨d', r, heq, ⟨?_, ?_, ?_⟩⟩
      · rw [hlength]
        exact UInt8.le_iff_toNat_le.mp hone
      · rw [hlength]
        exact hmax
      · rw [hfdCount]
        exact not_lt.mp hfd
    obtain ⟨hall, hsome⟩ := hplanes d' r hsized
    by_cases hfits : ∀ p ∈ d'.planes, Fits d'.fdCount p
    · obtain rfl := Except.ok.inj ((hall hfits).symm.trans h)
      exact ⟨r, rfl, hsized, hfits⟩
    · obtain ⟨e, he⟩ := hsome (by simpa using hfits)
      exact absurd (he.symm.trans h) (by simp)
  · rintro ⟨r, rfl, hsized, hfits⟩
    exact (hplanes d r hsized).1 hfits

/-! ## Writing -/

theorem write_eq_ok_iff {out buf : Bytes} {n : Nat} :
    d.write out = .ok (buf, n) ↔
      d.Sized ∧ n ≤ out.length ∧ n = encodedLen d.planes.length ∧ buf = d.bytes ++ out.drop n := by
  dsimp only [write]
  constructor
  · intro h
    split_ifs at h with hlen hcount hfd
    obtain ⟨rfl, rfl⟩ := Prod.mk.inj (Except.ok.inj h)
    obtain ⟨hone, hmax⟩ := hcount
    exact ⟨⟨hone, hmax, not_lt.mp hfd⟩, not_lt.mp hlen, rfl, rfl⟩
  · rintro ⟨hsized, hlen, rfl, rfl⟩
    rw [if_neg (not_lt.mpr hlen), if_neg (not_not_intro ⟨hsized.one_le, hsized.le_maxPlanes⟩),
      if_neg (not_lt.mpr hsized.fdCount_le)]

/-- A descriptor that can be written, and that passes the check for the flags, is parsed back from
what was written, whatever follows it. -/
def Survives (d : DmabufDescriptor) (flags : StreamFlags) : Prop :=
  ∀ out buf n, d.write out = .ok (buf, n) → d.checkFlags flags = .ok () →
    ∀ r, parse (buf.take n ++ r) = .ok d

/-- Only the planes are in question. -/
theorem survives_iff :
    d.Survives flags ↔
      (d.Sized → d.checkFlags flags = .ok () → ∀ p ∈ d.planes, Fits d.fdCount p) := by
  have htake : ∀ out : Bytes, (d.bytes ++ out).take (encodedLen d.planes.length) = d.bytes :=
    fun out => take_left' d.length_bytes
  constructor
  · intro h hsized hflags
    have hparse := h (List.replicate (encodedLen d.planes.length) 0) _ _
      (write_eq_ok_iff.mpr ⟨hsized, by rw [length_replicate], rfl, rfl⟩) hflags []
    exact (parse_eq_ok_iff.mp hparse).choose_spec.2.2
  · intro h out buf n hwrite hflags r
    obtain ⟨hsized, -, rfl, rfl⟩ := write_eq_ok_iff.mp hwrite
    rw [htake]
    exact parse_eq_ok_iff.mpr ⟨r, rfl, hsized, h hsized hflags⟩

/-! ## Flags -/

theorem max?_getD_le_iff {α : Type*} [Max α] [LE α] [Std.LawfulOrderSup α] {l : List α} {a k : α}
    (h : a ≤ k) : l.max?.getD a ≤ k ↔ ∀ x ∈ l, x ≤ k := by
  cases hmax : l.max? with
  | none =>
    rw [max?_eq_none_iff.mp hmax]
    exact iff_of_true h fun x hx => absurd hx not_mem_nil
  | some m => exact max?_le_iff hmax

theorem planeFdsNeeded_le_iff {k : Nat} :
    d.planeFdsNeeded ≤ k ↔ ∀ p ∈ d.planes, p.fdIndex.toNat + 1 ≤ k := by
  rw [planeFdsNeeded, max?_getD_le_iff (Nat.zero_le k), forall_mem_map]

theorem checkFlags_eq_ok_of_reuse (h : flags.contains StreamFlags.reuse = true) :
    d.checkFlags flags = .ok () ↔ d.fdCount = expectedFenceFds flags := by
  rw [checkFlags, if_pos h]
  by_cases hfd : d.fdCount = expectedFenceFds flags
  · simp [hfd]
  · simp [hfd]

/-- Without reuse, every plane needs a file descriptor of the packet that is not the fence. -/
theorem checkFlags_eq_ok_of_not_reuse (h : ¬ flags.contains StreamFlags.reuse = true) :
    d.checkFlags flags = .ok () ↔
      ∀ p ∈ d.planes, p.fdIndex.toNat + 1 ≤ d.fdCount.toNat - (expectedFenceFds flags).toNat := by
  rw [checkFlags, if_neg h, ← planeFdsNeeded_le_iff, ← not_lt]
  by_cases hneed : d.fdCount.toNat - (expectedFenceFds flags).toNat < d.planeFdsNeeded
  · simp [hneed]
  · simp [hneed]

/-- A descriptor survives unless it reuses a buffer, brings a fence, and has a plane whose file
descriptor was not the first. -/
theorem dmabuf_survives (d : DmabufDescriptor) (flags : StreamFlags) :
    d.Survives flags ↔
      ¬ (flags.contains StreamFlags.reuse = true ∧ flags.contains StreamFlags.withFence = true ∧
        (1 ≤ d.planes.length ∧ d.planes.length ≤ maxPlanes ∧ d.fdCount = 1) ∧
        ∃ p ∈ d.planes, p.fdIndex ≠ 0) := by
  rw [survives_iff]
  by_cases hreuse : flags.contains StreamFlags.reuse = true
  · rw [checkFlags_eq_ok_of_reuse hreuse]
    by_cases hfence : flags.contains StreamFlags.withFence = true
    · have hexpected : expectedFenceFds flags = 1 := if_pos hfence
      rw [hexpected]
      have hfits : ∀ p : DmabufPlane, Fits 1 p ↔ p.fdIndex = 0 := by
        intro p
        rw [Fits, ← UInt8.toNat_inj, ge_iff_le, UInt8.le_iff_toNat_le]
        show ¬ (_ ∧ 1 ≤ p.fdIndex.toNat) ↔ p.fdIndex.toNat = 0
        rw [and_iff_right (by decide)]
        omega
      constructor
      · rintro h ⟨-, -, ⟨hone, hmax, hfd⟩, p, hp, hne⟩
        have hsized : d.Sized := ⟨hone, hmax, by rw [hfd]; decide⟩
        have hp' := h hsized hfd p hp
        rw [hfd] at hp'
        exact hne ((hfits p).mp hp')
      · intro h hsized hfd p hp
        rw [hfd, hfits]
        by_contra hne
        exact h ⟨hreuse, hfence, ⟨hsized.one_le, hsized.le_maxPlanes, hfd⟩, p, hp, hne⟩
    · have hexpected : expectedFenceFds flags = 0 := if_neg hfence
      refine iff_of_true (fun _ hfd p _ hmis => ?_) (fun h => hfence h.2.1)
      rw [hfd, hexpected] at hmis
      exact absurd hmis.1 (by decide)
  · refine iff_of_true (fun _ hok p hp hmis => ?_) (fun h => hreuse h.1)
    have hle := (checkFlags_eq_ok_of_not_reuse hreuse).mp hok p hp
    have hge := UInt8.le_iff_toNat_le.mp hmis.2
    omega

/-- An image of two planes that had a file descriptor each, with a fence and nothing else. -/
def reusedImage : DmabufDescriptor :=
  ⟨1920, 1080, 0x3231564e, 0, [⟨0, 1920, 0⟩, ⟨0, 1920, 1⟩], 1⟩

/-- With the flags `DMABUF`, `WITH_FENCE` and `REUSE` the image is written and passes the check,
and what was written is not parsed. -/
theorem dmabuf_reuse_fence_rejected :
    reusedImage.write (List.replicate 40 0) = .ok (reusedImage.bytes, 40) ∧
      reusedImage.checkFlags ⟨0x70⟩ = .ok () ∧
      parse reusedImage.bytes = .error (.fdIndexOutOfRange 1 1) ∧
      ¬ reusedImage.Survives ⟨0x70⟩ := by
  have hwrite : reusedImage.write (List.replicate 40 0) = .ok (reusedImage.bytes, 40) := rfl
  have hflags : reusedImage.checkFlags ⟨0x70⟩ = .ok () := rfl
  have hparse : parse reusedImage.bytes = .error (.fdIndexOutOfRange 1 1) := by decide +kernel
  refine ⟨hwrite, hflags, hparse, fun h => ?_⟩
  have hback := h _ _ _ hwrite hflags []
  rw [append_nil, take_of_length_le (by decide)] at hback
  exact absurd (hparse.symm.trans hback) (by simp)

end DmabufDescriptor

end Telesthete.Wire
