import Mathlib.Data.List.Infix
import Telesthete.Proofs.ReassemblerSteps

/-!
# What the reassembler makes of an ordered stream of chunks

The reassembler is written for chunks in any order from any number of
messages. A Channel feeds it something tamer, the chunks of one message
after the other, in order; this file says exactly what comes out then.

A message comes out, once and whole, when its last chunk is fed no later
than the timeout after its first, and never otherwise: a reading past the
timeout drops the partial, the chunk at hand starts another, and that one
misses the chunks before it for good. What such a message leaves behind is
in nobody's way. The byte budget evicts other partials before it would
refuse a chunk, one message alone always fits it, and the limit on the
number of partials evicts before a new one is opened, so every eviction
hits a message that is over.

`onTime` is this answer as a function of the messages and the readings, and
`replay_eq_onTime` is the theorem.
-/

namespace Telesthete.Wire

open Telesthete.Lib List

variable {fid : FragmentId} {msg : Bytes} {chunks : List Bytes}

/-! ## Chunks -/

theorem parseChunk_packChunk {seq total : Nat} {data : Bytes}
    (hseq : seq < total) (htotal : total ≤ wireMaxFragments) :
    parseChunk (packChunk fid seq total data) = some ⟨fid, seq, total, data⟩ := by
  have hfid : fid.toList.length = 16 := fid.toList_length
  have hlen : (packChunk fid seq total data).length = fragHeaderLen + data.length := by
    simp [packChunk, fragHeaderLen, hfid]
    omega
  have hnot : ¬ ((packChunk fid seq total data).length < fragHeaderLen ∨
      (packChunk fid seq total data).head? ≠ some version) := by
    rw [hlen]
    simp [packChunk]
  have hseqField : ((packChunk fid seq total data).drop 17).take 2 = toBe 2 seq := by
    simp [packChunk, hfid]
  have htotalField : ((packChunk fid seq total data).drop 19).take 2 = toBe 2 total := by
    simp [packChunk, drop_append, hfid, drop_eq_nil_of_le]
  have hid : ((packChunk fid seq total data).drop 1).take 16 = fid.toList := by
    simp [packChunk, hfid]
  have hdata : (packChunk fid seq total data).drop fragHeaderLen = data := by
    simp [packChunk, fragHeaderLen, drop_append, hfid, drop_eq_nil_of_le]
  have hw : total < 256 ^ 2 := lt_of_le_of_lt htotal (by decide)
  rw [parseChunk, dif_neg hnot]
  simp only [hseqField, htotalField, ofBe_toBe hw, ofBe_toBe (lt_trans hseq hw), hdata, hid]
  rw [if_neg (by omega)]
  rfl

/-- A message cut into pieces: what `fragment` packs. -/
structure Cut (msg : Bytes) (fid : FragmentId) (ps : List Bytes) (chunks : List Bytes) : Prop where
  pos : 0 < ps.length
  le : ps.length ≤ wireMaxFragments
  flatten : ps.flatten = msg
  size : ∀ p ∈ ps, p.length ≤ maxChunkPayload
  chunks : chunks = ps.zipIdx.map fun p => packChunk fid p.2 ps.length p.1

theorem flatMap_range_pieces (chunkSize : Nat) (l : Bytes) : ∀ k,
    (List.range k).flatMap (fun i => (l.drop (i * chunkSize)).take chunkSize) =
      l.take (k * chunkSize) := by
  intro k
  induction k with
  | zero => simp
  | succ k ih =>
    rw [range_succ, flatMap_append, ih, Nat.succ_mul, take_add]
    simp

theorem flatten_pieces {chunkSize : Nat} (h : 0 < chunkSize) (payload : Bytes) :
    (pieces chunkSize payload).flatten = payload := by
  rw [pieces, ← flatMap_def, flatMap_range_pieces]
  apply take_of_length_le
  have := Nat.div_add_mod (payload.length + chunkSize - 1) chunkSize
  have := Nat.mod_lt (payload.length + chunkSize - 1) h
  have hc := Nat.mul_comm chunkSize ((payload.length + chunkSize - 1) / chunkSize)
  omega

theorem fragment_cut
    (h : fragment msg maxChunkPayload fid = some chunks) : ∃ ps, Cut msg fid ps chunks := by
  rw [fragment] at h
  split at h
  · rename_i hnil
    refine ⟨[[]], by decide, by decide, ?_, by simp, ?_⟩
    · rw [hnil]
      rfl
    · rw [← Option.some.inj h]
      rfl
  · rename_i hne
    simp only [Option.ite_none_left_eq_some, Option.some.injEq] at h
    obtain ⟨hle, rfl⟩ := h
    have hflat : (pieces maxChunkPayload msg).flatten = msg := flatten_pieces (by decide) msg
    refine ⟨pieces maxChunkPayload msg, ?_, ?_, hflat, ?_, rfl⟩
    · apply length_pos_of_ne_nil
      intro hnil
      rw [hnil] at hflat
      exact hne hflat.symm
    · rw [wireMaxFragments]
      omega
    · intro p hp
      obtain ⟨i, -, rfl⟩ := mem_map.mp hp
      rw [length_take]
      exact Nat.min_le_left _ _

/-- The `k`-th chunk carries the `k`-th piece. -/
theorem Cut.getElem? {ps chunks : List Bytes} (h : Cut msg fid ps chunks) (k : Nat) :
    chunks[k]? = (ps[k]?).map fun p => packChunk fid k ps.length p := by
  rw [h.chunks]
  simp [getElem?_zipIdx]
  rfl

theorem Cut.length {ps chunks : List Bytes}
    (h : Cut msg fid ps chunks) : chunks.length = ps.length := by
  rw [h.chunks]
  simp

/-! ## The state of a reassembler between chunks -/

namespace Reassembler

variable {r : Reassembler} {held gone : List FragmentId} {fid g : FragmentId} {now : Nat}
variable {b msg : Bytes} {first last : Nat} {chunks : List Bytes}

/-- A Channel's reassembler whose partials are of the messages `held` and
whose evicted ids are of the messages `gone`. -/
structure Sane (r : Reassembler) (held gone : List FragmentId) : Prop where
  bytes : r.bytes = r.sizes
  buffers : ∀ g ∈ r.buffers, g ∈ held
  evicted : ∀ g ∈ r.evicted, g ∈ gone
  maxFragments : r.maxFragments = wireMaxFragments
  maxChunkPayload : r.maxChunkPayload = Wire.maxChunkPayload
  budget : r.maxBufferedBytes = some libraryMaxBufferedBytes
  timeout : r.timeout = defaultReassemblyTimeout

theorem sane_forChunkSize : Sane (forChunkSize Wire.maxChunkPayload) [] [] where
  bytes := rfl
  buffers := by simp [forChunkSize, withMaxBufferedBytes, withMaxFragments, withMaxChunkPayload, new]
  evicted := by simp [forChunkSize, withMaxBufferedBytes, withMaxFragments, withMaxChunkPayload, new]
  maxFragments := rfl
  maxChunkPayload := rfl
  budget := rfl
  timeout := rfl

theorem Sane.mono {held' gone' : List FragmentId} (h : Sane r held gone)
    (hheld : ∀ g ∈ held, g ∈ held') (hgone : ∀ g ∈ gone, g ∈ gone') : Sane r held' gone' :=
  { h with
    buffers := fun g hg => hheld g (h.buffers g hg)
    evicted := fun g hg => hgone g (h.evicted g hg) }

theorem Sane.dropPartial (h : Sane r held gone) (g : FragmentId) :
    Sane (r.dropPartial g) held gone := by
  have hbytes := sizes_dropPartial (g := g) h.bytes
  cases hp : r.buffers.lookup g with
  | none => rwa [dropPartial_of_none hp]
  | some p =>
    rw [dropPartial_of_some hp] at hbytes ⊢
    exact { h with
      bytes := hbytes
      buffers := fun k hk => h.buffers k (AList.mem_erase.mp hk).2 }

theorem Sane.evict (h : Sane r held gone) (hg : g ∈ gone) : Sane (r.evict g now) held gone :=
  { h.dropPartial g with
    evicted := fun k hk => (evicted_of_evict hk).elim (fun heq => heq ▸ hg) (h.evicted k) }

theorem Sane.gc (h : Sane r held gone) (now : Nat) : Sane (r.gc now) held gone := by
  have hexp : Sane (r.expired now) held gone :=
    { h with evicted := fun k hk => h.evicted k (expireEvicted_sub hk) }
  exact List.foldlRecOn (motive := fun s => Sane s held gone) _ _ hexp
    fun s hs g _ => hs.dropPartial g

/-! Making room. -/

/-- Nothing else is buffered: the bytes are those of the message itself. -/
theorem oldest_none (h : Sane r held gone) (hnone : r.oldest (some fid) = none) :
    r.bytes = ((r.buffers.lookup fid).map Partial.size).getD 0 := by
  have hempty : (r.dropPartial fid).buffers.entries = [] := by
    refine eq_nil_iff_forall_not_mem.mpr fun e he => ?_
    obtain ⟨hne, hmem⟩ := mem_dropPartial.mp (mem_of_mem_entries he)
    obtain ⟨victim, hvictim⟩ := exists_oldest (some fid) hmem fun heq => hne (Option.some.inj heq)
    rw [hnone] at hvictim
    cases hvictim
  have hzero : (r.dropPartial fid).bytes = 0 := by
    rw [sizes_dropPartial h.bytes, sizes, hempty]
    rfl
  cases hp : r.buffers.lookup fid with
  | none =>
    rw [dropPartial_of_none hp] at hzero
    exact hzero
  | some p =>
    have hle := size_le_bytes h.bytes hp
    rw [dropPartial_of_some hp] at hzero
    exact le_antisymm (Nat.le_of_sub_eq_zero hzero) hle

theorem Sane.mem_gone (h : Sane r (fid :: gone) gone) (hg : g ∈ r.buffers) (hne : fid ≠ g) :
    g ∈ gone :=
  (mem_cons.mp (h.buffers g hg)).resolve_left hne.symm

/-- The budget loop never gives up on a message that fits the budget alone,
and never touches its partial. -/
theorem Sane.makeRoom (now : Nat) {n : Nat} (h : Sane r (fid :: gone) gone)
    (hfit : ((r.buffers.lookup fid).map Partial.size).getD 0 + n ≤ libraryMaxBufferedBytes) :
    ∃ s, Reassembler.makeRoom fid n libraryMaxBufferedBytes now (r.buffers.entries.length + 1) r =
        (s, true) ∧
      Sane s (fid :: gone) gone ∧ s.buffers.lookup fid = r.buffers.lookup fid := by
  have hpass : ∀ (s : Reassembler) victim,
      Sane s (fid :: gone) gone ∧ s.buffers.lookup fid = r.buffers.lookup fid →
      libraryMaxBufferedBytes < s.bytes + n → s.oldest (some fid) = some victim →
      Sane (s.evict victim now) (fid :: gone) gone ∧
        (s.evict victim now).buffers.lookup fid = r.buffers.lookup fid := by
    intro s victim hs _ hold
    obtain ⟨hmem, hne⟩ := oldest_some hold
    have hne' : fid ≠ victim := fun heq => hne (by rw [heq])
    refine ⟨hs.1.evict (hs.1.mem_gone hmem hne'), ?_⟩
    rw [evict_lookup, if_neg hne', hs.2]
  rcases makeRoom_rule hpass (r.buffers.entries.length + 1) r ⟨h, rfl⟩ (Nat.lt_succ_self _) with
    ⟨hflag, hs, -⟩ | ⟨s, hs, hover, hold, -⟩
  · exact ⟨_, Prod.ext rfl hflag, hs⟩
  · have hown := oldest_none hs.1 hold
    rw [hs.2] at hown
    omega

/-! Opening and storing. -/

theorem Sane.insert {p : Partial} {bytes order : Nat} (h : Sane r (fid :: gone) gone)
    (hbytes : bytes = ({ r with buffers := r.buffers.insert fid p } : Reassembler).sizes) :
    Sane { r with buffers := r.buffers.insert fid p, bytes := bytes, nextOrder := order }
      (fid :: gone) gone := by
  refine { h with bytes := hbytes, buffers := fun k hk => ?_ }
  rcases (AList.mem_insert _).mp hk with rfl | hk
  · exact mem_cons_self
  · exact h.buffers k hk

/-- At the limit the victim is another message's, since this one has no partial. -/
theorem Sane.slot (h : Sane r (fid :: gone) gone) (hnot : fid ∉ r.buffers) (now : Nat) :
    Sane (r.slot now) (fid :: gone) gone ∧ fid ∉ (r.slot now).buffers := by
  unfold Reassembler.slot
  split
  · split
    · next victim hvictim =>
      have hmem := (oldest_some hvictim).1
      have hne : fid ≠ victim := fun heq => hnot (heq ▸ hmem)
      exact ⟨h.evict (h.mem_gone hmem hne), fun hin => hnot (mem_evict.mp hin).2⟩
    · exact ⟨h, hnot⟩
  · exact ⟨h, hnot⟩

/-- A partial is there after `openPartial`: the one that was, or a new one. -/
theorem Sane.openPartial {c : Chunk} (h : Sane r (c.fragmentId :: gone) gone) :
    Sane (r.openPartial c now) (c.fragmentId :: gone) gone ∧
      ∃ order, (r.openPartial c now).buffers.lookup c.fragmentId =
        some ((r.buffers.lookup c.fragmentId).getD (opened c.total now order)) := by
  by_cases hmem : c.fragmentId ∈ r.buffers
  · obtain ⟨p, hp⟩ := (mem_buffers_iff r c.fragmentId).mp hmem
    rw [openPartial_of_mem hmem, hp]
    exact ⟨h, 0, rfl⟩
  · obtain ⟨hs, hnot⟩ := h.slot hmem now
    rw [openPartial_of_notMem hmem, AList.lookup_eq_none.mpr hmem]
    exact ⟨hs.insert (sizes_insert_opened hs.bytes hnot _ _ _), _, AList.lookup_insert _⟩

/-- Storing a chunk that does not complete its message. -/
theorem Sane.store_more {c : Chunk} {p : Partial} (h : Sane r (c.fragmentId :: gone) gone)
    (hp : r.buffers.lookup c.fragmentId = some p)
    (hmore : (addTo p c).parts.entries.length ≠ p.total) :
    (r.store c).2 = none ∧ Sane (r.store c).1 (c.fragmentId :: gone) gone ∧
      (r.store c).1.buffers.lookup c.fragmentId = some (addTo p c) := by
  rw [store_of_lacks hp hmore]
  exact ⟨rfl, h.insert (sizes_insert_addTo h.bytes hp), AList.lookup_insert _⟩

/-- Storing the chunk that completes its message. -/
theorem Sane.store_last {c : Chunk} {p : Partial} (h : Sane r (c.fragmentId :: gone) gone)
    (hp : r.buffers.lookup c.fragmentId = some p)
    (hlast : (addTo p c).parts.entries.length = p.total) :
    (r.store c).2 = some (assemble (addTo p c)) ∧
      Sane (r.store c).1 (c.fragmentId :: gone) gone := by
  rw [store_fst_of_full hp hlast, store_of_full hp hlast]
  exact ⟨rfl, h.dropPartial _⟩

/-! ## The message being fed -/

/-- A partial of the message `ps` after its first `k` chunks were fed. -/
structure Kept (ps : List Bytes) (k : Nat) (p : Partial) : Prop where
  total : p.total = ps.length
  size : p.size ≤ k * Wire.maxChunkPayload
  below : ∀ i ∈ p.parts, i < k

/-- It has all `k` of them. -/
structure Whole (ps : List Bytes) (firstSeen k : Nat) (p : Partial) : Prop extends Kept ps k p where
  firstSeen : p.firstSeen = firstSeen
  count : p.parts.entries.length = k
  parts : ∀ i, i < k → p.parts.lookup i = ps[i]?

/-- It lacks at least one. -/
structure Torn (ps : List Bytes) (k : Nat) (p : Partial) : Prop extends Kept ps k p where
  count : p.parts.entries.length < k

theorem kept_opened (ps : List Bytes) (k now order : Nat) :
    Kept ps k (opened ps.length now order) :=
  ⟨rfl, Nat.zero_le _, fun i hi => absurd hi (AList.notMem_empty i)⟩

theorem whole_opened (ps : List Bytes) (now order : Nat) :
    Whole ps now 0 (opened ps.length now order) :=
  { kept_opened ps 0 now order with
    firstSeen := rfl, count := rfl, parts := fun i hi => absurd hi (Nat.not_lt_zero i) }

theorem torn_opened (ps : List Bytes) {k : Nat} (hk : 0 < k) (now order : Nat) :
    Torn ps k (opened ps.length now order) :=
  { kept_opened ps k now order with count := hk }

variable {ps : List Bytes} {k firstSeen : Nat} {p : Partial} {c : Chunk}

/-- `c` is the `k`-th chunk of the message `ps`. -/
structure IsChunk (ps : List Bytes) (fid : FragmentId) (k : Nat) (c : Chunk) : Prop where
  fragmentId : c.fragmentId = fid
  seq : c.seq = k
  total : c.total = ps.length
  data : ps[k]? = some c.data
  size : c.data.length ≤ Wire.maxChunkPayload

theorem IsChunk.lt (h : IsChunk ps fid k c) : k < ps.length :=
  (List.getElem?_eq_some_iff.mp h.data).1

theorem Kept.fresh (h : Kept ps k p) (hc : IsChunk ps fid k c) : c.seq ∉ p.parts := by
  intro hmem
  have := h.below _ hmem
  have := hc.seq
  omega

theorem Kept.add (h : Kept ps k p) (hc : IsChunk ps fid k c) : Kept ps (k + 1) (addTo p c) where
  total := h.total
  size := by
    have := h.size
    have := hc.size
    show p.size + c.data.length ≤ _
    rw [Nat.add_mul, Nat.one_mul]
    omega
  below := by
    intro i hi
    rcases (AList.mem_insert _).mp hi with rfl | hi
    · have := hc.seq
      omega
    · have := h.below i hi
      omega

theorem Kept.count_add (h : Kept ps k p) (hc : IsChunk ps fid k c) :
    (addTo p c).parts.entries.length = p.parts.entries.length + 1 :=
  length_entries_insert (h.fresh hc)

theorem Whole.add (h : Whole ps firstSeen k p) (hc : IsChunk ps fid k c) :
    Whole ps firstSeen (k + 1) (addTo p c) :=
  { h.toKept.add hc with
    firstSeen := h.firstSeen
    count := by rw [h.toKept.count_add hc, h.count]
    parts := by
      intro i hi
      show (p.parts.insert c.seq c.data).lookup i = _
      by_cases hik : i = c.seq
      · rw [hik, AList.lookup_insert, hc.seq, hc.data]
      · rw [AList.lookup_insert_ne hik]
        have := hc.seq
        exact h.parts i (by omega) }

theorem Torn.add (h : Torn ps k p) (hc : IsChunk ps fid k c) : Torn ps (k + 1) (addTo p c) :=
  { h.toKept.add hc with
    count := by
      rw [h.toKept.count_add hc]
      exact Nat.succ_lt_succ h.count }

/-- A partial with every chunk spells the message. -/
theorem Whole.assemble_eq (h : Whole ps firstSeen ps.length p) : assemble p = ps.flatten := by
  have hparts : ∀ i ∈ List.range ps.length, (p.parts.lookup i).getD [] = ps.getD i [] := by
    intro i hi
    rw [h.parts i (mem_range.mp hi), getD_eq_getElem?_getD]
  rw [assemble, h.total, flatMap_congr hparts]
  have hmap : (List.range ps.length).map (fun i => ps.getD i []) = ps := by
    apply ext_getElem
    · simp
    · intro i h₁ h₂
      simp [h₂]
  rw [flatMap_def, hmap]

/-- Feeding a chunk of a message of several: what is left of its partial, or
a new one, gets the chunk. -/
theorem Sane.feed (now : Nat) (hb : parseChunk b = some c) (h : Sane r (fid :: gone) gone)
    (hfid : fid ∉ gone) (hc : IsChunk ps fid k c) (hmany : 1 < ps.length)
    (hle : ps.length ≤ wireMaxFragments) (hkept : ∀ p, r.buffers.lookup fid = some p → Kept ps k p) :
    ∃ r' order, Sane r' (fid :: gone) gone ∧
      r'.buffers.lookup fid = some (((r.buffers.lookup fid).filter fun p =>
        now - p.firstSeen ≤ defaultReassemblyTimeout).getD (opened ps.length now order)) ∧
      r.feed b now = r'.store c := by
  have hs := h.gc now
  have hl := lookup_gc r now fid
  rw [h.timeout] at hl
  have hkept' : ∀ p, (r.gc now).buffers.lookup fid = some p → Kept ps k p := by
    intro p hp
    rw [hl] at hp
    exact hkept p (Option.filter_eq_some_iff.mp hp).1
  have hnotEvicted : c.fragmentId ∉ (r.gc now).evicted := by
    rw [hc.fragmentId]
    exact fun hmem => hfid (hs.evicted fid hmem)
  have hfit : (((r.gc now).buffers.lookup fid).map Partial.size).getD 0 + c.data.length ≤
      libraryMaxBufferedBytes := by
    have hlt := hc.lt
    have hsize := hc.size
    have hown : (((r.gc now).buffers.lookup fid).map Partial.size).getD 0 ≤
        k * Wire.maxChunkPayload := by
      cases hp : (r.gc now).buffers.lookup fid with
      | none => exact Nat.zero_le _
      | some p => exact (hkept' p hp).size
    have hbig : (k + 1) * Wire.maxChunkPayload ≤ wireMaxFragments * Wire.maxChunkPayload :=
      Nat.mul_le_mul_right _ (by omega)
    have hroom : wireMaxFragments * Wire.maxChunkPayload ≤ libraryMaxBufferedBytes := by decide
    rw [Nat.add_mul, Nat.one_mul] at hbig
    omega
  rw [← hl]
  generalize hr₁ : r.gc now = r₁ at hs hkept' hnotEvicted hfit
  obtain ⟨r₂, hr₂, hs₂, hl₂⟩ := hs.makeRoom now hfit
  have hopen : Sane (r₂.openPartial c now) (c.fragmentId :: gone) gone ∧ _ :=
    Sane.openPartial (by rw [hc.fragmentId]; exact hs₂)
  rw [hc.fragmentId, hl₂, hc.total] at hopen
  obtain ⟨hs₃, order, hl₃⟩ := hopen
  refine ⟨_, order, hs₃, hl₃, ?_⟩
  have hlen : ¬ c.data.length > Wire.maxChunkPayload := not_lt.mpr hc.size
  have hlen' : ¬ c.data.length > libraryMaxBufferedBytes := by omega
  have haccept : r₁.accept c now = (r₂.openPartial c now).store c := by
    rw [accept, hs.maxChunkPayload, if_neg hlen, hs.budget]
    simp only [if_neg hlen', hc.fragmentId, hr₂, if_true]
  have htotal : ¬ c.total > r.maxFragments := by
    rw [h.maxFragments, hc.total]
    omega
  rw [Reassembler.feed, hb]
  simp only [if_neg htotal, hr₁, if_neg hnotEvicted]
  rw [hc.fragmentId]
  cases hp : r₁.buffers.lookup fid with
  | none =>
    simp only [hp]
    rw [if_neg (by rw [hc.total]; omega)]
    exact haccept
  | some p =>
    have hk := hkept' p hp
    have hsame : ¬ p.total ≠ c.total := by rw [hk.total, hc.total]; simp
    simp only [if_neg hsame, hp, if_neg (hk.fresh hc)]
    exact haccept

/-- The partial of a message some of whose chunks were fed: whole while the
readings stay within the timeout of the first, torn from then on. -/
def Fed (ps : List Bytes) (first last k : Nat) (p : Partial) : Prop :=
  if last - first ≤ defaultReassemblyTimeout then Whole ps first k p else Torn ps k p

theorem Fed.kept (h : Fed ps first last k p) : Kept ps k p := by
  rw [Fed] at h
  split at h
  · exact h.toKept
  · exact h.toKept

/-- Expiry at a later reading, and the partial opened in place of one that
expired. -/
theorem Fed.expire {first last order : Nat} (h : Fed ps first last k p) (hk : 0 < k)
    (hle : last ≤ now) :
    Fed ps first now k (((some p).filter fun p =>
      now - p.firstSeen ≤ defaultReassemblyTimeout).getD (opened ps.length now order)) := by
  rw [Fed] at h ⊢
  rw [Option.filter_some]
  by_cases hnow : now - first ≤ defaultReassemblyTimeout
  · rw [if_pos (by omega)] at h
    rw [if_pos hnow, h.firstSeen, if_pos (by simpa using hnow)]
    exact h
  · rw [if_neg hnow]
    split
    · split at h
      · rename_i hin _
        rw [h.firstSeen] at hin
        exact absurd (of_decide_eq_true hin) hnow
      · exact h
    · exact torn_opened ps hk now order

theorem Fed.add (h : Fed ps first last k p) (hc : IsChunk ps fid k c) :
    Fed ps first last (k + 1) (addTo p c) := by
  rw [Fed] at h ⊢
  split at h
  · rename_i hin
    rw [if_pos hin]
    exact h.add hc
  · rename_i hout
    rw [if_neg hout]
    exact h.add hc

/-- Storing the next chunk: the message comes out with the last one if its
partial is whole. -/
theorem Sane.store_fed (h : Sane r (fid :: gone) gone)
    (hc : IsChunk ps fid k c) (hp : r.buffers.lookup fid = some p) (hfed : Fed ps first last k p) :
    Sane (r.store c).1 (fid :: gone) gone ∧
      (k + 1 < ps.length → (r.store c).2 = none ∧
        ∃ p, (r.store c).1.buffers.lookup fid = some p ∧ Fed ps first last (k + 1) p) ∧
      (k + 1 = ps.length → (r.store c).2 =
        if last - first ≤ defaultReassemblyTimeout then some ps.flatten else none) := by
  have hadd := hfed.add hc
  have htotal := hfed.kept.total
  obtain rfl := hc.fragmentId
  by_cases hlast : (addTo p c).parts.entries.length = p.total
  · obtain ⟨hout, hs⟩ := h.store_last hp hlast
    rw [Fed] at hadd
    split at hadd
    · rename_i hin
      have hk : k + 1 = ps.length := by rw [← hadd.count, hlast, htotal]
      refine ⟨hs, fun hlt => absurd hk (by omega), fun _ => ?_⟩
      rw [hk] at hadd
      rw [hout, if_pos hin, hadd.assemble_eq]
    · have := hadd.count
      have := hc.lt
      omega
  · obtain ⟨hout, hs, hl⟩ := h.store_more hp hlast
    refine ⟨hs, fun _ => ⟨hout, _, hl, hadd⟩, fun hk => ?_⟩
    rw [hout]
    split
    · rename_i hin
      rw [Fed, if_pos hin] at hadd
      exact absurd (hadd.count.trans (hk.trans htotal.symm)) hlast
    · rfl

/-- A message of several chunks after its first: the next one. -/
theorem Sane.feed_next (hb : parseChunk b = some c)
    (h : Sane r (fid :: gone) gone) (hfid : fid ∉ gone) (hc : IsChunk ps fid k c) (hk : 0 < k)
    (hle : ps.length ≤ wireMaxFragments) (hp : r.buffers.lookup fid = some p)
    (hfed : Fed ps first last k p) (hnow : last ≤ now) :
    Sane (r.feed b now).1 (fid :: gone) gone ∧
      (k + 1 < ps.length → (r.feed b now).2 = none ∧
        ∃ p, (r.feed b now).1.buffers.lookup fid = some p ∧ Fed ps first now (k + 1) p) ∧
      (k + 1 = ps.length → (r.feed b now).2 =
        if now - first ≤ defaultReassemblyTimeout then some ps.flatten else none) := by
  have hlt := hc.lt
  obtain ⟨r', order, hs, hl, heq⟩ := h.feed now hb hfid hc (by omega) hle (by
    intro p' hp'
    rw [hp] at hp'
    rw [← Option.some.inj hp']
    exact hfed.kept)
  rw [hp] at hl
  rw [heq]
  exact hs.store_fed hc hl (hfed.expire hk hnow)

/-- A message of several chunks: the first one. -/
theorem Sane.feed_first (now : Nat) (hb : parseChunk b = some c) (h : Sane r (fid :: gone) gone)
    (hfid : fid ∉ gone) (hc : IsChunk ps fid 0 c) (hmany : 1 < ps.length)
    (hle : ps.length ≤ wireMaxFragments) (hp : r.buffers.lookup fid = none) :
    Sane (r.feed b now).1 (fid :: gone) gone ∧ (r.feed b now).2 = none ∧
      ∃ p, (r.feed b now).1.buffers.lookup fid = some p ∧ Fed ps now now 1 p := by
  obtain ⟨r', order, hs, hl, heq⟩ := h.feed now hb hfid hc hmany hle (by
    intro p' hp'
    rw [hp] at hp'
    exact absurd hp' (by simp))
  rw [hp, Option.filter_none, Option.getD_none] at hl
  have hfed : Fed ps now now 0 (opened ps.length now order) := by
    rw [Fed, if_pos (by omega)]
    exact whole_opened ps now order
  obtain ⟨hs', hmore, -⟩ := hs.store_fed hc hl hfed
  rw [heq]
  exact ⟨hs', hmore hmany⟩

/-- A message of one chunk. -/
theorem Sane.feed_single (now : Nat) (hb : parseChunk b = some c) (h : Sane r gone gone)
    (hfid : fid ∉ gone) (hc : IsChunk ps fid 0 c) (hone : ps.length = 1) :
    Sane (r.feed b now).1 gone gone ∧ (r.feed b now).2 = some ps.flatten := by
  have hs := h.gc now
  have hnotEvicted : c.fragmentId ∉ (r.gc now).evicted := by
    rw [hc.fragmentId]
    exact fun hmem => hfid (hs.evicted fid hmem)
  have hnone : (r.gc now).buffers.lookup fid = none :=
    AList.lookup_eq_none.mpr fun hmem => hfid (hs.buffers fid hmem)
  have htotal : ¬ c.total > r.maxFragments := by
    rw [h.maxFragments, hc.total, hone]
    decide
  have hfeed : r.feed b now = (r.gc now, some c.data) := by
    rw [Reassembler.feed, hb]
    simp only [if_neg htotal, if_neg hnotEvicted]
    rw [hc.fragmentId]
    simp only [hnone, hc.total, hone, if_true]
  rw [hfeed]
  refine ⟨hs, ?_⟩
  obtain ⟨d, rfl⟩ := length_eq_one_iff.mp hone
  have hdata : c.data = d := (Option.some.inj hc.data).symm
  simp [hdata]

/-! ## Whole messages -/

/-- Feed chunks at their readings, collecting what comes out. -/
def replay : Reassembler → List (Bytes × Nat) → Reassembler × List Bytes
  | r, [] => (r, [])
  | r, (chunk, now) :: rest =>
    let fed := r.feed chunk now
    let last := replay fed.1 rest
    (last.1, fed.2.toList ++ last.2)

theorem replay_append : ∀ (l₁ : List (Bytes × Nat)) (r : Reassembler) (l₂ : List (Bytes × Nat)),
    r.replay (l₁ ++ l₂) =
      (((r.replay l₁).1.replay l₂).1, (r.replay l₁).2 ++ ((r.replay l₁).1.replay l₂).2) := by
  intro l₁
  induction l₁ with
  | nil => exact fun r l₂ => rfl
  | cons e l₁ ih =>
    obtain ⟨chunk, now⟩ := e
    intro r l₂
    rw [cons_append, replay, replay, ih]
    simp

/-- The `k`-th chunk on the wire is the `k`-th chunk of the message. -/
theorem isChunk_of_cut (h : Cut msg fid ps chunks) (hb : chunks[k]? = some b) :
    ∃ c, parseChunk b = some c ∧ IsChunk ps fid k c := by
  rw [h.getElem?] at hb
  obtain ⟨d, hd, rfl⟩ := Option.map_eq_some_iff.mp hb
  have hk := (List.getElem?_eq_some_iff.mp hd).1
  exact ⟨⟨fid, k, ps.length, d⟩, parseChunk_packChunk hk h.le, rfl, rfl, rfl, hd,
    h.size d (mem_of_getElem? hd)⟩

/-- What the end of a message yields. -/
def verdict (msg : Bytes) (first last : Nat) : List Bytes :=
  if last - first ≤ defaultReassemblyTimeout then [msg] else []

/-- The rest of a message, or a part of the rest. -/
theorem Sane.replay_rest (hcut : Cut msg fid ps chunks) (hfid : fid ∉ gone) :
    ∀ (l : List (Bytes × Nat)) (r : Reassembler) (k last : Nat) (p : Partial),
      Sane r (fid :: gone) gone → 0 < k → k < ps.length →
      r.buffers.lookup fid = some p → Fed ps first last k p →
      l.map Prod.fst <+: chunks.drop k → (last :: l.map Prod.snd).Pairwise (· ≤ ·) →
      (r.replay l).2 = (if k + l.length < ps.length then []
        else verdict msg first ((l.map Prod.snd).getLastD last)) ∧
      Sane (r.replay l).1 (fid :: gone) gone := by
  intro l
  induction l with
  | nil =>
    intro r k last p h _ hk _ _ _ _
    rw [length_nil, Nat.add_zero, if_pos hk]
    exact ⟨rfl, h⟩
  | cons e l ih =>
    obtain ⟨b, now⟩ := e
    intro r k last p h hk0 hk hp hfed hsub hsorted
    have hkc : k < chunks.length := by rw [hcut.length]; exact hk
    rw [map_cons, drop_eq_getElem_cons hkc, cons_prefix_cons] at hsub
    obtain ⟨c, hparse, hc⟩ := isChunk_of_cut hcut (getElem?_eq_getElem hkc)
    rw [← hsub.1] at hparse
    rw [map_cons, pairwise_cons] at hsorted
    have hnow : last ≤ now := hsorted.1 now mem_cons_self
    obtain ⟨hs, hmore, hlast⟩ := h.feed_next hparse hfid hc hk0 hcut.le hp hfed hnow
    rw [replay, length_cons, map_cons, getLastD_cons]
    rcases lt_or_ge (k + 1) ps.length with hlt | hge
    · obtain ⟨hnone, p', hp', hfed'⟩ := hmore hlt
      obtain ⟨hout, hs'⟩ := ih _ (k + 1) now p' hs (Nat.succ_pos k) hlt hp' hfed' hsub.2 hsorted.2
      refine ⟨?_, hs'⟩
      simp only [hnone, Option.toList_none, nil_append, hout]
      congr 1
      exact propext (by omega)
    · have hend : k + 1 = ps.length := by omega
      have hnil : l = [] := by
        have hlen := hsub.2.length_le
        rw [length_map, length_drop, hcut.length, hend, Nat.sub_self] at hlen
        exact eq_nil_of_length_eq_zero (Nat.le_zero.mp hlen)
      subst hnil
      refine ⟨?_, hs⟩
      rw [if_neg (by simp; omega)]
      simp only [replay, append_nil, hlast hend, hcut.flatten, map_nil,
        getLastD_nil, verdict]
      split <;> rfl

/-- A whole message, or a beginning of it. -/
theorem Sane.replay_message (h : Sane r gone gone)
    (hcut : Cut msg fid ps chunks) (hfid : fid ∉ gone) (l : List (Bytes × Nat))
    (hsub : l.map Prod.fst <+: chunks) (hsorted : (l.map Prod.snd).Pairwise (· ≤ ·)) :
    (r.replay l).2 = (if l.length < ps.length then []
        else verdict msg ((l.map Prod.snd).getD 0 0) ((l.map Prod.snd).getD (ps.length - 1) 0)) ∧
      Sane (r.replay l).1 (fid :: gone) (fid :: gone) := by
  have hpos := hcut.pos
  have hgrow : ∀ {r' : Reassembler} {held : List FragmentId}, Sane r' held gone →
      (∀ g ∈ held, g ∈ fid :: gone) → Sane r' (fid :: gone) (fid :: gone) :=
    fun hs hheld => hs.mono hheld fun g hg => mem_cons_of_mem _ hg
  cases l with
  | nil =>
    rw [length_nil, if_pos hpos]
    exact ⟨rfl, hgrow h fun g hg => mem_cons_of_mem _ hg⟩
  | cons e l =>
    obtain ⟨b, now⟩ := e
    have hkc : 0 < chunks.length := by rw [hcut.length]; exact hpos
    have hchunks : chunks = chunks[0] :: chunks.drop 1 := by
      have := drop_eq_getElem_cons hkc
      rwa [drop_zero] at this
    rw [map_cons, hchunks, cons_prefix_cons] at hsub
    obtain ⟨c, hparse, hc⟩ := isChunk_of_cut hcut (getElem?_eq_getElem hkc)
    rw [← hsub.1] at hparse
    have hlen := hsub.2.length_le
    rw [length_map, length_drop, hcut.length] at hlen
    rw [replay, length_cons, map_cons]
    rcases lt_or_ge 1 ps.length with hmany | hone
    · have hnone : r.buffers.lookup fid = none :=
        AList.lookup_eq_none.mpr fun hmem => hfid (h.buffers fid hmem)
      obtain ⟨hs, hout, p, hp, hfed⟩ :=
        (h.mono (fun g hg => mem_cons_of_mem fid hg) fun g hg => hg).feed_first now
          hparse hfid hc hmany hcut.le hnone
      obtain ⟨hrest, hs'⟩ := Sane.replay_rest hcut hfid l _ 1 now p hs Nat.one_pos hmany hp hfed
        hsub.2 hsorted
      refine ⟨?_, hgrow hs' fun g hg => hg⟩
      simp only [hout, Option.toList_none, nil_append, hrest, getD_cons_zero]
      rw [Nat.add_comm 1 l.length]
      split
      · rfl
      · congr 1
        have hl : l.length = ps.length - 1 := by omega
        rw [← hl]
        cases l using List.reverseRecOn with
        | nil => rfl
        | append_singleton l e =>
          simp [getD_eq_getElem?_getD]
    · have hps : ps.length = 1 := by omega
      have hnil : l = [] := eq_nil_of_length_eq_zero (by omega)
      subst hnil
      obtain ⟨hs, hout⟩ := h.feed_single now hparse hfid hc hps
      refine ⟨?_, hgrow hs fun g hg => mem_cons_of_mem _ hg⟩
      simp [hout, replay, hps, verdict, hcut.flatten]

end Reassembler

/-- The messages that come out, given the reading at which each chunk was fed:
those whose chunks were all fed, the last within the timeout of the first. -/
def onTime (timeout : Nat) : List (FragmentId × Bytes) → List Nat → List Bytes
  | [], _ => []
  | m :: rest, readings =>
    let n := (chunksOf m).length
    if readings.length < n then []
    else if readings.getD (n - 1) 0 - readings.getD 0 0 ≤ timeout then
      m.2 :: onTime timeout rest (readings.drop n)
    else onTime timeout rest (readings.drop n)

/-- Every message whose chunks were all fed was on time. -/
def Timely (timeout : Nat) : List (FragmentId × Bytes) → List Nat → Prop
  | [], _ => True
  | m :: rest, readings =>
    let n := (chunksOf m).length
    readings.length < n ∨
      (readings.getD (n - 1) 0 - readings.getD 0 0 ≤ timeout ∧
        Timely timeout rest (readings.drop n))

/-- Then none is skipped. -/
theorem onTime_isPrefix {timeout : Nat} : ∀ (ms : List (FragmentId × Bytes)) (readings : List Nat),
    Timely timeout ms readings → onTime timeout ms readings <+: ms.map Prod.snd := by
  intro ms
  induction ms with
  | nil => exact fun readings _ => prefix_rfl
  | cons m ms ih =>
    intro readings h
    rw [onTime, map_cons]
    rcases h with hshort | ⟨hin, hrest⟩
    · simp only [if_pos hshort]
      exact nil_prefix
    · simp only [if_pos hin]
      split
      · exact nil_prefix
      · exact cons_prefix_cons.mpr ⟨rfl, ih _ hrest⟩

open Reassembler in
/-- Fed the chunks of messages of different ids, one message after the other,
at readings that never go back, a Channel's reassembler gives out exactly the
messages that were on time. -/
theorem replay_eq_onTime :
    ∀ (ms : List (FragmentId × Bytes)) (r : Reassembler) (gone : List FragmentId)
      (l : List (Bytes × Nat)), Sane r gone gone →
      (∀ m ∈ ms, ∃ chunks, fragment m.2 maxChunkPayload m.1 = some chunks) →
      (ms.map Prod.fst).Nodup → (∀ m ∈ ms, m.1 ∉ gone) →
      l.map Prod.fst <+: ms.flatMap chunksOf → (l.map Prod.snd).Pairwise (· ≤ ·) →
      (r.replay l).2 = onTime defaultReassemblyTimeout ms (l.map Prod.snd) := by
  intro ms
  induction ms with
  | nil =>
    intro r gone l _ _ _ _ hsub _
    have hnil : l = [] := by
      simpa using hsub
    subst hnil
    rfl
  | cons m ms ih =>
    intro r gone l h hsome hnodup hnew hsub hsorted
    obtain ⟨chunks, hchunks⟩ := hsome m mem_cons_self
    obtain ⟨ps, hcut⟩ := fragment_cut hchunks
    have hof : chunksOf m = chunks := by rw [chunksOf, hchunks]; rfl
    have hlen : (chunksOf m).length = ps.length := by rw [hof, hcut.length]
    have hfid := hnew m mem_cons_self
    rw [map_cons, nodup_cons] at hnodup
    rw [flatMap_cons, hof] at hsub
    rw [onTime, hlen, length_map]
    rcases lt_or_ge l.length ps.length with hshort | hlong
    · have hsub' : l.map Prod.fst <+: chunks := by
        refine prefix_of_prefix_length_le hsub (prefix_append _ _) ?_
        rw [length_map, hcut.length]
        omega
      simp only [if_pos hshort]
      rw [(h.replay_message hcut hfid l hsub' hsorted).1, if_pos hshort]
    · -- the message is complete: split off its chunks and go on after them
      have htake : (l.take ps.length).length = ps.length := by rw [length_take]; omega
      have hfirst : (l.take ps.length).map Prod.fst <+: chunks := by
        rw [map_take]
        refine prefix_of_prefix_length_le ((List.take_prefix _ _).trans hsub)
          (prefix_append _ _) ?_
        rw [length_take, hcut.length]
        omega
      have hrest : (l.drop ps.length).map Prod.fst <+: ms.flatMap chunksOf := by
        rw [map_drop, ← hcut.length]
        have := hsub.drop chunks.length
        rwa [drop_left] at this
      obtain ⟨hout, hs⟩ := h.replay_message hcut hfid (l.take ps.length) hfirst
        (by rw [map_take]; exact hsorted.sublist (take_sublist _ _))
      have hrec := ih _ (m.1 :: gone) (l.drop ps.length) hs
        (fun m' hm' => hsome m' (mem_cons_of_mem _ hm')) hnodup.2
        (fun m' hm' hgone => by
          rcases mem_cons.mp hgone with heq | hmem
          · exact hnodup.1 (mem_map.mpr ⟨m', hm', heq⟩)
          · exact hnew m' (mem_cons_of_mem _ hm') hmem)
        hrest (by rw [map_drop]; exact hsorted.sublist (drop_sublist _ _))
      have hsplit : r.replay l = r.replay (l.take ps.length ++ l.drop ps.length) := by
        rw [take_append_drop]
      have hget : ∀ i, i < ps.length →
          ((l.take ps.length).map Prod.snd).getD i 0 = (l.map Prod.snd).getD i 0 := by
        intro i hi
        simp [getD_eq_getElem?_getD, hi]
      have hpos := hcut.pos
      rw [hsplit, replay_append, hout, htake, if_neg (lt_irrefl _), hget 0 hpos,
        hget _ (by omega), hrec]
      simp only [if_neg (not_lt.mpr hlong), map_drop, verdict]
      split <;> rfl

end Telesthete.Wire
