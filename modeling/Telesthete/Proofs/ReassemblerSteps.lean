import Telesthete.Lib.Assoc
import Telesthete.Wire.Fragment

/-!
# The steps of the reassembler

What each step of `feed` does to the partials, the byte counter and the
evicted ids, for any state and any chunk. Dropping and evicting a partial,
expiry, the budget loop, opening a partial and storing a chunk in it each
have their lemmas here, and the invariants of the reassembler are proved from
these.
-/

namespace Telesthete.Wire

open Telesthete.Lib

namespace Reassembler

variable {r : Reassembler} {fid g k : FragmentId} {now n m : Nat} {p : Partial} {c : Chunk}
  {evicted : AList fun _ : FragmentId => Nat} {order : List (FragmentId × Nat)}

/-- The bytes held in the partials. -/
def sizes (r : Reassembler) : Nat :=
  (r.buffers.entries.map fun (e : Σ _ : FragmentId, Partial) => e.2.size).sum

theorem size_le_bytes (hbytes : r.bytes = r.sizes) (hp : r.buffers.lookup g = some p) :
    p.size ≤ r.bytes := by
  have hsum : _ + p.size = _ :=
    sum_entries_erase (fun (e : Σ _ : FragmentId, Partial) => e.2.size) hp
  rw [hbytes, sizes]
  omega

/-! ## Dropping, evicting, expiring -/

theorem dropPartial_lookup (r : Reassembler) (g k : FragmentId) :
    (r.dropPartial g).buffers.lookup k = if k = g then none else r.buffers.lookup k := by
  rw [dropPartial]
  split
  · split
    · rename_i hk
      rw [hk, AList.lookup_erase]
    · rename_i hk
      rw [AList.lookup_erase_ne hk]
  · rename_i hnone
    split
    · rename_i hk
      rw [hk, hnone]
    · rfl

theorem mem_buffers_iff (r : Reassembler) (k : FragmentId) :
    k ∈ r.buffers ↔ ∃ p, r.buffers.lookup k = some p := by
  rw [← AList.lookup_isSome, Option.isSome_iff_exists]

theorem dropPartial_of_some (hp : r.buffers.lookup g = some p) :
    r.dropPartial g = { r with buffers := r.buffers.erase g, bytes := r.bytes - p.size } := by
  rw [dropPartial, hp]

theorem dropPartial_of_none (hp : r.buffers.lookup g = none) : r.dropPartial g = r := by
  rw [dropPartial, hp]

theorem bytes_dropPartial_le : (r.dropPartial g).bytes ≤ r.bytes := by
  rw [dropPartial]
  split
  · exact Nat.sub_le _ _
  · exact le_rfl

theorem mem_dropPartial : k ∈ (r.dropPartial g).buffers ↔ k ≠ g ∧ k ∈ r.buffers := by
  rw [mem_buffers_iff, mem_buffers_iff, dropPartial_lookup]
  by_cases hk : k = g
  · simp [hk]
  · simp [hk]

theorem pending_dropPartial (hg : g ∈ r.buffers) : (r.dropPartial g).pending + 1 = r.pending := by
  obtain ⟨p, hp⟩ := (mem_buffers_iff r g).mp hg
  rw [dropPartial_of_some hp]
  exact length_entries_erase hg

theorem pending_dropPartial_le : (r.dropPartial g).pending ≤ r.pending :=
  length_entries_le fun _ hk => (mem_dropPartial.mp hk).2

theorem sizes_dropPartial (h : r.bytes = r.sizes) :
    (r.dropPartial g).bytes = (r.dropPartial g).sizes := by
  cases hp : r.buffers.lookup g with
  | none => rwa [dropPartial_of_none hp]
  | some p =>
    have hsum : _ + p.size = _ :=
      sum_entries_erase (fun (e : Σ _ : FragmentId, Partial) => e.2.size) hp
    rw [dropPartial_of_some hp]
    rw [h, sizes, ← hsum, Nat.add_sub_cancel]
    rfl

@[simp] theorem evicted_dropPartial : (r.dropPartial g).evicted = r.evicted := by
  rw [dropPartial]
  split
  · rfl
  · rfl

@[simp] theorem evictedOrder_dropPartial : (r.dropPartial g).evictedOrder = r.evictedOrder := by
  rw [dropPartial]
  split
  · rfl
  · rfl

theorem nextOrder_dropPartial : (r.dropPartial g).nextOrder = r.nextOrder := by
  rw [dropPartial]
  split
  · rfl
  · rfl

/-! The evicted ids that are left were there before. -/

theorem mem_of_pop {time : Nat}
    (h : k ∈ if evicted.lookup g = some time then evicted.erase g else evicted) : k ∈ evicted := by
  split at h
  · exact (AList.mem_erase.mp h).2
  · exact h

theorem trimEvicted_sub (h : k ∈ (trimEvicted evicted order).1) : k ∈ evicted := by
  fun_induction trimEvicted evicted order with
  | case1 => exact h
  | case2 evicted old time rest hover ih => exact mem_of_pop (ih h)
  | case3 => exact h

theorem expireEvicted_sub {timeout : Nat} (h : k ∈ (expireEvicted timeout now evicted order).1) :
    k ∈ evicted := by
  fun_induction expireEvicted timeout now evicted order with
  | case1 => exact h
  | case2 evicted old time rest hover ih => exact mem_of_pop (ih h)
  | case3 => exact h

theorem evict_lookup (r : Reassembler) (g k : FragmentId) (now : Nat) :
    (r.evict g now).buffers.lookup k = if k = g then none else r.buffers.lookup k :=
  dropPartial_lookup r g k

/-- The limits of a reassembler, which nothing changes. -/
structure SameLimits (r s : Reassembler) : Prop where
  limit : s.limit = r.limit
  maxFragments : s.maxFragments = r.maxFragments
  maxChunkPayload : s.maxChunkPayload = r.maxChunkPayload
  maxBufferedBytes : s.maxBufferedBytes = r.maxBufferedBytes
  timeout : s.timeout = r.timeout

theorem SameLimits.refl (r : Reassembler) : SameLimits r r := ⟨rfl, rfl, rfl, rfl, rfl⟩

theorem SameLimits.trans {s t : Reassembler} (h : SameLimits r s) (h' : SameLimits s t) :
    SameLimits r t :=
  ⟨h'.limit.trans h.limit, h'.maxFragments.trans h.maxFragments,
    h'.maxChunkPayload.trans h.maxChunkPayload, h'.maxBufferedBytes.trans h.maxBufferedBytes,
    h'.timeout.trans h.timeout⟩

theorem sameLimits_dropPartial (r : Reassembler) (g : FragmentId) :
    SameLimits r (r.dropPartial g) := by
  rw [dropPartial]
  split
  · exact ⟨rfl, rfl, rfl, rfl, rfl⟩
  · exact .refl r

theorem sameLimits_evict (r : Reassembler) (g : FragmentId) (now : Nat) :
    SameLimits r (r.evict g now) :=
  { sameLimits_dropPartial r g with }

theorem mem_evict : k ∈ (r.evict g now).buffers ↔ k ≠ g ∧ k ∈ r.buffers := mem_dropPartial

theorem pending_evict (hg : g ∈ r.buffers) : (r.evict g now).pending + 1 = r.pending :=
  pending_dropPartial hg

theorem bytes_evict_le : (r.evict g now).bytes ≤ r.bytes := bytes_dropPartial_le

/-- An eviction remembers the victim and nothing else that was not remembered. -/
theorem evicted_of_evict (hk : k ∈ (r.evict g now).evicted) : k = g ∨ k ∈ r.evicted := by
  have htrim := trimEvicted_sub hk
  rwa [evicted_dropPartial, AList.mem_insert] at htrim

/-- The first half of `gc`. -/
def expired (r : Reassembler) (now : Nat) : Reassembler :=
  { r with
    evicted := (expireEvicted r.timeout now r.evicted r.evictedOrder).1
    evictedOrder := (expireEvicted r.timeout now r.evicted r.evictedOrder).2 }

theorem mem_stale (r : Reassembler) (now : Nat) (k : FragmentId) :
    k ∈ r.stale now ↔ ∃ p, r.buffers.lookup k = some p ∧ now - p.firstSeen > r.timeout := by
  simp only [stale, List.mem_map, List.mem_filter, decide_eq_true_eq]
  constructor
  · rintro ⟨⟨k', p⟩, ⟨hmem, hlt⟩, rfl⟩
    exact ⟨p, AList.mem_lookup_iff.mpr hmem, hlt⟩
  · rintro ⟨p, hp, hlt⟩
    exact ⟨⟨k, p⟩, ⟨mem_entries_of_lookup hp, hlt⟩, rfl⟩

theorem lookup_foldl_dropPartial (l : List FragmentId) (r : Reassembler) (k : FragmentId) :
    (l.foldl dropPartial r).buffers.lookup k = if k ∈ l then none else r.buffers.lookup k := by
  induction l generalizing r with
  | nil => simp
  | cons g l ih =>
    rw [List.foldl_cons, ih, dropPartial_lookup]
    by_cases hk : k = g
    · simp [hk]
    · simp [hk]

/-- After `gc` a partial is there if it was there and has not expired. -/
theorem lookup_gc (r : Reassembler) (now : Nat) (k : FragmentId) :
    (r.gc now).buffers.lookup k =
      (r.buffers.lookup k).filter fun p => now - p.firstSeen ≤ r.timeout := by
  refine (lookup_foldl_dropPartial ((r.expired now).stale now) (r.expired now) k).trans ?_
  have hstale : k ∈ (r.expired now).stale now ↔
      ∃ p, r.buffers.lookup k = some p ∧ now - p.firstSeen > r.timeout := mem_stale _ now k
  show (if _ then none else r.buffers.lookup k) = _
  simp only [hstale]
  cases hk : r.buffers.lookup k with
  | none => simp
  | some p =>
    simp only [Option.some.injEq, exists_eq_left', Option.filter_some, decide_eq_true_eq]
    by_cases hlt : now - p.firstSeen > r.timeout
    · rw [if_pos hlt, if_neg (not_le.mpr hlt)]
    · rw [if_neg hlt, if_pos (Nat.le_of_not_lt hlt)]

/-! ## The budget loop -/

theorem oldest_some {exclude : Option FragmentId} (h : r.oldest exclude = some g) :
    g ∈ r.buffers ∧ some g ≠ exclude := by
  obtain ⟨e, he, rfl⟩ := Option.map_eq_some_iff.mp h
  have hmem := List.argmin_mem he
  rw [List.mem_filter] at hmem
  exact ⟨mem_of_mem_entries hmem.1, by simpa using hmem.2⟩

theorem exists_oldest (exclude : Option FragmentId) (hk : k ∈ r.buffers) (hne : some k ≠ exclude) :
    ∃ victim, r.oldest exclude = some victim := by
  rw [← Option.isSome_iff_exists, ← Option.ne_none_iff_isSome]
  intro hnone
  have hfilter := List.argmin_eq_none.mp (Option.map_eq_none_iff.mp hnone)
  obtain ⟨p, hp⟩ := (mem_buffers_iff r k).mp hk
  have hmem : (⟨k, p⟩ : Σ _ : FragmentId, Partial) ∈ r.buffers.entries.filter
      fun (e : Σ _ : FragmentId, Partial) => some e.1 ≠ exclude :=
    List.mem_filter.mpr ⟨mem_entries_of_lookup hp, decide_eq_true hne⟩
  rw [hfilter] at hmem
  exact List.not_mem_nil hmem

/-- What a pass of the budget loop keeps holds where the loop ends. It ends with room for `n` more
bytes, or finds nothing left to evict but the message itself. -/
theorem makeRoom_rule {P : Reassembler → Prop}
    (hpass : ∀ r victim, P r → m < r.bytes + n → r.oldest (some fid) = some victim →
      P (r.evict victim now)) :
    ∀ (fuel : Nat) (r : Reassembler), P r → r.pending < fuel →
      ((makeRoom fid n m now fuel r).2 = true ∧ P (makeRoom fid n m now fuel r).1 ∧
          (makeRoom fid n m now fuel r).1.bytes + n ≤ m) ∨
        ∃ r', P r' ∧ m < r'.bytes + n ∧ r'.oldest (some fid) = none ∧
          makeRoom fid n m now fuel r = (r'.evict fid now, false) := by
  intro fuel
  induction fuel with
  | zero => exact fun r _ hlt => absurd hlt (Nat.not_lt_zero _)
  | succ fuel ih =>
    intro r hr hlt
    rw [makeRoom]
    split
    · next hover =>
      cases hold : r.oldest (some fid) with
      | none => exact .inr ⟨r, hr, hover, hold, rfl⟩
      | some victim =>
        have hpending : (r.evict victim now).pending + 1 = r.pending :=
          pending_evict (oldest_some hold).1
        exact ih _ (hpass r victim hr hover hold) (by omega)
    · next hroom => exact .inl ⟨rfl, hr, Nat.le_of_not_lt hroom⟩

/-! ## Opening and storing -/

/-- The partial a chunk of `total` opens. -/
def opened (total now order : Nat) : Partial :=
  { total := total, parts := ∅, size := 0, firstSeen := now, order := order }

/-- Room for one more partial: the oldest is evicted if there are as many as there may be. -/
def slot (r : Reassembler) (now : Nat) : Reassembler :=
  if r.buffers.entries.length ≥ r.limit then
    match r.oldest none with
    | some victim => r.evict victim now
    | none => r
  else r

theorem openPartial_of_mem (h : c.fragmentId ∈ r.buffers) : r.openPartial c now = r := by
  rw [openPartial, if_pos h]

theorem openPartial_of_notMem (h : c.fragmentId ∉ r.buffers) :
    r.openPartial c now =
      { r.slot now with
        buffers := (r.slot now).buffers.insert c.fragmentId
          (opened c.total now (r.slot now).nextOrder)
        nextOrder := (r.slot now).nextOrder + 1 } := by
  rw [openPartial, if_neg h]
  rfl

theorem slot_cases (h : 1 ≤ r.limit) (now : Nat) :
    (r.pending < r.limit ∧ r.slot now = r) ∨
      ∃ victim, r.limit ≤ r.pending ∧ victim ∈ r.buffers ∧ r.oldest none = some victim ∧
        r.slot now = r.evict victim now := by
  rcases lt_or_ge r.pending r.limit with hlt | hge
  · exact .inl ⟨hlt, if_neg (not_le.mpr hlt)⟩
  · have hfull : r.buffers.entries.length ≥ r.limit := hge
    obtain ⟨e, he⟩ := List.exists_mem_of_length_pos (lt_of_lt_of_le h hfull)
    obtain ⟨victim, hold⟩ := exists_oldest none (mem_of_mem_entries he) (by simp)
    refine .inr ⟨victim, hge, (oldest_some hold).1, hold, ?_⟩
    rw [slot, if_pos hfull, hold]

theorem sizes_insert_opened (h : r.bytes = r.sizes) (hnot : fid ∉ r.buffers)
    (total now order : Nat) :
    r.bytes =
      ({ r with buffers := r.buffers.insert fid (opened total now order) } : Reassembler).sizes := by
  rw [h, sizes, sizes, sum_entries_insert_of_none _ (AList.lookup_eq_none.mpr hnot)]
  exact (Nat.zero_add _).symm

/-- The partial with one more chunk. -/
def addTo (p : Partial) (c : Chunk) : Partial :=
  { p with parts := p.parts.insert c.seq c.data, size := p.size + c.data.length }

theorem store_of_lacks {c : Chunk} {p : Partial} (hp : r.buffers.lookup c.fragmentId = some p)
    (hmore : (addTo p c).parts.entries.length ≠ p.total) :
    r.store c =
      ({ r with buffers := r.buffers.insert c.fragmentId (addTo p c),
                bytes := r.bytes + c.data.length }, none) := by
  rw [store, hp]
  exact if_pos hmore

theorem store_of_full {c : Chunk} {p : Partial} (hp : r.buffers.lookup c.fragmentId = some p)
    (hlast : (addTo p c).parts.entries.length = p.total) :
    r.store c =
      ({ r with buffers := r.buffers.erase c.fragmentId,
                bytes := r.bytes + c.data.length - (addTo p c).size },
        some (assemble (addTo p c))) := by
  rw [store, hp]
  exact if_neg (not_not.mpr hlast)

theorem length_addTo (h : c.seq ∉ p.parts) :
    (addTo p c).parts.entries.length = p.parts.entries.length + 1 := length_entries_insert h

theorem below_addTo {total : Nat} (h : ∀ i ∈ p.parts, i < total) (hseq : c.seq < total) :
    ∀ i ∈ (addTo p c).parts, i < total := by
  intro i hi
  rcases (AList.mem_insert _).mp hi with rfl | hi
  · exact hseq
  · exact h i hi

theorem sizes_insert_addTo (h : r.bytes = r.sizes) (hp : r.buffers.lookup g = some p) :
    r.bytes + c.data.length =
      ({ r with buffers := r.buffers.insert g (addTo p c) } : Reassembler).sizes := by
  have hadd : (addTo p c).size = p.size + c.data.length := rfl
  have hsum : ((r.buffers.insert g (addTo p c)).entries.map
        fun (e : Σ _ : FragmentId, Partial) => e.2.size).sum + p.size =
      _ + (addTo p c).size := sum_entries_replace _ hp
  simp only [sizes] at h ⊢
  omega

/-- Completing a message leaves the state without its partial. -/
theorem store_fst_of_full (hp : r.buffers.lookup c.fragmentId = some p)
    (hlast : (addTo p c).parts.entries.length = p.total) :
    (r.store c).1 = r.dropPartial c.fragmentId := by
  rw [store_of_full hp hlast, dropPartial_of_some hp,
    show (addTo p c).size = p.size + c.data.length from rfl, Nat.add_sub_add_right]

/-! ## A whole call -/

theorem parseChunk_lt {chunk : Bytes} (h : parseChunk chunk = some c) : c.seq < c.total := by
  rw [parseChunk] at h
  split at h
  · simp at h
  · dsimp only at h
    split at h
    · simp at h
    · cases h
      dsimp only
      omega

/-- The state `feed` works on once expired entries are gone and a partial of another total is
reset. -/
def settled (r : Reassembler) (c : Chunk) (now : Nat) : Reassembler :=
  match (r.gc now).buffers.lookup c.fragmentId with
  | some p => if p.total ≠ c.total then (r.gc now).dropPartial c.fragmentId else r.gc now
  | none => r.gc now

theorem feed_eq {chunk : Bytes} (hparse : parseChunk chunk = some c)
    (hmax : c.total ≤ r.maxFragments) (hfid : c.fragmentId ∉ (r.gc now).evicted) :
    r.feed chunk now =
      match (r.settled c now).buffers.lookup c.fragmentId with
      | some p =>
        if c.seq ∈ p.parts then (r.settled c now, none) else (r.settled c now).accept c now
      | none =>
        if c.total = 1 then (r.settled c now, some c.data) else (r.settled c now).accept c now := by
  rw [feed, hparse]
  simp only [if_neg (not_lt.mpr hmax), if_neg hfid]
  rfl

end Reassembler

end Telesthete.Wire
