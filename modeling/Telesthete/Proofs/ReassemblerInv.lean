import Telesthete.Proofs.Reassembly
import Telesthete.Wire.Panics

/-!
# The reassembler against hostile input

Four structures of a reassembler depend on each other: the partials, the byte
counter, the map of evicted ids and the queue that remembers their order. `Inv`
says how, and every step of `feed` keeps it, whatever the chunk and the clock:
dropping a partial, evicting one, expiry, the budget loop, opening a partial and
storing a chunk in it.

What makes this inductive is that no id is ever evicted twice without being
forgotten in between. A victim has a partial, an id with a partial is not
remembered, and so the queue gets each id once and a pop takes exactly one id
out of the map. The rest is bookkeeping, and the panics of the code are ruled
out by it: `feed?` never answers `none` in a state with the invariant.
-/

namespace Telesthete.Wire

open Telesthete.Lib List

namespace Reassembler

variable {r : Reassembler} {fid g k : FragmentId} {now n m fuel : Nat} {p : Partial} {c : Chunk}
  {evicted : AList fun _ : FragmentId => Nat} {order : List (FragmentId × Nat)}

/-! ## The evicted ids -/

/-- The queue lists the remembered ids, each of them once, with its time. -/
structure Remembers (evicted : AList fun _ : FragmentId => Nat)
    (order : List (FragmentId × Nat)) : Prop where
  nodup : (order.map Prod.fst).Nodup
  mem_iff : ∀ fid time, (fid, time) ∈ order ↔ evicted.lookup fid = some time

theorem remembers_nil : Remembers ∅ [] := ⟨nodup_nil, fun fid time => by simp⟩

theorem Remembers.mem_fst (h : Remembers evicted order) :
    fid ∈ order.map Prod.fst ↔ fid ∈ evicted := by
  rw [mem_map, ← AList.lookup_isSome, Option.isSome_iff_exists]
  constructor
  · rintro ⟨⟨fid, time⟩, hmem, rfl⟩
    exact ⟨time, (h.mem_iff _ _).mp hmem⟩
  · rintro ⟨time, htime⟩
    exact ⟨(fid, time), (h.mem_iff _ _).mpr htime, rfl⟩

theorem Remembers.length (h : Remembers evicted order) :
    order.length = evicted.entries.length := by
  rw [← length_map Prod.fst]
  exact le_antisymm (length_le_of_forall_mem h.nodup fun fid hfid => h.mem_fst.mp hfid)
    (length_entries_le_of_forall_mem fun fid hfid => h.mem_fst.mpr hfid)

/-- A pop finds the time it put there, so it takes one id out. -/
theorem Remembers.pop {time : Nat} {rest : List (FragmentId × Nat)}
    (h : Remembers evicted ((fid, time) :: rest)) :
    evicted.lookup fid = some time ∧ Remembers (evicted.erase fid) rest := by
  obtain ⟨hnot, hnodup⟩ := nodup_cons.mp (map_cons ▸ h.nodup)
  refine ⟨(h.mem_iff _ _).mp mem_cons_self, hnodup, fun k t => ?_⟩
  rw [lookup_erase_ite]
  by_cases hk : k = fid
  · subst hk
    rw [if_pos rfl]
    exact ⟨fun hmem => absurd (mem_map_of_mem hmem) hnot, fun hnone => by simp at hnone⟩
  · rw [if_neg hk, ← h.mem_iff, mem_cons]
    refine ⟨.inr, fun hmem => hmem.resolve_left fun heq => hk (Prod.mk.inj heq).1⟩

theorem Remembers.push (h : Remembers evicted order) (hfid : fid ∉ evicted) (time : Nat) :
    Remembers (evicted.insert fid time) (order ++ [(fid, time)]) := by
  have hnot : fid ∉ order.map Prod.fst := fun hmem => hfid (h.mem_fst.mp hmem)
  refine ⟨?_, fun k t => ?_⟩
  · rw [map_append, map_singleton]
    exact h.nodup.append (nodup_singleton _)
      (disjoint_singleton.mpr hnot)
  · rw [lookup_insert_ite, mem_append, mem_singleton, Prod.mk.injEq, h.mem_iff]
    by_cases hk : k = fid
    · subst hk
      rw [if_pos rfl, AList.lookup_eq_none.mpr hfid]
      simp [eq_comm]
    · simp [hk]

/-- Trimming keeps the newest ids, as many as fit. -/
theorem Remembers.trim : ∀ {order : List (FragmentId × Nat)}
    {evicted : AList fun _ : FragmentId => Nat}, Remembers evicted order →
    Remembers (trimEvicted evicted order).1 (trimEvicted evicted order).2 ∧
      (trimEvicted evicted order).2 = order.drop (order.length - defaultEvictedMemory) := by
  intro order
  induction order with
  | nil => exact fun h => ⟨h, rfl⟩
  | cons e rest ih =>
    obtain ⟨fid, time⟩ := e
    intro evicted h
    have hlen := h.length
    rw [length_cons] at hlen
    obtain ⟨hlookup, hpop⟩ := h.pop
    rw [trimEvicted, if_pos hlookup]
    split
    · obtain ⟨hrem, hdrop⟩ := ih hpop
      refine ⟨hrem, hdrop.trans ?_⟩
      rw [length_cons, show rest.length + 1 - defaultEvictedMemory =
        rest.length - defaultEvictedMemory + 1 by omega, drop_succ_cons]
    · refine ⟨h, ?_⟩
      rw [length_cons, show rest.length + 1 - defaultEvictedMemory = 0 by omega]
      rfl

/-- Expiry takes ids off the front while they are too old. -/
theorem Remembers.expire (timeout now : Nat) : ∀ {order : List (FragmentId × Nat)}
    {evicted : AList fun _ : FragmentId => Nat}, Remembers evicted order →
    Remembers (expireEvicted timeout now evicted order).1
        (expireEvicted timeout now evicted order).2 ∧
      (expireEvicted timeout now evicted order).2 =
        order.dropWhile fun e => now - e.2 > timeout := by
  intro order
  induction order with
  | nil => exact fun h => ⟨h, rfl⟩
  | cons e rest ih =>
    obtain ⟨fid, time⟩ := e
    intro evicted h
    obtain ⟨hlookup, hpop⟩ := h.pop
    rw [expireEvicted, if_pos hlookup]
    split
    · next hexp =>
      rw [dropWhile_cons_of_pos (by simpa using hexp)]
      exact ih hpop
    · next hexp =>
      rw [dropWhile_cons_of_neg (by simpa using hexp)]
      exact ⟨h, rfl⟩

/-! ## The invariant -/

/-- The bytes of the parts that are there. -/
def partBytes (p : Partial) : Nat := (p.parts.entries.map fun e => e.2.length).sum

/-- A message that waits for a part: it has several, lacks one, and has none beyond its total. -/
structure PartialOk (p : Partial) : Prop where
  several : 2 ≤ p.total
  lacks : p.parts.entries.length < p.total
  below : ∀ i ∈ p.parts, i < p.total
  size : p.size = partBytes p

structure Inv (r : Reassembler) : Prop where
  limit : 1 ≤ r.limit
  bytes : r.bytes = r.sizes
  budget : ∀ m, r.maxBufferedBytes = some m → r.bytes ≤ m
  pending : r.pending ≤ r.limit
  partials : ∀ fid p, r.buffers.lookup fid = some p → PartialOk p
  /-- No id is both buffered and remembered as evicted. -/
  apart : ∀ fid ∈ r.buffers, fid ∉ r.evicted
  memory : r.evicted.entries.length ≤ defaultEvictedMemory
  queue : Remembers r.evicted r.evictedOrder

theorem inv_configured (limit maxFragments maxChunkPayload : Nat) (budget : Option Nat)
    (timeout : Nat) :
    Inv (configured limit maxFragments maxChunkPayload budget timeout) where
  limit := Nat.le_max_right _ _
  bytes := rfl
  budget := fun _ _ => Nat.zero_le _
  pending := Nat.zero_le _
  partials := fun _ _ h => by
    rw [show (configured limit maxFragments maxChunkPayload budget timeout).buffers = ∅ from rfl] at h
    simp at h
  apart := fun fid h => absurd h (AList.notMem_empty fid)
  memory := Nat.zero_le _
  queue := remembers_nil

/-- The counter holds the bytes of every part that is buffered. -/
theorem Inv.bytes_eq (h : Inv r) :
    r.bytes = (r.buffers.entries.map fun (e : Σ _ : FragmentId, Partial) => partBytes e.2).sum := by
  rw [h.bytes, sizes]
  refine congrArg List.sum (map_congr_left fun e he => ?_)
  exact (h.partials e.1 e.2 (AList.mem_lookup_iff.mpr he)).size

/-! ## Dropping, evicting, expiring -/

theorem Inv.dropPartial (h : Inv r) (g : FragmentId) : Inv (r.dropPartial g) := by
  have hbytes := sizes_dropPartial (g := g) h.bytes
  have hle : (r.dropPartial g).pending ≤ r.pending := pending_dropPartial_le
  cases hp : r.buffers.lookup g with
  | none => rwa [dropPartial_of_none hp]
  | some p =>
    rw [dropPartial_of_some hp] at hbytes hle ⊢
    refine { h with
      bytes := hbytes
      budget := fun m hm => le_trans (Nat.sub_le _ _) (h.budget m hm)
      pending := le_trans hle h.pending
      partials := fun k q hq => ?_
      apart := fun k hk => h.apart k (AList.mem_erase.mp hk).2 }
    rw [lookup_erase_ite] at hq
    exact h.partials k q (Option.ite_none_left_eq_some.mp hq).2

/-- The queue after an eviction. -/
theorem evictedOrder_evict (hqueue : Remembers r.evicted r.evictedOrder) (hg : g ∉ r.evicted)
    (now : Nat) :
    Remembers (r.evict g now).evicted (r.evict g now).evictedOrder ∧
      (r.evict g now).evictedOrder =
        (r.evictedOrder ++ [(g, now)]).drop (r.evictedOrder.length + 1 - defaultEvictedMemory) := by
  obtain ⟨hrem, hdrop⟩ := (hqueue.push hg now).trim
  rw [length_append, length_singleton] at hdrop
  show Remembers (trimEvicted _ _).1 (trimEvicted _ _).2 ∧ (trimEvicted _ _).2 = _
  rw [evicted_dropPartial, evictedOrder_dropPartial]
  exact ⟨hrem, hdrop⟩

theorem Inv.evict (h : Inv r) (hg : g ∉ r.evicted) (now : Nat) : Inv (r.evict g now) := by
  have hd := h.dropPartial g
  obtain ⟨hqueue, horder⟩ := evictedOrder_evict h.queue hg now
  refine { hd with apart := fun k hk hmem => ?_, memory := ?_, queue := hqueue }
  · rcases evicted_of_evict hmem with rfl | hevicted
    · exact (mem_evict.mp hk).1 rfl
    · exact h.apart k (mem_evict.mp hk).2 hevicted
  · rw [← hqueue.length, horder, length_drop, length_append, length_singleton]
    omega

/-- Dropping several partials. -/
theorem Inv.foldl_dropPartial (l : List FragmentId) : ∀ {r : Reassembler}, Inv r →
    Inv (l.foldl Reassembler.dropPartial r) ∧
      SameLimits r (l.foldl Reassembler.dropPartial r) ∧
      (l.foldl Reassembler.dropPartial r).evicted = r.evicted ∧
      (l.foldl Reassembler.dropPartial r).evictedOrder = r.evictedOrder := by
  induction l with
  | nil => exact fun h => ⟨h, .refl _, rfl, rfl⟩
  | cons g l ih =>
    intro r h
    obtain ⟨hinv, hlimits, hevicted, horder⟩ := ih (h.dropPartial g)
    exact ⟨hinv, (sameLimits_dropPartial r g).trans hlimits,
      hevicted.trans evicted_dropPartial, horder.trans evictedOrder_dropPartial⟩

theorem Inv.expired (h : Inv r) (now : Nat) : Inv (r.expired now) := by
  obtain ⟨hqueue, horder⟩ := Remembers.expire r.timeout now h.queue
  refine { h with
    apart := fun k hk hmem => h.apart k hk (expireEvicted_sub hmem)
    memory := ?_
    queue := hqueue }
  have hle := ((dropWhile_suffix fun e : FragmentId × Nat =>
    decide (now - e.2 > r.timeout)) : _ <:+ r.evictedOrder).length_le
  rw [← horder, hqueue.length, h.queue.length] at hle
  exact le_trans hle h.memory

theorem Inv.gc (h : Inv r) (now : Nat) : Inv (r.gc now) ∧ SameLimits r (r.gc now) := by
  obtain ⟨hinv, hlimits, -⟩ := Inv.foldl_dropPartial ((r.expired now).stale now) (h.expired now)
  have hsame : SameLimits r (r.expired now) := ⟨rfl, rfl, rfl, rfl, rfl⟩
  exact ⟨hinv, hsame.trans hlimits⟩

/-! ## The budget loop -/

/-- The state the budget loop works on: the message at hand is not among the evicted ones, and its
partial stays as it was. -/
structure Pressed (r : Reassembler) (fid : FragmentId) (s : Reassembler) : Prop where
  inv : Inv s
  limits : SameLimits r s
  alive : fid ∉ s.evicted
  own : s.buffers.lookup fid = r.buffers.lookup fid
  sub : ∀ k p, s.buffers.lookup k = some p → r.buffers.lookup k = some p
  bytes : s.bytes ≤ r.bytes

theorem Pressed.refl (h : Inv r) (hfid : fid ∉ r.evicted) : Pressed r fid r :=
  ⟨h, .refl r, hfid, rfl, fun _ _ hp => hp, le_rfl⟩

theorem Pressed.evict {s : Reassembler} (h : Pressed r fid s) (hg : g ∈ s.buffers) (hne : g ≠ fid)
    (now : Nat) : Pressed r fid (s.evict g now) where
  inv := h.inv.evict (h.inv.apart g hg) now
  limits := h.limits.trans (sameLimits_evict s g now)
  alive := fun hmem => (evicted_of_evict hmem).elim (fun heq => hne heq.symm) h.alive
  own := by rw [evict_lookup, if_neg fun heq => hne heq.symm, h.own]
  sub := fun k p hp => by
    rw [evict_lookup] at hp
    exact h.sub k p (Option.ite_none_left_eq_some.mp hp).2
  bytes := le_trans bytes_evict_le h.bytes

theorem Inv.makeRoom (h : Inv r) (hfid : fid ∉ r.evicted) (hlt : r.pending < fuel) (now : Nat) :
    ((makeRoom fid n m now fuel r).2 = true ∧ Pressed r fid (makeRoom fid n m now fuel r).1 ∧
        (makeRoom fid n m now fuel r).1.bytes + n ≤ m) ∨
      ∃ r', Pressed r fid r' ∧ m < r'.bytes + n ∧ r'.oldest (some fid) = none ∧
        makeRoom fid n m now fuel r = (r'.evict fid now, false) := by
  refine makeRoom_rule (P := Pressed r fid) (fun s victim hs _ hold => ?_) fuel r (.refl h hfid) hlt
  obtain ⟨hmem, hne⟩ := oldest_some hold
  exact hs.evict hmem (fun heq => hne (by rw [heq])) now

/-! ## Opening and storing -/

/-- The slot is made by evicting another message. -/
theorem Pressed.slot (h : Inv r) (hnot : c.fragmentId ∉ r.buffers) (hfid : c.fragmentId ∉ r.evicted)
    (now : Nat) :
    Pressed r c.fragmentId (r.slot now) ∧ (r.slot now).pending < r.limit := by
  have hlimit := h.pending
  rcases slot_cases h.limit now with ⟨hlt, heq⟩ | ⟨victim, -, hmem, -, heq⟩
  · rw [heq]
    exact ⟨.refl h hfid, hlt⟩
  · have hpending : (r.evict victim now).pending + 1 = r.pending := pending_evict hmem
    rw [heq]
    exact ⟨(Pressed.refl h hfid).evict hmem (fun heq => hnot (heq ▸ hmem)) now, by omega⟩

theorem partialOk_opened {total : Nat} (h : 2 ≤ total) (now order : Nat) :
    PartialOk (opened total now order) where
  several := h
  lacks := lt_of_lt_of_le Nat.zero_lt_two h
  below := fun i hi => absurd hi (AList.notMem_empty i)
  size := rfl

/-- A chunk that belongs to the partial of its message, if there is one, and is missing there. -/
structure Missing (r : Reassembler) (c : Chunk) : Prop where
  several : 2 ≤ c.total
  below : c.seq < c.total
  alive : c.fragmentId ∉ r.evicted
  fresh : ∀ p, r.buffers.lookup c.fragmentId = some p → p.total = c.total ∧ c.seq ∉ p.parts

theorem Missing.pressed {s : Reassembler} (hc : Missing r c) (h : Pressed r c.fragmentId s) :
    Missing s c where
  several := hc.several
  below := hc.below
  alive := h.alive
  fresh := fun p hp => hc.fresh p (h.own ▸ hp)

theorem Inv.openPartial (h : Inv r) (hc : Missing r c) (now : Nat) :
    Inv (r.openPartial c now) ∧ SameLimits r (r.openPartial c now) ∧
      (r.openPartial c now).bytes ≤ r.bytes ∧
      ∃ p, (r.openPartial c now).buffers.lookup c.fragmentId = some p ∧
        p.total = c.total ∧ c.seq ∉ p.parts := by
  by_cases hmem : c.fragmentId ∈ r.buffers
  · obtain ⟨p, hp⟩ := (mem_buffers_iff r _).mp hmem
    rw [openPartial_of_mem hmem]
    exact ⟨h, .refl r, le_rfl, p, hp, hc.fresh p hp⟩
  · obtain ⟨hslot, hroom⟩ := Pressed.slot h hmem hc.alive now
    have hnot : c.fragmentId ∉ (r.slot now).buffers :=
      AList.lookup_eq_none.mp (hslot.own.trans (AList.lookup_eq_none.mpr hmem))
    have hopened := partialOk_opened hc.several now (r.slot now).nextOrder
    rw [openPartial_of_notMem hmem]
    refine ⟨?_, { hslot.limits with }, hslot.bytes, _, AList.lookup_insert _, rfl,
      AList.notMem_empty _⟩
    refine { hslot.inv with bytes := ?_, pending := ?_, partials := ?_, apart := ?_ }
    · exact sizes_insert_opened hslot.inv.bytes hnot _ _ _
    · have hlen : (r.slot now).buffers.entries.length < r.limit := hroom
      show (AList.insert _ _ _).entries.length ≤ (r.slot now).limit
      rw [length_entries_insert hnot, hslot.limits.limit]
      omega
    · intro k p hp
      rw [lookup_insert_ite] at hp
      by_cases hk : k = c.fragmentId
      · rw [if_pos hk] at hp
        exact Option.some.inj hp ▸ hopened
      · rw [if_neg hk] at hp
        exact hslot.inv.partials k p hp
    · intro k hk
      rcases (AList.mem_insert _).mp hk with rfl | hk
      · exact hslot.alive
      · exact hslot.inv.apart k hk

theorem partBytes_addTo (h : c.seq ∉ p.parts) :
    partBytes (addTo p c) = partBytes p + c.data.length := by
  show ((p.parts.insert c.seq c.data).entries.map _).sum = _
  rw [sum_entries_insert_of_none _ (AList.lookup_eq_none.mpr h), Nat.add_comm]
  rfl

/-- A partial with as many parts as its total, none beyond it, has them all. -/
theorem mem_parts_of_full (hfull : p.parts.entries.length = p.total)
    (hbelow : ∀ i ∈ p.parts, i < p.total) : ∀ i < p.total, i ∈ p.parts := by
  intro i hi
  have hsub : p.parts.keys ⊆ List.range p.total :=
    fun j hj => mem_range.mpr (hbelow j (AList.mem_keys.mpr hj))
  have hlen : p.parts.keys.length = p.total := by
    rw [← hfull]
    exact length_map _
  have hperm := (subperm_of_subset p.parts.keys_nodup hsub).perm_of_length_le (by
    rw [hlen, length_range])
  exact AList.mem_keys.mp (hperm.mem_iff.mpr (mem_range.mpr hi))

theorem Inv.store (h : Inv r) (hp : r.buffers.lookup c.fragmentId = some p)
    (htotal : p.total = c.total) (hseq : c.seq < c.total) (hnew : c.seq ∉ p.parts)
    (hroom : ∀ m, r.maxBufferedBytes = some m → r.bytes + c.data.length ≤ m) :
    Inv (r.store c).1 ∧ SameLimits r (r.store c).1 := by
  have hmem : c.fragmentId ∈ r.buffers := mem_of_lookup hp
  have hok := h.partials _ _ hp
  have hadd : (addTo p c).size = p.size + c.data.length := rfl
  have hlen := length_addTo hnew
  by_cases hlast : (addTo p c).parts.entries.length = p.total
  · rw [store_fst_of_full hp hlast]
    exact ⟨h.dropPartial _, sameLimits_dropPartial r _⟩
  · rw [store_of_lacks hp hlast]
    refine ⟨{ h with bytes := ?_, budget := hroom, pending := ?_, partials := ?_, apart := ?_ },
      ⟨rfl, rfl, rfl, rfl, rfl⟩⟩
    · exact sizes_insert_addTo h.bytes hp
    · show (AList.insert _ _ _).entries.length ≤ r.limit
      rw [length_entries_insert_of_mem hmem]
      exact h.pending
    · intro k q hq
      rw [lookup_insert_ite] at hq
      by_cases hk : k = c.fragmentId
      · rw [if_pos hk] at hq
        cases hq
        have hlacks := hok.lacks
        exact ⟨hok.several, by rw [hlen] at hlast ⊢; show _ < p.total; omega,
          below_addTo hok.below (htotal ▸ hseq), by rw [partBytes_addTo hnew, hadd, hok.size]⟩
      · rw [if_neg hk] at hq
        exact h.partials k q hq
    · intro k hk
      rcases (AList.mem_insert _).mp hk with rfl | hk
      · exact h.apart _ hmem
      · exact h.apart k hk

/-! ## A whole call -/

theorem Inv.settled (h : Inv r) (c : Chunk) (now : Nat) :
    Inv (r.settled c now) ∧ SameLimits r (r.settled c now) ∧
      (r.settled c now).evicted = (r.gc now).evicted ∧
      ∀ p, (r.settled c now).buffers.lookup c.fragmentId = some p → p.total = c.total := by
  obtain ⟨hinv, hlimits⟩ := h.gc now
  unfold Reassembler.settled
  cases hp : (r.gc now).buffers.lookup c.fragmentId with
  | none => exact ⟨hinv, hlimits, rfl, fun p hp' => by rw [hp] at hp'; simp at hp'⟩
  | some p =>
    dsimp only
    split
    · refine ⟨hinv.dropPartial _, hlimits.trans (sameLimits_dropPartial _ _),
        evicted_dropPartial, fun q hq => ?_⟩
      rw [dropPartial_lookup, if_pos rfl] at hq
      simp at hq
    · next htotal =>
      refine ⟨hinv, hlimits, rfl, fun q hq => ?_⟩
      rw [hp] at hq
      exact Option.some.inj hq ▸ not_not.mp htotal

theorem Inv.accept (h : Inv r) (hc : Missing r c) (now : Nat) :
    Inv (r.accept c now).1 ∧ SameLimits r (r.accept c now).1 := by
  -- opening and storing, from any state in which the chunk is missing and fits
  have hstore : ∀ s : Reassembler, Inv s → Missing s c → SameLimits r s →
      (∀ m, s.maxBufferedBytes = some m → s.bytes + c.data.length ≤ m) →
      Inv ((s.openPartial c now).store c).1 ∧
        SameLimits r ((s.openPartial c now).store c).1 := by
    intro s hs hc hsame hroom
    obtain ⟨hinv, hlimits, hbytes, p, hp, htotal, hnew⟩ := hs.openPartial hc now
    obtain ⟨hinv', hlimits'⟩ := hinv.store hp htotal hc.below hnew fun m hm => by
      have := hroom m (hlimits.maxBufferedBytes ▸ hm)
      omega
    exact ⟨hinv', hsame.trans (hlimits.trans hlimits')⟩
  rw [Reassembler.accept]
  split
  · exact ⟨h, .refl r⟩
  · cases hmax : r.maxBufferedBytes with
    | none => exact hstore r h hc (.refl r) fun m hm => by rw [hmax] at hm; simp at hm
    | some m =>
      dsimp only
      split
      · exact ⟨h, .refl r⟩
      · rcases h.makeRoom (n := c.data.length) (m := m) hc.alive
          (Nat.lt_succ_self r.buffers.entries.length) now with
          ⟨hflag, hpressed, hroom⟩ | ⟨r', hpressed, -, -, heq⟩
        · rw [if_pos hflag]
          refine hstore _ hpressed.inv (hc.pressed hpressed) hpressed.limits fun m' hm' => ?_
          rw [hpressed.limits.maxBufferedBytes, hmax] at hm'
          exact Option.some.inj hm' ▸ hroom
        · rw [heq]
          exact ⟨hpressed.inv.evict hpressed.alive now,
            hpressed.limits.trans (sameLimits_evict _ _ _)⟩

/-- A call keeps the invariant and the limits. -/
theorem Inv.feed (h : Inv r) (chunk : Bytes) (now : Nat) :
    Inv (r.feed chunk now).1 ∧ SameLimits r (r.feed chunk now).1 := by
  cases hparse : parseChunk chunk with
  | none =>
    rw [Reassembler.feed, hparse]
    exact ⟨h, .refl r⟩
  | some c =>
    by_cases hmax : c.total ≤ r.maxFragments
    · by_cases hfid : c.fragmentId ∈ (r.gc now).evicted
      · have hfeed : r.feed chunk now = (r.gc now, none) := by
          rw [Reassembler.feed, hparse]
          simp only [if_neg (not_lt.mpr hmax), if_pos hfid]
        rw [hfeed]
        exact h.gc now
      · obtain ⟨hinv, hlimits, hevicted, htotal⟩ := h.settled c now
        rw [feed_eq hparse hmax hfid]
        rw [← hevicted] at hfid
        generalize r.settled c now = s at hinv hlimits htotal hfid ⊢
        have hlt := parseChunk_lt hparse
        -- past the early exits the chunk is missing
        have haccept : (∀ p, s.buffers.lookup c.fragmentId = some p → c.seq ∉ p.parts) →
            2 ≤ c.total → Inv (s.accept c now).1 ∧ SameLimits r (s.accept c now).1 := by
          intro hnew htwo
          obtain ⟨hinv', hlimits'⟩ := hinv.accept (c := c)
            ⟨htwo, hlt, hfid, fun p hp => ⟨htotal p hp, hnew p hp⟩⟩ now
          exact ⟨hinv', hlimits.trans hlimits'⟩
        cases hp : s.buffers.lookup c.fragmentId with
        | none =>
          dsimp only
          split
          · exact ⟨hinv, hlimits⟩
          · exact haccept (fun p hp' => by rw [hp] at hp'; simp at hp') (by omega)
        | some p =>
          dsimp only
          split
          · exact ⟨hinv, hlimits⟩
          · next hnew =>
            refine haccept (fun q hq => ?_) ?_
            · rw [hp] at hq
              exact Option.some.inj hq ▸ hnew
            · rw [← htotal p hp]
              exact (hinv.partials _ p hp).several
    · have hfeed : r.feed chunk now = (r, none) := by
        rw [Reassembler.feed, hparse]
        simp only [if_pos (Nat.lt_of_not_le hmax)]
      rw [hfeed]
      exact ⟨h, .refl r⟩

end Reassembler

end Telesthete.Wire
