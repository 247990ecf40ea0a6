import Telesthete.Proofs.ReassemblerPanics
import Telesthete.Python.Fragment
import Telesthete.Lib.NumberedLog

/-!
# The two reassemblers agree

The Rust reassembler numbers its partials, and keeps the evicted ids twice, in a
map and in a queue. The Python one finds the oldest partial by its time and relies
on the order of its dictionaries. Both are made to describe one list `l`, the
partials in the order in which they arrived: `Arrivals` is the Rust side of this
and `Mirrors` the Python side, so that the oldest partial is the head of the list
on both sides, and a removal, an arrival and a new part are a filter, an append
and a change in place.

The times need one thing of the clock, that it does not go back: then the list
is also sorted by time, and the first entry with the least time is its head even
when times are equal. The evicted ids are simpler, the queue and the dictionary
are the same list.
-/

namespace Telesthete.Python.Fragment

open Telesthete.Lib List
open Telesthete.Wire (FragmentId Chunk version fragHeaderLen defaultEvictedMemory)

variable {r : Wire.Reassembler} {s : Reassembler} {clock now : Nat} {fid g : FragmentId}
  {l : List (FragmentId × Wire.Partial)} {c : Chunk} {chunk : Bytes}

theorem parseChunk_eq (chunk : Bytes) : parseChunk chunk = Wire.parseChunk chunk := by
  unfold parseChunk Wire.parseChunk
  by_cases hlen : chunk.length < headerSize
  · rw [dif_pos hlen, dif_pos (.inl hlen)]
  · rw [dif_neg hlen]
    have hne : chunk ≠ [] := by
      rintro rfl
      exact hlen (by decide)
    obtain ⟨b, rest, rfl⟩ := exists_cons_of_ne_nil hne
    by_cases hversion : b = version
    · have hno : ¬ ((b :: rest).length < fragHeaderLen ∨ (b :: rest).head? ≠ some version) := by
        rw [not_or]
        exact ⟨hlen, by simp [hversion]⟩
      rw [dif_neg hno]
      simp [hversion, headerSize, fragHeaderLen]
    · have hno : (b :: rest).length < fragHeaderLen ∨ (b :: rest).head? ≠ some version :=
        .inr (by simp [hversion])
      rw [dif_pos hno]
      simp [hversion]

/-! ## One list for both -/

/-- A partial without its arrival number. -/
def ofPartial (q : Wire.Partial) : Partial := ⟨q.total, q.parts, q.firstSeen, q.size⟩

/-- `l` is the partials of a reassembler in the order of their arrival, none later than `clock`. -/
structure Arrivals (r : Wire.Reassembler) (clock : Nat)
    (l : List (FragmentId × Wire.Partial)) : Prop where
  inv : r.Inv
  mem_iff : ∀ fid q, (fid, q) ∈ l ↔ r.buffers.lookup fid = some q
  order : l.Pairwise fun e e' => e.2.order < e'.2.order
  seen : l.Pairwise fun e e' => e.2.firstSeen ≤ e'.2.firstSeen
  next : ∀ e ∈ l, e.2.order < r.nextOrder
  past : ∀ e ∈ l, e.2.firstSeen ≤ clock

/-- A dictionary of the same partials in the same order, and a counter of their bytes. -/
structure Mirrors (s : Reassembler) (l : List (FragmentId × Wire.Partial)) : Prop where
  buffers : s.buffers.entries = l.map fun e => (e.1, ofPartial e.2)
  bytes : s.bytes = ((l.map fun e => e.2.size).sum : Nat)

structure Agrees (r : Wire.Reassembler) (s : Reassembler) (clock : Nat)
    (l : List (FragmentId × Wire.Partial)) : Prop extends Arrivals r clock l, Mirrors s l where
  evicted : s.evicted.entries = r.evictedOrder.map fun e => (e.1, (e.2 : Int))
  limit : s.limit = r.limit
  maxFragments : s.maxFragments = r.maxFragments
  maxChunk : s.maxChunk = r.maxChunkPayload
  maxBytes : s.maxBytes = r.maxBufferedBytes.map fun m : Nat => (m : Int)
  timeout : s.timeout = r.timeout

theorem Arrivals.nodup (h : Arrivals r clock l) : (l.map Prod.fst).Nodup := by
  refine pairwise_map.mpr (h.order.imp_of_mem fun {e e'} he he' hlt heq => ?_)
  obtain ⟨fid, q⟩ := e
  obtain ⟨fid', q'⟩ := e'
  obtain rfl : fid = fid' := heq
  have hq := (h.mem_iff _ _).mp he
  rw [(h.mem_iff _ _).mp he'] at hq
  rw [Option.some.inj hq] at hlt
  exact lt_irrefl _ hlt

/-- The list is a permutation of the entries. -/
theorem Arrivals.perm (h : Arrivals r clock l) :
    (r.buffers.entries.map fun (e : Σ _ : FragmentId, Wire.Partial) => (e.1, e.2)).Perm l := by
  have hnodup : (r.buffers.entries.map
      fun (e : Σ _ : FragmentId, Wire.Partial) => (e.1, e.2)).Nodup := by
    refine List.Nodup.of_map Prod.fst ?_
    rw [map_map]
    exact r.buffers.nodupKeys
  refine (perm_ext_iff_of_nodup hnodup (List.Nodup.of_map _ h.nodup)).mpr fun e => ?_
  obtain ⟨fid, q⟩ := e
  rw [h.mem_iff]
  constructor
  · intro hmem
    obtain ⟨⟨fid', q'⟩, he, heq⟩ := mem_map.mp hmem
    obtain ⟨rfl, rfl⟩ := Prod.mk.inj heq
    exact AList.mem_lookup_iff.mpr he
  · exact fun hlookup => mem_map.mpr ⟨⟨fid, q⟩, mem_entries_of_lookup hlookup, rfl⟩

theorem Arrivals.pending (h : Arrivals r clock l) : r.pending = l.length := by
  rw [← h.perm.length_eq, length_map]
  rfl

theorem Arrivals.bytes (h : Arrivals r clock l) : r.bytes = (l.map fun e => e.2.size).sum := by
  rw [h.inv.bytes, ← (h.perm.map fun e => e.2.size).sum_eq, map_map]
  rfl

theorem Mirrors.pending (h : Mirrors s l) : s.pending = l.length := by
  rw [Reassembler.pending, Dict.length, h.buffers, length_map]

theorem Mirrors.mem_iff (h : Mirrors s l) {buf : Partial} :
    s.buffers.get? fid = some buf ↔ ∃ q, (fid, q) ∈ l ∧ buf = ofPartial q := by
  rw [← Dict.mem_entries_iff, h.buffers, mem_map]
  constructor
  · rintro ⟨⟨fid', q⟩, hmem, heq⟩
    obtain ⟨rfl, rfl⟩ := Prod.mk.inj heq
    exact ⟨q, hmem, rfl⟩
  · rintro ⟨q, hmem, rfl⟩
    exact ⟨(fid, q), hmem, rfl⟩

/-- A lookup on one side is a lookup on the other. -/
theorem get?_eq (h : Arrivals r clock l) (h' : Mirrors s l) (fid : FragmentId) :
    s.buffers.get? fid = (r.buffers.lookup fid).map ofPartial := by
  cases hq : r.buffers.lookup fid with
  | some q => exact h'.mem_iff.mpr ⟨q, (h.mem_iff _ _).mpr hq, rfl⟩
  | none =>
    rw [Option.map_none, Option.eq_none_iff_forall_not_mem]
    intro buf hbuf
    obtain ⟨q, hmem, -⟩ := h'.mem_iff.mp hbuf
    rw [(h.mem_iff _ _).mp hmem] at hq
    simp at hq

theorem contains_evicted (h : r.Inv)
    (hevicted : s.evicted.entries = r.evictedOrder.map fun e => (e.1, (e.2 : Int)))
    (fid : FragmentId) :
    s.evicted.contains fid = true ↔ fid ∈ r.evicted := by
  rw [Dict.contains_iff, hevicted, map_map, ← h.queue.mem_fst]
  rfl

/-! ## The oldest partial -/

theorem Arrivals.oldest (h : Arrivals r clock l) (exclude : Option FragmentId) :
    r.oldest exclude = ((l.filter fun e => some e.1 ≠ exclude).head?).map Prod.fst := by
  have hmem : ∀ e : Σ _ : FragmentId, Wire.Partial,
      e ∈ r.buffers.entries.filter (fun (e : Σ _ : FragmentId, Wire.Partial) =>
        some e.1 ≠ exclude) ↔
      (e.1, e.2) ∈ l.filter fun e => some e.1 ≠ exclude := by
    intro e
    rw [mem_filter, mem_filter, h.mem_iff]
    exact and_congr_left fun _ => AList.mem_lookup_iff.symm
  have hsorted : (l.filter fun e => some e.1 ≠ exclude).Pairwise
      fun e e' => e.2.order < e'.2.order := h.order.filter _
  rw [Wire.Reassembler.oldest]
  cases hl : l.filter fun e => some e.1 ≠ exclude with
  | nil =>
    have hnil : r.buffers.entries.filter (fun (e : Σ _ : FragmentId, Wire.Partial) =>
        some e.1 ≠ exclude) = [] := by
      refine eq_nil_iff_forall_not_mem.mpr fun e he => ?_
      have := (hmem e).mp he
      rw [hl] at this
      exact not_mem_nil this
    rw [hnil]
    rfl
  | cons e rest =>
    obtain ⟨fid, q⟩ := e
    rw [hl, pairwise_cons] at hsorted
    have hfirst : (⟨fid, q⟩ : Σ _ : FragmentId, Wire.Partial) ∈
        (r.buffers.entries.filter fun (e : Σ _ : FragmentId, Wire.Partial) =>
          some e.1 ≠ exclude).argmin fun e => e.2.order := by
      have hle : ∀ e ∈ r.buffers.entries.filter (fun (e : Σ _ : FragmentId, Wire.Partial) =>
          some e.1 ≠ exclude), e = ⟨fid, q⟩ ∨ q.order < e.2.order := by
        intro e he
        have := (hmem e).mp he
        rw [hl] at this
        rcases mem_cons.mp this with heq | hrest
        · obtain ⟨rfl, rfl⟩ := Prod.mk.inj heq
          exact .inl rfl
        · exact .inr (hsorted.1 _ hrest)
      refine mem_argmin_iff.mpr ⟨(hmem _).mpr (by rw [hl]; exact mem_cons_self), ?_, ?_⟩
      · intro e he
        rcases hle e he with rfl | hlt
        · exact le_rfl
        · exact le_of_lt hlt
      · intro e he hback
        rcases hle e he with rfl | hlt
        · exact le_rfl
        · exact absurd hback (not_le.mpr hlt)
    rw [Option.mem_def.mp hfirst]
    rfl

/-- The scan keeps what it found if nothing later is older. -/
theorem foldl_older (exclude : Option FragmentId) (best : FragmentId × Int) :
    ∀ entries : List (FragmentId × Partial), (∀ e ∈ entries, best.2 ≤ e.2.firstSeen) →
      entries.foldl (Reassembler.older exclude) (some best) = some best := by
  intro entries
  induction entries with
  | nil => exact fun _ => rfl
  | cons e entries ih =>
    intro hle
    have hkeep : Reassembler.older exclude (some best) e = some best := by
      refine if_neg fun hnew => ?_
      have hlt : e.2.firstSeen < best.2 := by simpa using hnew.2
      have := hle e mem_cons_self
      omega
    rw [foldl_cons, hkeep]
    exact ih fun e' he' => hle e' (mem_cons_of_mem e he')

theorem foldl_older_none (exclude : Option FragmentId) :
    ∀ entries : List (FragmentId × Partial),
      (entries.Pairwise fun e e' => e.2.firstSeen ≤ e'.2.firstSeen) →
      (entries.foldl (Reassembler.older exclude) none).map Prod.fst =
        ((entries.filter fun e => some e.1 ≠ exclude).head?).map Prod.fst := by
  intro entries
  induction entries with
  | nil => exact fun _ => rfl
  | cons e entries ih =>
    intro hsorted
    obtain ⟨hle, hrest⟩ := pairwise_cons.mp hsorted
    rw [foldl_cons]
    by_cases hexclude : some e.1 = exclude
    · rw [Reassembler.older, if_neg fun hnew => hnew.1 hexclude,
        filter_cons_of_neg (by simpa using hexclude)]
      exact ih hrest
    · rw [Reassembler.older, if_pos ⟨hexclude, rfl⟩,
        filter_cons_of_pos (by simpa using hexclude),
        foldl_older exclude (e.1, e.2.firstSeen) entries hle]
      rfl

theorem Mirrors.oldest (h : Mirrors s l)
    (hseen : l.Pairwise fun e e' => e.2.firstSeen ≤ e'.2.firstSeen)
    (exclude : Option FragmentId) :
    s.oldest exclude = ((l.filter fun e => some e.1 ≠ exclude).head?).map Prod.fst := by
  have hsorted : (l.map fun e => (e.1, ofPartial e.2)).Pairwise
      fun e e' => e.2.firstSeen ≤ e'.2.firstSeen :=
    pairwise_map.mpr (hseen.imp fun hle => Int.ofNat_le.mpr hle)
  rw [Reassembler.oldest, h.buffers, foldl_older_none exclude _ hsorted, filter_map,
    head?_map, Option.map_map]
  rfl

theorem oldest_eq (h : Arrivals r clock l) (h' : Mirrors s l) (exclude : Option FragmentId) :
    s.oldest exclude = r.oldest exclude := by
  rw [h.oldest, h'.oldest h.seen]

/-! ## Dropping, evicting, expiring -/

theorem Mirrors.nodup (h : Mirrors s l) : (l.map Prod.fst).Nodup := by
  have hkeys := s.buffers.nodup
  rwa [h.buffers, map_map] at hkeys

theorem Arrivals.dropPartial (h : Arrivals r clock l) (g : FragmentId) :
    Arrivals (r.dropPartial g) clock (l.filter fun e => e.1 ≠ g) where
  inv := h.inv.dropPartial g
  mem_iff := fun fid q => by
    rw [mem_filter, h.mem_iff, Wire.Reassembler.dropPartial_lookup]
    by_cases hfid : fid = g
    · simp [hfid]
    · simp [hfid]
  order := h.order.filter _
  seen := h.seen.filter _
  next := fun e he => by
    rw [Wire.Reassembler.nextOrder_dropPartial]
    exact h.next e (mem_of_mem_filter he)
  past := fun e he => h.past e (mem_of_mem_filter he)

theorem Mirrors.drop (h : Mirrors s l) (g : FragmentId) :
    Mirrors (s.drop g) (l.filter fun e => e.1 ≠ g) := by
  have hfilter : (l.map fun e => (e.1, ofPartial e.2)).filter (fun e => e.1 ≠ g) =
      (l.filter fun e => e.1 ≠ g).map fun e => (e.1, ofPartial e.2) := filter_map
  unfold Reassembler.drop
  cases hget : s.buffers.get? g with
  | some buf =>
    obtain ⟨q, hmem, rfl⟩ := h.mem_iff.mp hget
    refine ⟨?_, ?_⟩
    · show s.buffers.entries.filter _ = _
      rw [h.buffers, hfilter]
    · have hsum := Dict.sum_filter_ne (fun e : FragmentId × Wire.Partial => e.2.size) h.nodup hmem
      show s.bytes - (q.size : Int) = _
      rw [h.bytes, ← hsum, Nat.cast_add, add_sub_cancel_right]
  | none =>
    have hall : l.filter (fun e => e.1 ≠ g) = l := by
      refine filter_eq_self.mpr fun e he => ?_
      obtain ⟨fid, q⟩ := e
      have hne : fid ≠ g := by
        rintro rfl
        rw [h.mem_iff.mpr ⟨q, he, rfl⟩] at hget
        simp at hget
      simpa using hne
    rw [hall]
    exact h

theorem evicted_drop : (s.drop g).evicted = s.evicted := by
  unfold Reassembler.drop
  split
  · rfl
  · rfl

/-- The limits of a reassembler, which nothing changes. -/
structure SameLimits (s s' : Reassembler) : Prop where
  limit : s'.limit = s.limit
  maxFragments : s'.maxFragments = s.maxFragments
  maxChunk : s'.maxChunk = s.maxChunk
  maxBytes : s'.maxBytes = s.maxBytes
  timeout : s'.timeout = s.timeout

theorem sameLimits_drop (s : Reassembler) (g : FragmentId) : SameLimits s (s.drop g) := by
  unfold Reassembler.drop
  split
  · exact ⟨rfl, rfl, rfl, rfl, rfl⟩
  · exact ⟨rfl, rfl, rfl, rfl, rfl⟩

/-- The limits agree after a step that changes them on neither side. -/
theorem Agrees.of_sameLimits {r' : Wire.Reassembler} {s' : Reassembler} {clock' : Nat}
    {l' : List (FragmentId × Wire.Partial)} (h : Agrees r s clock l)
    (hr : Wire.Reassembler.SameLimits r r') (hs : SameLimits s s') (harr : Arrivals r' clock' l')
    (hmir : Mirrors s' l')
    (hevicted : s'.evicted.entries = r'.evictedOrder.map fun e => (e.1, (e.2 : Int))) :
    Agrees r' s' clock' l' :=
  { harr, hmir with
    evicted := hevicted
    limit := by rw [hs.limit, hr.limit, h.limit]
    maxFragments := by rw [hs.maxFragments, hr.maxFragments, h.maxFragments]
    maxChunk := by rw [hs.maxChunk, hr.maxChunkPayload, h.maxChunk]
    maxBytes := by rw [hs.maxBytes, hr.maxBufferedBytes, h.maxBytes]
    timeout := by rw [hs.timeout, hr.timeout, h.timeout] }

theorem Agrees.drop (h : Agrees r s clock l) (g : FragmentId) :
    Agrees (r.dropPartial g) (s.drop g) clock (l.filter fun e => e.1 ≠ g) := by
  refine h.of_sameLimits (Wire.Reassembler.sameLimits_dropPartial r g) (sameLimits_drop s g)
    (h.toArrivals.dropPartial g) (h.toMirrors.drop g) ?_
  rw [evicted_drop, Wire.Reassembler.evictedOrder_dropPartial, h.evicted]

/-- An id that is not remembered goes to the end. -/
theorem entries_evicted_evict (hnot : s.evicted.contains g = false) (now : Int) :
    (s.evict g now).evicted.entries =
      (s.evicted.entries ++ [(g, now)]).drop
        (s.evicted.entries.length + 1 - defaultEvictedMemory) := by
  have hpop : ((s.drop g).evicted.pop g).entries = s.evicted.entries := by
    rw [evicted_drop]
    exact Dict.pop_of_not_contains hnot
  have hset : (((s.drop g).evicted.pop g).set g now).entries = s.evicted.entries ++ [(g, now)] := by
    rw [Dict.entries_set_of_not_contains, hpop]
    rwa [← Bool.not_eq_true, Dict.contains_iff, hpop, ← Dict.contains_iff, Bool.not_eq_true]
  show (Dict.trim _ _).entries = _
  rw [Dict.entries_trim, hset, length_append, length_singleton]

theorem sameLimits_evict (s : Reassembler) (g : FragmentId) (now : Int) :
    SameLimits s (s.evict g now) :=
  { sameLimits_drop s g with }

theorem Agrees.evict (h : Agrees r s clock l) (hg : g ∉ r.evicted) (now : Nat) :
    Agrees (r.evict g now) (s.evict g now) clock (l.filter fun e => e.1 ≠ g) := by
  have hd := h.drop g
  have hnot : s.evicted.contains g = false := by
    rw [← Bool.not_eq_true, contains_evicted h.inv h.evicted]
    exact hg
  have harr : Arrivals (r.evict g now) clock (l.filter fun e => e.1 ≠ g) :=
    { hd.toArrivals with inv := h.inv.evict hg now }
  have horder := (Wire.Reassembler.evictedOrder_evict h.inv.queue hg now).2
  refine h.of_sameLimits (Wire.Reassembler.sameLimits_evict r g now) (sameLimits_evict s g now)
    harr ⟨hd.buffers, hd.toMirrors.bytes⟩ ?_
  rw [entries_evicted_evict hnot, horder, h.evicted, map_drop, map_append,
    length_map, map_singleton]

/-- Taking out several keys one after the other. -/
theorem filter_not_contains_cons (g : FragmentId) (gs : List FragmentId)
    (l : List (FragmentId × Wire.Partial)) :
    l.filter (fun e => !(g :: gs).contains e.1) =
      (l.filter fun e => e.1 ≠ g).filter fun e => !gs.contains e.1 := by
  rw [filter_filter]
  refine filter_congr fun e _ => ?_
  have hbeq : (e.1 == g) = decide (e.1 = g) := rfl
  rw [contains_cons, Bool.not_or, Bool.and_comm, hbeq, decide_not]

theorem filter_not_contains_nil (l : List (FragmentId × Wire.Partial)) :
    l.filter (fun e => !([] : List FragmentId).contains e.1) = l :=
  filter_eq_self.mpr fun _ _ => rfl

theorem Mirrors.foldl_drop (gs : List FragmentId) : ∀ {s : Reassembler}
    {l : List (FragmentId × Wire.Partial)}, Mirrors s l →
    Mirrors (gs.foldl Reassembler.drop s) (l.filter fun e => !gs.contains e.1) ∧
      (gs.foldl Reassembler.drop s).evicted = s.evicted ∧
      SameLimits s (gs.foldl Reassembler.drop s) := by
  induction gs with
  | nil =>
    intro s l h
    rw [filter_not_contains_nil]
    exact ⟨h, rfl, rfl, rfl, rfl, rfl, rfl⟩
  | cons g gs ih =>
    intro s l h
    obtain ⟨hmir, hevicted, hlimits⟩ := ih (h.drop g)
    have hdrop := sameLimits_drop s g
    refine ⟨?_, hevicted.trans evicted_drop, hlimits.limit.trans hdrop.limit,
      hlimits.maxFragments.trans hdrop.maxFragments, hlimits.maxChunk.trans hdrop.maxChunk,
      hlimits.maxBytes.trans hdrop.maxBytes, hlimits.timeout.trans hdrop.timeout⟩
    rw [filter_not_contains_cons]
    exact hmir

theorem Arrivals.foldl_dropPartial (gs : List FragmentId) : ∀ {r : Wire.Reassembler}
    {l : List (FragmentId × Wire.Partial)}, Arrivals r clock l →
    Arrivals (gs.foldl Wire.Reassembler.dropPartial r) clock
      (l.filter fun e => !gs.contains e.1) := by
  induction gs with
  | nil =>
    intro r l h
    rw [filter_not_contains_nil]
    exact h
  | cons g gs ih =>
    intro r l h
    rw [filter_not_contains_cons]
    exact ih (h.dropPartial g)

theorem Agrees.expired (h : Agrees r s clock l) (now : Nat) :
    Agrees (r.expired now)
      { s with evicted := s.evicted.popWhile fun e => e.2 < (now : Int) - s.timeout } clock l := by
  have harr : Arrivals (r.expired now) clock l := { h.toArrivals with inv := h.inv.expired now }
  have horder := (Wire.Reassembler.Remembers.expire r.timeout now h.inv.queue).2
  refine h.of_sameLimits ⟨rfl, rfl, rfl, rfl, rfl⟩ ⟨rfl, rfl, rfl, rfl, rfl⟩ harr
    { h.toMirrors with } ?_
  show s.evicted.entries.dropWhile _ = (Wire.Reassembler.expireEvicted _ _ _ _).2.map _
  rw [horder, h.evicted, dropWhile_map]
  congr 2
  funext e
  rw [h.timeout]
  simp only [Function.comp_apply, decide_eq_decide]
  omega

/-- The partials that have expired are the same. -/
theorem contains_stale (h : Arrivals r clock l) (h' : Mirrors s l) (htimeout : s.timeout = r.timeout)
    (now : Nat) (e : FragmentId × Wire.Partial) (he : e ∈ l) :
    ((s.buffers.entries.filter fun e => e.2.firstSeen < (now : Int) - s.timeout).map
        Prod.fst).contains e.1 = (r.stale now).contains e.1 := by
  obtain ⟨fid, q⟩ := e
  have hq := (h.mem_iff _ _).mp he
  have hstale : fid ∈ r.stale now ↔ now - q.firstSeen > r.timeout := by
    rw [Wire.Reassembler.mem_stale, hq]
    simp
  have hmem : fid ∈ (s.buffers.entries.filter fun e =>
      e.2.firstSeen < (now : Int) - s.timeout).map Prod.fst ↔
      (q.firstSeen : Int) < (now : Int) - s.timeout := by
    rw [mem_map]
    constructor
    · rintro ⟨⟨fid', buf⟩, hbuf, rfl⟩
      obtain ⟨hentry, hlt⟩ := mem_filter.mp hbuf
      rw [Dict.mem_entries_iff, get?_eq h h', hq] at hentry
      cases hentry
      exact of_decide_eq_true hlt
    · intro hlt
      refine ⟨(fid, ofPartial q), mem_filter.mpr ⟨?_, decide_eq_true hlt⟩, rfl⟩
      rw [Dict.mem_entries_iff, get?_eq h h', hq]
      rfl
  rw [Bool.eq_iff_iff, contains_iff_mem, contains_iff_mem, hmem, hstale, htimeout]
  omega

theorem Agrees.gc (h : Agrees r s clock l) (now : Nat) :
    ∃ l', Agrees (r.gc now) (s.gcStale now) clock l' := by
  have hexp := h.expired now
  have hlimits := (h.inv.gc now).2
  have hevicted : (r.gc now).evictedOrder = (r.expired now).evictedOrder :=
    (Wire.Reassembler.Inv.foldl_dropPartial _ (h.inv.expired now)).2.2.2
  have harr := hexp.toArrivals.foldl_dropPartial ((r.expired now).stale now)
  obtain ⟨hmir, hkept, hsame⟩ := hexp.toMirrors.foldl_drop
    ((s.buffers.entries.filter fun e => e.2.firstSeen < (now : Int) - s.timeout).map Prod.fst)
  have hlist : l.filter (fun e => !((s.buffers.entries.filter fun e =>
        e.2.firstSeen < (now : Int) - s.timeout).map Prod.fst).contains e.1) =
      l.filter fun e => !((r.expired now).stale now).contains e.1 := by
    refine filter_congr fun e he => ?_
    rw [← contains_stale hexp.toArrivals hexp.toMirrors hexp.timeout now e he]
  rw [hlist] at hmir
  refine ⟨_, h.of_sameLimits hlimits
    { hsame with } harr hmir ?_⟩
  rw [hevicted, ← hexp.evicted]
  exact congrArg Dict.entries hkept

theorem Agrees.mono {clock' : Nat} (h : Agrees r s clock l) (hle : clock ≤ clock') :
    Agrees r s clock' l :=
  { h with past := fun e he => le_trans (h.past e he) hle }

theorem Agrees.bytes_eq (h : Agrees r s clock l) : s.bytes = r.bytes := by
  rw [h.toMirrors.bytes, h.toArrivals.bytes]

theorem Agrees.pending_eq (h : Agrees r s clock l) : s.pending = r.pending := by
  rw [h.toMirrors.pending, h.toArrivals.pending]

/-! ## The budget loop -/

theorem Agrees.makeRoom {n m : Nat} (now : Nat) : ∀ (fuel : Nat) {r : Wire.Reassembler}
    {s : Reassembler} {l : List (FragmentId × Wire.Partial)}, Agrees r s clock l →
    fid ∉ r.evicted → r.pending < fuel →
    ∃ s' l', Reassembler.makeRoom fid n m now fuel s =
        some (s', (Wire.Reassembler.makeRoom fid n m now fuel r).2) ∧
      Agrees (Wire.Reassembler.makeRoom fid n m now fuel r).1 s' clock l' := by
  intro fuel
  induction fuel with
  | zero => exact fun _ _ hlt => absurd hlt (Nat.not_lt_zero _)
  | succ fuel ih =>
    intro r s l h hfid hlt
    have hover : s.bytes + (n : Int) > m ↔ r.bytes + n > m := by
      rw [h.bytes_eq]
      omega
    rw [Reassembler.makeRoom, Wire.Reassembler.makeRoom]
    by_cases hroom : r.bytes + n > m
    · rw [if_pos (hover.mpr hroom), if_pos hroom, oldest_eq h.toArrivals h.toMirrors]
      cases hold : r.oldest (some fid) with
      | none => exact ⟨_, _, rfl, h.evict hfid now⟩
      | some victim =>
        obtain ⟨hmem, hne⟩ := Wire.Reassembler.oldest_some hold
        have hpending : (r.evict victim now).pending + 1 = r.pending :=
          Wire.Reassembler.pending_evict hmem
        refine ih (h.evict (h.inv.apart victim hmem) now) (fun hev => ?_) (by omega)
        rcases Wire.Reassembler.evicted_of_evict hev with rfl | hev
        · exact hne rfl
        · exact hfid hev
    · rw [if_neg fun hgt => hroom (hover.mp hgt), if_neg hroom]
      exact ⟨s, l, rfl, h⟩

/-! ## Opening and storing -/

theorem Agrees.slot (h : Agrees r s clock l) (now : Nat) :
    ∃ s' l', s.makeSlot now = some s' ∧ Agrees (r.slot now) s' clock l' := by
  have hlen : (s.buffers.length : Int) ≥ s.limit ↔ r.limit ≤ r.pending := by
    rw [show s.buffers.length = s.pending from rfl, h.pending_eq, h.limit]
    omega
  unfold Reassembler.makeSlot
  rcases Wire.Reassembler.slot_cases h.inv.limit now with ⟨hlt, heq⟩ | ⟨victim, hge, hmem, hold, heq⟩
  · rw [if_neg fun hfull => not_le.mpr hlt (hlen.mp hfull), heq]
    exact ⟨s, l, rfl, h⟩
  · rw [if_pos (hlen.mpr hge), oldest_eq h.toArrivals h.toMirrors, hold, heq]
    exact ⟨_, _, rfl, h.evict (h.inv.apart victim hmem) now⟩

/-- A new partial arrives last. -/
theorem Agrees.openPartial (h : Agrees r s clock l) (hle : clock ≤ now)
    (hc : Wire.Reassembler.Missing r c) (hnot : c.fragmentId ∉ r.buffers) :
    ∃ s' l' q, s.openPartial c now = some (s', ofPartial q) ∧
      Agrees (r.openPartial c now) s' now l' ∧
      (r.openPartial c now).buffers.lookup c.fragmentId = some q := by
  obtain ⟨s', l', heq, hslot⟩ := h.slot now
  obtain ⟨hinv, hlimits, -⟩ := h.inv.openPartial hc now
  have hnone : (r.slot now).buffers.lookup c.fragmentId = none :=
    (Wire.Reassembler.Pressed.slot h.inv hnot hc.alive now).1.own.trans
      (AList.lookup_eq_none.mpr hnot)
  have hcontains : s'.buffers.contains c.fragmentId = false := by
    rw [← Dict.get?_isSome, get?_eq hslot.toArrivals hslot.toMirrors, hnone]
    rfl
  rw [Wire.Reassembler.openPartial_of_notMem hnot] at hinv hlimits ⊢
  generalize hq : Wire.Reassembler.opened c.total now (r.slot now).nextOrder = q at hinv hlimits ⊢
  have horder : q.order = (r.slot now).nextOrder := by rw [← hq]; rfl
  have hseen : q.firstSeen = now := by rw [← hq]; rfl
  have hnew : ofPartial q = { total := c.total, parts := ∅, firstSeen := now, size := 0 } := by
    rw [← hq]
    rfl
  refine ⟨{ s' with buffers := s'.buffers.set c.fragmentId (ofPartial q) },
    l' ++ [(c.fragmentId, q)], q, ?_, ?_, AList.lookup_insert _⟩
  · unfold Reassembler.openPartial
    rw [heq, hnew]
    rfl
  · refine hslot.of_sameLimits ⟨rfl, rfl, rfl, rfl, rfl⟩ ⟨rfl, rfl, rfl, rfl, rfl⟩ ?_ ?_
      hslot.evicted
    · refine ⟨hinv, fun fid p => ?_, ?_, ?_, ?_, ?_⟩
      · rw [mem_append, hslot.mem_iff, mem_singleton, lookup_insert_ite, Prod.mk.injEq]
        by_cases hfid : fid = c.fragmentId
        · subst hfid
          rw [hnone, if_pos rfl]
          simp [eq_comm]
        · simp [hfid]
      · refine pairwise_append.mpr ⟨hslot.order, pairwise_singleton _ _, fun e he e' he' => ?_⟩
        rw [mem_singleton.mp he']
        rw [horder]
        exact hslot.next e he
      · refine pairwise_append.mpr ⟨hslot.seen, pairwise_singleton _ _, fun e he e' he' => ?_⟩
        rw [mem_singleton.mp he']
        rw [hseen]
        exact le_trans (hslot.past e he) hle
      · refine forall_mem_snoc (fun e he => Nat.lt_succ_of_lt (hslot.next e he)) ?_
        show q.order < (r.slot now).nextOrder + 1
        omega
      · exact forall_mem_snoc (fun e he => le_trans (hslot.past e he) hle) (le_of_eq hseen)
    · refine ⟨?_, ?_⟩
      · show (s'.buffers.set _ _).entries = _
        rw [Dict.entries_set_of_not_contains hcontains, hslot.buffers, map_append]
        rfl
      · have hsize : q.size = 0 := by rw [← hq]; rfl
        rw [hslot.toMirrors.bytes, map_append, sum_append, map_singleton,
          sum_singleton, hsize, Nat.add_zero]

/-- An entry with the part of a chunk of its message. -/
def put (c : Chunk) (e : FragmentId × Wire.Partial) : FragmentId × Wire.Partial :=
  if e.1 = c.fragmentId then (e.1, Wire.Reassembler.addTo e.2 c) else e

theorem put_keeps (c : Chunk) (e : FragmentId × Wire.Partial) :
    (put c e).1 = e.1 ∧ (put c e).2.order = e.2.order ∧ (put c e).2.firstSeen = e.2.firstSeen := by
  unfold put
  split
  · exact ⟨rfl, rfl, rfl⟩
  · exact ⟨rfl, rfl, rfl⟩

theorem filter_map_put : (l.map (put c)).filter (fun e => e.1 ≠ c.fragmentId) =
    l.filter fun e => e.1 ≠ c.fragmentId := by
  rw [filter_map]
  refine (map_congr_left fun e he => ?_).trans ((map_id _).trans ?_)
  · have hne : e.1 ≠ c.fragmentId := by
      have := (mem_filter.mp he).2
      simpa [(put_keeps c e).1] using this
    exact if_neg hne
  · refine filter_congr fun e _ => ?_
    simp [(put_keeps c e).1]

theorem mem_map_put {q : Wire.Partial} (h : (c.fragmentId, q) ∈ l) :
    (c.fragmentId, Wire.Reassembler.addTo q c) ∈ l.map (put c) :=
  mem_map.mpr ⟨_, h, if_pos rfl⟩

/-- The dictionary shares the partial that gets a part. -/
theorem Mirrors.put {q : Wire.Partial} (h : Mirrors s l) (hq : (c.fragmentId, q) ∈ l) :
    Mirrors
      { s with
        buffers := s.buffers.set c.fragmentId (ofPartial (Wire.Reassembler.addTo q c))
        bytes := s.bytes + c.data.length }
      (l.map (put c)) := by
  have hcontains : s.buffers.contains c.fragmentId = true := by
    rw [← Dict.get?_isSome, h.mem_iff.mpr ⟨q, hq, rfl⟩]
    rfl
  have hnodup : ((l.map (Fragment.put c)).map Prod.fst).Nodup := by
    rw [map_map, show Prod.fst ∘ Fragment.put c = Prod.fst from
      funext fun e => (put_keeps c e).1]
    exact h.nodup
  refine ⟨?_, ?_⟩
  · show (s.buffers.set _ _).entries = _
    rw [Dict.entries_set_of_contains hcontains, h.buffers, map_map, map_map]
    refine map_congr_left fun e he => ?_
    obtain ⟨fid, p⟩ := e
    by_cases hfid : fid = c.fragmentId
    · subst hfid
      have hp : p = q := congrArg Prod.snd (inj_on_of_nodup_map h.nodup he hq rfl)
      simp [Fragment.put, hp]
    · simp [Fragment.put, hfid]
  · have hsum := Dict.sum_filter_ne (fun e : FragmentId × Wire.Partial => e.2.size) h.nodup hq
    have hsum' := Dict.sum_filter_ne (fun e : FragmentId × Wire.Partial => e.2.size) hnodup
      (mem_map_put hq)
    have hadd : (Wire.Reassembler.addTo q c).size = q.size + c.data.length := rfl
    rw [filter_map_put] at hsum'
    rw [h.bytes, ← hsum', ← hsum]
    simp only [hadd]
    omega

theorem Agrees.store {q : Wire.Partial} (h : Agrees r s clock l)
    (hq : r.buffers.lookup c.fragmentId = some q) (htotal : q.total = c.total)
    (hseq : c.seq < c.total) (hnew : c.seq ∉ q.parts)
    (hroom : ∀ m, r.maxBufferedBytes = some m → r.bytes + c.data.length ≤ m) :
    ∃ s' l', s.store c (ofPartial q) = some (s', (r.store c).2) ∧
      Agrees (r.store c).1 s' clock l' := by
  have hmem := (h.mem_iff _ _).mpr hq
  have hput := h.toMirrors.put hmem
  have hlimits := (h.inv.store hq htotal hseq hnew hroom).2
  have hok := h.inv.partials _ _ hq
  have hbuf : ({ ofPartial q with
      parts := (ofPartial q).parts.insert c.seq c.data
      size := (ofPartial q).size + c.data.length } : Partial) =
      ofPartial (Wire.Reassembler.addTo q c) := rfl
  unfold Reassembler.store
  rw [hbuf]
  by_cases hlast : (Wire.Reassembler.addTo q c).parts.entries.length = q.total
  · have hcomplete : (ofPartial (Wire.Reassembler.addTo q c)).complete = true :=
      decide_eq_true hlast
    have hall := Wire.Reassembler.mem_parts_of_full hlast
      (Wire.Reassembler.below_addTo hok.below (htotal ▸ hseq))
    have hassemble : (ofPartial (Wire.Reassembler.addTo q c)).assemble =
        some (Wire.Reassembler.assemble (Wire.Reassembler.addTo q c)) :=
      Wire.Reassembler.assemble?_eq hall
    have hdrop := hput.drop c.fragmentId
    rw [filter_map_put] at hdrop
    have hout : (r.store c).2 = some (Wire.Reassembler.assemble (Wire.Reassembler.addTo q c)) := by
      rw [Wire.Reassembler.store_of_full hq hlast]
    have hsame := sameLimits_drop
      { s with
        buffers := s.buffers.set c.fragmentId (ofPartial (Wire.Reassembler.addTo q c))
        bytes := s.bytes + c.data.length } c.fragmentId
    rw [hout]
    rw [Wire.Reassembler.store_fst_of_full hq hlast] at hlimits ⊢
    simp only [hcomplete, hassemble, Bool.not_true, Bool.false_eq_true, if_false, Option.map_some]
    refine ⟨_, l.filter fun e => e.1 ≠ c.fragmentId, rfl, h.of_sameLimits hlimits
      { hsame with } (h.toArrivals.dropPartial _) hdrop ?_⟩
    rw [evicted_drop, Wire.Reassembler.evictedOrder_dropPartial]
    exact h.evicted
  · have hcomplete : (ofPartial (Wire.Reassembler.addTo q c)).complete = false :=
      decide_eq_false hlast
    have hinv := (h.inv.store hq htotal hseq hnew hroom).1
    simp only [hcomplete, Bool.not_false, if_true]
    rw [Wire.Reassembler.store_of_lacks hq hlast] at hinv hlimits ⊢
    refine ⟨_, l.map (Fragment.put c), rfl, h.of_sameLimits hlimits ⟨rfl, rfl, rfl, rfl, rfl⟩ ?_ hput
      h.evicted⟩
    refine ⟨hinv, fun fid p => ?_, ?_, ?_, ?_, ?_⟩
    · rw [lookup_insert_ite]
      by_cases hfid : fid = c.fragmentId
      · subst hfid
        rw [if_pos rfl, Option.some.injEq]
        constructor
        · intro hp
          obtain ⟨⟨fid, p'⟩, he, heq⟩ := mem_map.mp hp
          obtain rfl : fid = c.fragmentId := (put_keeps c _).1.symm.trans (congrArg Prod.fst heq)
          have hp' : p' = q := Option.some.inj (((h.mem_iff _ _).mp he).symm.trans hq)
          rw [Fragment.put, if_pos rfl, hp'] at heq
          exact (Prod.mk.inj heq).2
        · rintro rfl
          exact mem_map_put hmem
      · rw [if_neg hfid, ← h.mem_iff]
        constructor
        · intro hp
          obtain ⟨⟨fid', p'⟩, he, heq⟩ := mem_map.mp hp
          have hne : fid' ≠ c.fragmentId :=
            fun h' => hfid ((congrArg Prod.fst heq).symm.trans ((put_keeps c _).1.trans h'))
          rw [Fragment.put, if_neg hne] at heq
          exact heq ▸ he
        · exact fun hp => mem_map.mpr ⟨_, hp, if_neg hfid⟩
    · refine pairwise_map.mpr (h.order.imp fun {e e'} hlt => ?_)
      rw [(put_keeps c e).2.1, (put_keeps c e').2.1]
      exact hlt
    · refine pairwise_map.mpr (h.seen.imp fun {e e'} hle => ?_)
      rw [(put_keeps c e).2.2, (put_keeps c e').2.2]
      exact hle
    · intro e he
      obtain ⟨e', he', rfl⟩ := mem_map.mp he
      rw [(put_keeps c e').2.1]
      exact h.next e' he'
    · intro e he
      obtain ⟨e', he', rfl⟩ := mem_map.mp he
      rw [(put_keeps c e').2.2]
      exact h.past e' he'

/-! ## A whole call -/

theorem Agrees.place (h : Agrees r s clock l) (hle : clock ≤ now)
    (hc : Wire.Reassembler.Missing r c)
    (hroom : ∀ m, r.maxBufferedBytes = some m → r.bytes + c.data.length ≤ m) :
    ∃ s' l', s.place c (s.buffers.get? c.fragmentId) now =
        some (s', ((r.openPartial c now).store c).2) ∧
      Agrees ((r.openPartial c now).store c).1 s' now l' := by
  rw [get?_eq h.toArrivals h.toMirrors]
  by_cases hmem : c.fragmentId ∈ r.buffers
  · obtain ⟨q, hq⟩ := (Wire.Reassembler.mem_buffers_iff r _).mp hmem
    obtain ⟨htotal, hnew⟩ := hc.fresh q hq
    rw [hq, Wire.Reassembler.openPartial_of_mem hmem]
    exact (h.mono hle).store hq htotal hc.below hnew hroom
  · obtain ⟨hinv, hlimits, hbytes, q, hq, htotal, hnew⟩ := h.inv.openPartial hc now
    obtain ⟨s', l', q', heq, hopen, hq'⟩ := h.openPartial hle hc hmem
    obtain rfl : q = q' := Option.some.inj (hq.symm.trans hq')
    rw [AList.lookup_eq_none.mpr hmem]
    show ∃ s'' l', (s.openPartial c now).bind _ = _ ∧ _
    rw [heq]
    refine hopen.store hq htotal hc.below hnew fun m hm => ?_
    have := hroom m (hlimits.maxBufferedBytes ▸ hm)
    omega

theorem Agrees.accept (h : Agrees r s clock l) (hle : clock ≤ now)
    (hc : Wire.Reassembler.Missing r c) :
    ∃ s' l', s.accept c (s.buffers.get? c.fragmentId) now = some (s', (r.accept c now).2) ∧
      Agrees (r.accept c now).1 s' now l' := by
  have hchunk : (c.data.length : Int) > s.maxChunk ↔ c.data.length > r.maxChunkPayload := by
    rw [h.maxChunk]
    omega
  unfold Reassembler.accept Wire.Reassembler.accept
  by_cases hlarge : c.data.length > r.maxChunkPayload
  · rw [if_pos (hchunk.mpr hlarge), if_pos hlarge]
    exact ⟨s, l, rfl, h.mono hle⟩
  · rw [if_neg fun hgt => hlarge (hchunk.mp hgt), if_neg hlarge, h.maxBytes]
    cases hmax : r.maxBufferedBytes with
    | none => exact h.place hle hc fun m hm => by rw [hmax] at hm; simp at hm
    | some m =>
      have hover : (c.data.length : Int) > (m : Int) ↔ c.data.length > m := by omega
      dsimp only [Option.map_some]
      by_cases hbig : c.data.length > m
      · rw [if_pos (hover.mpr hbig), if_pos hbig]
        exact ⟨s, l, rfl, h.mono hle⟩
      · rw [if_neg fun hgt => hbig (hover.mp hgt), if_neg hbig]
        have hpending : s.buffers.length = r.buffers.entries.length := h.pending_eq
        have hlt : r.pending < r.buffers.entries.length + 1 := Nat.lt_succ_self _
        obtain ⟨s', l', heq, hagree⟩ := Agrees.makeRoom (n := c.data.length) (m := m) now
          (r.buffers.entries.length + 1) h hc.alive hlt
        rw [hpending, heq, Option.bind_some]
        rcases h.inv.makeRoom (n := c.data.length) (m := m) hc.alive hlt now with
          ⟨hflag, hpressed, hroom⟩ | ⟨r', -, -, -, hfail⟩
        · have hbuf : s.buffers.get? c.fragmentId = s'.buffers.get? c.fragmentId := by
            rw [get?_eq h.toArrivals h.toMirrors, get?_eq hagree.toArrivals hagree.toMirrors,
              hpressed.own]
          rw [if_pos hflag, if_pos hflag, hbuf]
          refine hagree.place hle (hc.pressed hpressed) fun m' hm' => ?_
          rw [hpressed.limits.maxBufferedBytes, hmax] at hm'
          exact Option.some.inj hm' ▸ hroom
        · rw [hfail] at hagree ⊢
          exact ⟨s', l', rfl, hagree.mono hle⟩

theorem Agrees.feed (h : Agrees r s clock l) (hle : clock ≤ now) (chunk : Bytes) :
    ∃ s' l', s.feed chunk now = some (s', (r.feed chunk now).2) ∧
      Agrees (r.feed chunk now).1 s' now l' := by
  unfold Reassembler.feed
  rw [parseChunk_eq]
  cases hparse : Wire.parseChunk chunk with
  | none =>
    rw [Wire.Reassembler.feed, hparse]
    exact ⟨s, l, rfl, h.mono hle⟩
  | some c =>
    have hmax : (c.total : Int) > s.maxFragments ↔ c.total > r.maxFragments := by
      rw [h.maxFragments]
      omega
    dsimp only
    by_cases hmany : c.total > r.maxFragments
    · rw [if_pos (hmax.mpr hmany), Wire.Reassembler.feed, hparse]
      simp only [if_pos hmany]
      exact ⟨s, l, rfl, h.mono hle⟩
    · rw [if_neg fun hgt => hmany (hmax.mp hgt)]
      obtain ⟨lgc, hgc⟩ := h.gc now
      have hcontains := contains_evicted hgc.inv hgc.evicted c.fragmentId
      by_cases hfid : c.fragmentId ∈ (r.gc now).evicted
      · rw [if_pos (hcontains.mpr hfid), Wire.Reassembler.feed, hparse]
        simp only [if_neg hmany, if_pos hfid]
        exact ⟨_, lgc, rfl, hgc.mono hle⟩
      · rw [if_neg fun hmem => hfid (hcontains.mp hmem),
          Wire.Reassembler.feed_eq hparse (Nat.le_of_not_lt hmany) hfid]
        have hlt := Wire.Reassembler.parseChunk_lt hparse
        have hget := get?_eq hgc.toArrivals hgc.toMirrors c.fragmentId
        obtain ⟨hinv, -, -, -⟩ := h.inv.settled c now
        -- a message without a partial: one chunk is answered, of several the first is accepted
        have hnew : ∀ {s' : Reassembler} {r' : Wire.Reassembler}
            {l' : List (FragmentId × Wire.Partial)}, Agrees r' s' clock l' →
            r'.buffers.lookup c.fragmentId = none → c.fragmentId ∉ r'.evicted →
            ∃ s'' l'', (if c.total = 1 then some (s', some c.data) else s'.accept c none now) =
                some (s'', (if c.total = 1 then (r', some c.data) else r'.accept c now).2) ∧
              Agrees (if c.total = 1 then (r', some c.data) else r'.accept c now).1 s'' now
                l'' := by
          intro s' r' l' h' hnone halive
          by_cases hone : c.total = 1
          · rw [if_pos hone, if_pos hone]
            exact ⟨s', l', rfl, h'.mono hle⟩
          · rw [if_neg hone, if_neg hone]
            have haccept := h'.accept hle (c := c)
              ⟨by omega, hlt, halive, fun p hp => by rw [hnone] at hp; simp at hp⟩
            rwa [get?_eq h'.toArrivals h'.toMirrors, hnone] at haccept
        rw [hget]
        unfold Wire.Reassembler.settled
        cases hq : (r.gc now).buffers.lookup c.fragmentId with
        | none =>
          rw [hq]
          exact hnew hgc hq hfid
        | some q =>
          dsimp only [Option.map_some]
          by_cases htotal : q.total = c.total
          · have htotal' : (ofPartial q).total = c.total := htotal
            rw [if_neg (not_not.mpr htotal'), if_neg (not_not.mpr htotal), hq]
            dsimp only
            by_cases hdup : c.seq ∈ q.parts
            · have hdup' : c.seq ∈ (ofPartial q).parts := hdup
              rw [if_pos hdup', if_pos hdup]
              exact ⟨_, lgc, rfl, hgc.mono hle⟩
            · have hdup' : c.seq ∉ (ofPartial q).parts := hdup
              rw [if_neg hdup', if_neg hdup]
              have htwo : 2 ≤ c.total := htotal ▸ (hgc.inv.partials _ q hq).several
              have haccept := hgc.accept hle (c := c) ⟨htwo, hlt, hfid, fun p hp => by
                rw [hq] at hp
                cases hp
                exact ⟨htotal, hdup⟩⟩
              rwa [hget, hq] at haccept
          · have htotal' : (ofPartial q).total ≠ c.total := htotal
            have hnone : ((r.gc now).dropPartial c.fragmentId).buffers.lookup c.fragmentId =
                none := by
              rw [Wire.Reassembler.dropPartial_lookup, if_pos rfl]
            rw [if_pos htotal', if_pos htotal, hnone]
            refine hnew (hgc.drop c.fragmentId) hnone ?_
            rw [Wire.Reassembler.evicted_dropPartial]
            exact hfid

/-! ## Every sequence of calls -/

/-- What each call of a sequence returns, with the pending count and the buffered bytes that are
reported after it. -/
def rustTrace : Wire.Reassembler → List (Bytes × Nat) → List (Option Bytes × Nat × Int)
  | _, [] => []
  | r, (chunk, now) :: rest =>
    let fed := r.feed chunk now
    (fed.2, fed.1.pending, fed.1.bufferedBytes) :: rustTrace fed.1 rest

/-- The same of the Python reassembler; `none` if a call does not return. -/
def pythonTrace : Reassembler → List (Bytes × Nat) → Option (List (Option Bytes × Nat × Int))
  | _, [] => some []
  | s, (chunk, now) :: rest =>
    (s.feed chunk now).bind fun fed =>
      (pythonTrace fed.1 rest).map fun trace =>
        (fed.2, fed.1.pending, fed.1.bufferedBytes) :: trace

theorem Agrees.trace : ∀ (feeds : List (Bytes × Nat)) {r : Wire.Reassembler} {s : Reassembler}
    {clock : Nat} {l : List (FragmentId × Wire.Partial)}, Agrees r s clock l →
    (clock :: feeds.map Prod.snd).Pairwise (· ≤ ·) →
    pythonTrace s feeds = some (rustTrace r feeds) := by
  intro feeds
  induction feeds with
  | nil => exact fun _ _ => rfl
  | cons e feeds ih =>
    obtain ⟨chunk, now⟩ := e
    intro r s clock l h hclock
    obtain ⟨hpast, hrest⟩ := pairwise_cons.mp hclock
    have hle : clock ≤ now := hpast now mem_cons_self
    obtain ⟨s', l', heq, hagree⟩ := h.feed hle chunk
    rw [pythonTrace, heq, Option.bind_some, ih hagree hrest, rustTrace]
    simp only [Option.map_some, Wire.Reassembler.bufferedBytes, Reassembler.bufferedBytes,
      hagree.pending_eq, hagree.bytes_eq]

/-- A Python reassembler and a Rust one with the same limits, fed the same byte strings at readings
of a clock that does not go back, return the same on every call and report the same pending count
and the same buffered bytes after it. In particular no call of the Python one raises. -/
theorem reassemblers_agree (limit maxFragments maxChunkPayload : Nat) (budget : Option Nat)
    (timeout : Nat) (hlimit : 1 ≤ limit) (hchunk : 1 ≤ maxChunkPayload) {s : Reassembler}
    (hs : Reassembler.init timeout limit maxFragments (budget.map fun m : Nat => (m : Int))
      maxChunkPayload = .ok s)
    (feeds : List (Bytes × Nat)) (hclock : (feeds.map Prod.snd).Pairwise (· ≤ ·)) :
    pythonTrace s feeds =
      some (rustTrace
        (Wire.Reassembler.configured limit maxFragments maxChunkPayload budget timeout) feeds) := by
  have hfragments : 1 ≤ maxFragments := by
    by_contra hlt
    rw [Reassembler.init, if_pos (by omega)] at hs
    simp at hs
  have hbudget : (budget.map fun m : Nat => (m : Int)).any (· < 0) = false := by
    cases budget with
    | none => rfl
    | some m => exact decide_eq_false (Int.not_lt.mpr (Int.natCast_nonneg m))
  have hno : ¬ (maxFragments : Int) < 1 := by omega
  have hno' : ¬ (maxChunkPayload : Int) < 1 := by omega
  rw [Reassembler.init, if_neg hno, if_neg hno', hbudget] at hs
  have hnil : Agrees
      (Wire.Reassembler.configured limit maxFragments maxChunkPayload budget timeout) s 0 [] := by
    obtain rfl := Except.ok.inj hs
    refine
      { inv := Wire.Reassembler.inv_configured _ _ _ _ _
        mem_iff := fun fid q => ?_
        order := List.Pairwise.nil
        seen := List.Pairwise.nil
        next := fun e he => absurd he not_mem_nil
        past := fun e he => absurd he not_mem_nil
        buffers := rfl
        bytes := rfl
        evicted := rfl
        limit := congrArg _ (Nat.max_eq_left hlimit).symm
        maxFragments := congrArg _ (Nat.max_eq_left hfragments).symm
        maxChunk := congrArg _ (Nat.max_eq_left hchunk).symm
        maxBytes := rfl
        timeout := rfl }
    refine ⟨fun he => absurd he not_mem_nil, fun hq => ?_⟩
    rw [show (Wire.Reassembler.configured limit maxFragments maxChunkPayload budget timeout).buffers =
      ∅ from rfl] at hq
    simp at hq
  exact Agrees.trace feeds hnil (pairwise_cons.mpr ⟨fun _ _ => Nat.zero_le _, hclock⟩)

/-- Chunks of three messages at two readings of the clock, into a budget of six bytes: the second
message completes after the first was evicted. -/
theorem reassemblers_agree_pressed :
    ∃ s, Reassembler.init 100 2 16 (some 6) 8 = .ok s ∧
      pythonTrace s [(Wire.packChunk (Wire.Reassembler.fidOf 1) 0 2 [1, 2, 3], 5),
          (Wire.packChunk (Wire.Reassembler.fidOf 2) 1 2 [4, 5], 5),
          (Wire.packChunk (Wire.Reassembler.fidOf 3) 0 2 [6, 7], 5),
          (Wire.packChunk (Wire.Reassembler.fidOf 2) 0 2 [8], 6)] =
        some [(none, 1, 3), (none, 2, 5), (none, 2, 4), (some [8, 4, 5], 1, 2)] := by
  refine ⟨_, rfl, (reassemblers_agree 2 16 8 (some 6) 100 (by decide) (by decide) rfl _
    (by decide)).trans ?_⟩
  decide +kernel

end Telesthete.Python.Fragment
