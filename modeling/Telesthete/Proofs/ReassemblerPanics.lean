import Telesthete.Proofs.ReassemblerInv

/-!
# The reassembler never panics

In a state with the invariant, `feed?` computes what `feed` computes: no
subtraction goes below zero, since the counter holds the bytes of every partial;
no index and no `unwrap` fails, since a partial was opened just before and a
partial with as many parts as its total has each of them; and the eviction loop
is not cut off, since every pass takes a partial away. The invariant holds after
every sequence of calls, so this settles all of them.
-/

namespace Telesthete.Wire.Reassembler

open Telesthete.Lib

variable {r : Reassembler} {fid g : FragmentId} {now n m fuel : Nat} {p : Partial} {c : Chunk}

theorem checkedSub_of_le {a b : Nat} (h : b ≤ a) : checkedSub a b = some (a - b) := if_pos h

theorem dropPartial?_eq (h : r.bytes = r.sizes) : r.dropPartial? g = some (r.dropPartial g) := by
  rw [dropPartial?, dropPartial]
  cases hp : r.buffers.lookup g with
  | none => rfl
  | some p =>
    dsimp only
    rw [checkedSub_of_le (size_le_bytes h hp)]
    rfl

theorem evict?_eq (h : r.bytes = r.sizes) : r.evict? g now = some (r.evict g now) := by
  rw [evict?, dropPartial?_eq h]
  rfl

theorem foldlM_dropPartial? (l : List FragmentId) : ∀ {r : Reassembler}, r.bytes = r.sizes →
    l.foldlM dropPartial? r = some (l.foldl dropPartial r) := by
  induction l with
  | nil => exact fun _ => rfl
  | cons g l ih =>
    intro r h
    rw [List.foldlM_cons, dropPartial?_eq h]
    exact ih (sizes_dropPartial h)

theorem gc?_eq (h : Inv r) : r.gc? now = some (r.gc now) :=
  foldlM_dropPartial? ((r.expired now).stale now) (h.expired now).bytes

/-- Any number of passes beyond that of the partials is enough, and more change nothing. -/
theorem makeRoom?_eq : ∀ (fuel fuel' : Nat) {r : Reassembler}, r.bytes = r.sizes →
    r.pending < fuel → r.pending < fuel' →
    makeRoom? fid n m now fuel r = some (makeRoom fid n m now fuel' r) := by
  intro fuel
  induction fuel with
  | zero => exact fun _ _ _ hlt _ => absurd hlt (Nat.not_lt_zero _)
  | succ fuel ih =>
    intro fuel' r h hlt hlt'
    cases fuel' with
    | zero => exact absurd hlt' (Nat.not_lt_zero _)
    | succ fuel' =>
      rw [makeRoom?, makeRoom]
      split
      · cases hold : r.oldest (some fid) with
        | none =>
          rw [evict?_eq h]
          rfl
        | some victim =>
          have hpending : (r.evict victim now).pending + 1 = r.pending :=
            pending_evict (oldest_some hold).1
          dsimp only
          rw [evict?_eq h]
          exact ih fuel' (sizes_dropPartial h) (by omega) (by omega)
      · rfl

theorem openPartial?_eq (h : Inv r) : r.openPartial? c now = some (r.openPartial c now) := by
  rw [openPartial?, openPartial]
  split
  · rfl
  · dsimp only
    split
    · cases hold : r.oldest none with
      | none => rfl
      | some victim =>
        dsimp only
        rw [evict?_eq h.bytes]
        rfl
    · rfl

theorem assemble?_eq (h : ∀ i < p.total, i ∈ p.parts) : assemble? p = some (assemble p) := by
  rw [assemble?, mapM_lookup [] fun i hi => h i (List.mem_range.mp hi), assemble, List.flatMap_def]
  rfl

theorem store?_eq (h : Inv r) (hp : r.buffers.lookup c.fragmentId = some p)
    (htotal : p.total = c.total) (hseq : c.seq < c.total) :
    r.store? c = some (r.store c) := by
  have hok := h.partials _ _ hp
  have hle := size_le_bytes h.bytes hp
  have hsub : checkedSub (r.bytes + c.data.length) (addTo p c).size =
      some (r.bytes + c.data.length - (addTo p c).size) :=
    checkedSub_of_le (Nat.add_le_add_right hle _)
  by_cases hlast : (addTo p c).parts.entries.length = p.total
  · have hall := mem_parts_of_full hlast (below_addTo hok.below (htotal ▸ hseq))
    rw [store_of_full hp hlast, store?, hp]
    refine (if_neg (not_not.mpr hlast)).trans ?_
    show ((checkedSub (r.bytes + c.data.length) (addTo p c).size).bind fun bytes =>
      (assemble? (addTo p c)).map fun out =>
        ({ r with buffers := r.buffers.erase c.fragmentId, bytes := bytes }, some out)) = _
    rw [hsub, Option.bind_some, assemble?_eq hall]
    rfl
  · rw [store_of_lacks hp hlast, store?, hp]
    exact if_pos hlast

theorem accept?_eq (h : Inv r) (hc : Missing r c) (hfuel : r.pending < fuel) :
    r.accept? fuel c now = some (r.accept c now) := by
  have hstore : ∀ s : Reassembler, Inv s → Missing s c →
      (s.openPartial? c now).bind (fun s => s.store? c) =
        some ((s.openPartial c now).store c) := by
    intro s hs hc
    obtain ⟨hinv, -, -, p, hp, htotal, -⟩ := hs.openPartial hc now
    rw [openPartial?_eq hs, Option.bind_some, store?_eq hinv hp htotal hc.below]
  rw [accept?, accept]
  split
  · rfl
  · cases hmax : r.maxBufferedBytes with
    | none => exact hstore r h hc
    | some m =>
      dsimp only
      split
      · rfl
      · have hsucc : r.pending < r.buffers.entries.length + 1 := Nat.lt_succ_self _
        rw [makeRoom?_eq fuel (r.buffers.entries.length + 1) h.bytes hfuel hsucc,
          Option.bind_some]
        rcases h.makeRoom (n := c.data.length) (m := m) hc.alive hsucc now with
          ⟨hflag, hpressed, -⟩ | ⟨r', -, -, -, heq⟩
        · rw [if_pos hflag, if_pos hflag]
          exact hstore _ hpressed.inv (hc.pressed hpressed)
        · rw [heq]
          rfl

theorem pending_gc_le : (r.gc now).pending ≤ r.pending := by
  have hfold : ∀ (l : List FragmentId) (s : Reassembler),
      (l.foldl dropPartial s).pending ≤ s.pending := by
    intro l
    induction l with
    | nil => exact fun s => le_rfl
    | cons g l ih => exact fun s => le_trans (ih _) pending_dropPartial_le
  exact hfold _ (r.expired now)

theorem reset?_eq (h : Inv (r.gc now)) :
    (r.gc now).reset? c =
      some (r.settled c now, ((r.settled c now).buffers.lookup c.fragmentId).isSome) := by
  unfold reset? settled
  cases hp : (r.gc now).buffers.lookup c.fragmentId with
  | none =>
    rw [hp]
    rfl
  | some p =>
    dsimp only
    split
    · rw [dropPartial?_eq h.bytes, dropPartial_lookup, if_pos rfl]
      rfl
    · rw [hp]
      rfl

/-- In a state with the invariant a call comes back, with the answer of `feed`. -/
theorem feed?_eq (h : Inv r) (chunk : Bytes) (hfuel : r.pending < fuel) :
    r.feed? fuel chunk now = some (r.feed chunk now) := by
  cases hparse : parseChunk chunk with
  | none => rw [feed?, feed, hparse]
  | some c =>
    by_cases hmax : c.total ≤ r.maxFragments
    · obtain ⟨hgc, -⟩ := h.gc now
      by_cases hfid : c.fragmentId ∈ (r.gc now).evicted
      · rw [feed?, feed, hparse]
        simp only [if_neg (not_lt.mpr hmax), gc?_eq h, Option.bind_some, if_pos hfid]
      · obtain ⟨hinv, -, hevicted, htotal⟩ := h.settled c now
        have hpending : (r.settled c now).pending < fuel := by
          have hle : (r.gc now).pending ≤ r.pending := pending_gc_le
          have hle' : (r.settled c now).pending ≤ (r.gc now).pending := by
            unfold settled
            split
            · split
              · exact pending_dropPartial_le
              · exact le_rfl
            · exact le_rfl
          omega
        rw [feed_eq hparse hmax hfid, feed?, hparse]
        simp only [if_neg (not_lt.mpr hmax), gc?_eq h, Option.bind_some, if_neg hfid,
          reset?_eq hgc]
        rw [← hevicted] at hfid
        generalize r.settled c now = s at hinv htotal hfid hpending ⊢
        have hlt := parseChunk_lt hparse
        cases hp : s.buffers.lookup c.fragmentId with
        | none =>
          simp only [Option.isSome_none, Bool.false_eq_true, if_false]
          split
          · rfl
          · refine accept?_eq hinv ⟨by omega, hlt, hfid, fun p hp' => ?_⟩ hpending
            rw [hp] at hp'
            simp at hp'
        | some p =>
          simp only [Option.isSome_some, if_true]
          split
          · rfl
          · next hnew =>
            have htwo : 2 ≤ c.total := htotal p hp ▸ (hinv.partials _ p hp).several
            refine accept?_eq hinv ⟨htwo, hlt, hfid, fun q hq => ?_⟩ hpending
            rw [hp] at hq
            cases hq
            exact ⟨htotal p hp, hnew⟩
    · rw [feed?, feed, hparse]
      simp only [if_pos (Nat.lt_of_not_le hmax)]

/-! ## Every sequence of calls -/

theorem Inv.replay : ∀ (feeds : List (Bytes × Nat)) {r : Reassembler}, Inv r →
    Inv (r.replay feeds).1 ∧ SameLimits r (r.replay feeds).1 := by
  intro feeds
  induction feeds with
  | nil => exact fun h => ⟨h, .refl _⟩
  | cons e feeds ih =>
    obtain ⟨chunk, now⟩ := e
    intro r h
    obtain ⟨hinv, hlimits⟩ := h.feed chunk now
    obtain ⟨hinv', hlimits'⟩ := ih hinv
    exact ⟨hinv', hlimits.trans hlimits'⟩

/-- Whatever byte strings a reassembler is fed and whatever the clock reads: its counter holds the
bytes of all parts that are buffered and stays within the budget; there are no more partials than
the limit, each of several parts with one missing and none beyond its total; an evicted id has no
partial, and the at most 1024 of them are queued once each; and the next call returns, whatever it
is fed, with an eviction loop of at most one pass more than there are partials. -/
theorem resources_bounded (limit maxFragments maxChunkPayload : Nat) (budget : Option Nat)
    (timeout : Nat) (feeds : List (Bytes × Nat)) :
    ∃ r, r = ((configured limit maxFragments maxChunkPayload budget timeout).replay feeds).1 ∧
      r.bufferedBytes = (r.buffers.entries.map fun (e : Σ _ : FragmentId, Partial) =>
        (e.2.parts.entries.map fun part => part.2.length).sum).sum ∧
      (∀ m, budget = some m → r.bufferedBytes ≤ m) ∧
      r.pending ≤ max limit 1 ∧
      (∀ fid p, r.buffers.lookup fid = some p →
        2 ≤ p.total ∧ p.parts.entries.length < p.total ∧ ∀ i ∈ p.parts, i < p.total) ∧
      (∀ fid ∈ r.buffers, fid ∉ r.evicted) ∧
      r.evicted.entries.length ≤ 1024 ∧
      (r.evictedOrder.map Prod.fst).Nodup ∧
      (∀ fid time, (fid, time) ∈ r.evictedOrder ↔ r.evicted.lookup fid = some time) ∧
      ∀ chunk now fuel, r.pending < fuel → r.feed? fuel chunk now = some (r.feed chunk now) := by
  obtain ⟨h, hlimits⟩ :=
    (inv_configured limit maxFragments maxChunkPayload budget timeout).replay feeds
  refine ⟨_, rfl, h.bytes_eq, fun m hm => h.budget m (hlimits.maxBufferedBytes.trans hm),
    h.pending.trans (le_of_eq hlimits.limit), fun fid p hp => ?_, h.apart, h.memory, h.queue.nodup,
    h.queue.mem_iff, fun chunk now fuel hfuel => feed?_eq h chunk hfuel⟩
  have hok := h.partials fid p hp
  exact ⟨hok.several, hok.lacks, hok.below⟩

/-- The id of sixteen equal bytes. -/
def fidOf (b : UInt8) : FragmentId := ⟨List.replicate 16 b, rfl⟩

/-- Chunks of three messages, the last with a total that changes, into a budget of six bytes. -/
def pressedFeeds : List (Bytes × Nat) :=
  [(packChunk (fidOf 1) 0 2 [1, 2, 3], 0), (packChunk (fidOf 2) 1 3 [4, 5], 1),
    (packChunk (fidOf 3) 0 2 [6, 7, 8], 2), (packChunk (fidOf 3) 0 4 [9], 3)]

/-- One of the three has been evicted, and a fourth call with any string returns. -/
theorem resources_bounded_pressed :
    ∃ r, r = ((configured 2 16 8 (some 6) 100).replay pressedFeeds).1 ∧
      r.evicted.entries.length = 1 ∧ r.bufferedBytes ≤ 6 ∧ r.pending ≤ 2 ∧
      r.feed? 3 [1] 4 = some (r.feed [1] 4) := by
  obtain ⟨r, hr, -, hbytes, hpending, -, -, -, -, -, hfeed⟩ :=
    resources_bounded 2 16 8 (some 6) 100 pressedFeeds
  refine ⟨r, hr, ?_, hbytes 6 rfl, hpending, hfeed [1] 4 3 (Nat.lt_succ_of_le hpending)⟩
  rw [hr]
  decide +kernel

end Telesthete.Wire.Reassembler
