import Mathlib.Algebra.Ring.Nat
import Telesthete.Proofs.ReassemblerPanics
import Telesthete.Proofs.ReassemblerTracks

/-!
# Reassembly under memory pressure

More messages arrive interleaved than the budget holds, and some have to go. An
eviction happens when the buffers are full, by bytes or by slots, so that at that
moment many other messages are under assembly: with messages of at most `S` bytes
under a budget `M`, at least `M / S` counting the one that needs the room. What
this takes to turn into a bound on returned messages is that dead messages never
displace live ones. The id of an evicted message is remembered, its later chunks
bounce off, and so the number of messages returned or under assembly stays at or
above the bound from the first eviction on.
-/

namespace Telesthete.Wire

open Telesthete.Lib List

namespace Reassembler

variable {r₀ r s : Reassembler} {msgs : List Outgoing} {fed : List Bytes} {m : Outgoing}
  {fid g : FragmentId} {k now M S : Nat}

/-! ## Evictions -/

/-- With no more messages than remembered ids, an eviction is never forgotten. -/
theorem Tracks.evict (hmany : msgs.length ≤ defaultEvictedMemory) (h : Tracks r₀ msgs r fed)
    (hg : g ∈ r.buffers) (now : Nat) :
    Tracks r₀ msgs (r.evict g now) fed ∧
      ∀ fid, fid ∈ (r.evict g now).evicted ↔ fid = g ∨ fid ∈ r.evicted := by
  have hapart := h.inv.apart g hg
  obtain ⟨hqueue, horder⟩ := evictedOrder_evict h.inv.queue hapart now
  have hall : ∀ fid ∈ g :: r.evictedOrder.map Prod.fst, fid ∈ msgs.map Outgoing.fid := by
    intro fid hfid
    rw [mem_cons, h.inv.queue.mem_fst] at hfid
    obtain ⟨m, hm, rfl⟩ := h.known fid (hfid.imp (fun heq : fid = g => heq ▸ hg) id)
    exact mem_map_of_mem hm
  have hnodup : (g :: r.evictedOrder.map Prod.fst).Nodup :=
    nodup_cons.mpr ⟨fun hmem => hapart (h.inv.queue.mem_fst.mp hmem), h.inv.queue.nodup⟩
  have hlen := (subperm_of_subset hnodup hall).length_le
  rw [length_cons, length_map, length_map] at hlen
  rw [show r.evictedOrder.length + 1 - defaultEvictedMemory = 0 by omega, drop_zero] at horder
  have hmem : ∀ fid, fid ∈ (r.evict g now).evicted ↔ fid = g ∨ fid ∈ r.evicted := by
    intro fid
    rw [← hqueue.mem_fst, horder, map_append, mem_append, h.inv.queue.mem_fst, or_comm,
      map_singleton, mem_singleton]
  refine ⟨⟨h.inv.evict hapart now, h.limits.trans (sameLimits_evict r g now), fun fid hfid => ?_,
    fun m hm halive hw => ?_, fun m hm hw hin => ?_⟩, hmem⟩
  · rw [hmem, mem_evict] at hfid
    rcases hfid with ⟨-, hfid⟩ | rfl | hfid
    · exact h.known fid (.inl hfid)
    · exact h.known fid (.inl hg)
    · exact h.known fid (.inr hfid)
  · rw [hmem, not_or] at halive
    rw [evict_lookup, if_neg halive.1]
    exact h.held m hm halive.2 hw
  · exact h.idle m hm hw (mem_evict.mp hin).2

/-- The partials of other messages. -/
def others (r : Reassembler) (fid : FragmentId) : Nat := (r.dropPartial fid).pending

theorem others_congr (h : ∀ g, g ≠ fid → s.buffers.lookup g = r.buffers.lookup g) :
    s.others fid = r.others fid := by
  have hiff : ∀ g, g ∈ (s.dropPartial fid).buffers ↔ g ∈ (r.dropPartial fid).buffers := by
    intro g
    rw [mem_dropPartial, mem_dropPartial]
    refine and_congr_right fun hne => ?_
    rw [mem_buffers_iff, mem_buffers_iff, h g hne]
  exact le_antisymm (length_entries_le fun g hg => (hiff g).mp hg)
    (length_entries_le fun g hg => (hiff g).mpr hg)

theorem others_of_mem (h : fid ∈ r.buffers) : r.others fid + 1 = r.pending := pending_dropPartial h

theorem others_of_notMem (h : fid ∉ r.buffers) : r.others fid = r.pending := by
  rw [others, dropPartial_of_none (AList.lookup_eq_none.mpr h)]

theorem pending_le_others (r : Reassembler) (fid : FragmentId) : r.pending ≤ r.others fid + 1 := by
  by_cases h : fid ∈ r.buffers
  · rw [others_of_mem h]
  · rw [others_of_notMem h]
    exact Nat.le_succ _

theorem others_evict (hg : g ∈ r.buffers) (hne : g ≠ fid) :
    (r.evict g now).others fid + 1 = r.others fid := by
  have hpending : (r.evict g now).pending + 1 = r.pending := pending_evict hg
  by_cases h : fid ∈ r.buffers
  · have h' : fid ∈ (r.evict g now).buffers := mem_evict.mpr ⟨fun heq => hne heq.symm, h⟩
    have := others_of_mem h
    have := others_of_mem h'
    omega
  · have h' : fid ∉ (r.evict g now).buffers := fun hmem => h (mem_evict.mp hmem).2
    rw [others_of_notMem h, others_of_notMem h', hpending]

theorem others_of_oldest_none (h : r.oldest (some fid) = none) : r.others fid = 0 := by
  refine Nat.eq_zero_of_not_pos fun hpos => ?_
  obtain ⟨e, he⟩ := exists_mem_of_length_pos hpos
  obtain ⟨hne, hmem⟩ := mem_dropPartial.mp (mem_of_mem_entries he)
  obtain ⟨victim, hvictim⟩ := exists_oldest (some fid) hmem fun heq => hne (Option.some.inj heq)
  rw [h] at hvictim
  simp at hvictim

/-! ## The counting argument -/

/-- Messages of at most `S` bytes fill the buffer only if there are enough of them. -/
theorem Tracks.bytes_le (hbatch : Batch r₀ msgs) (hsize : ∀ m ∈ msgs, m.payload.length ≤ S)
    (h : Tracks r₀ msgs r fed) (hm : m ∈ msgs) (hk : k < m.parts.length) (hnew : m.chunk k ∉ fed) :
    r.bytes + (m.part k).length ≤ (r.others m.fid + 1) * S := by
  have hone : ∀ fid q, r.buffers.lookup fid = some q → partBytes q ≤ S := by
    intro fid q hq
    obtain ⟨m', hm', rfl⟩ := h.known fid (.inl (mem_of_lookup hq))
    rw [(h.holds hm' hq).partBytes_eq (hbatch.accepted m' hm')]
    exact le_trans (Outgoing.dataBytes_received_le (hbatch.accepted m' hm')) (hsize m' hm')
  have hrest : (r.dropPartial m.fid).bytes ≤ r.others m.fid * S := by
    rw [(h.inv.dropPartial m.fid).bytes_eq]
    have hsum := sum_le_card_nsmul
      ((r.dropPartial m.fid).buffers.entries.map
        fun (e : Σ _ : FragmentId, Partial) => partBytes e.2) S fun x hx => by
      obtain ⟨e, he, rfl⟩ := mem_map.mp hx
      have hlookup := AList.mem_lookup_iff.mpr he
      rw [Option.mem_def, dropPartial_lookup] at hlookup
      exact hone e.1 e.2 (Option.ite_none_left_eq_some.mp hlookup).2
    rwa [length_map, nsmul_eq_mul] at hsum
  have hown : r.bytes + (m.part k).length ≤ (r.dropPartial m.fid).bytes + S := by
    have hmine : dataBytes (m.received (fed ++ [m.chunk k])) ≤ m.payload.length :=
      Outgoing.dataBytes_received_le (hbatch.accepted m hm)
    rw [Outgoing.dataBytes_received_add (hbatch.accepted m hm) hk hnew] at hmine
    have hle := hsize m hm
    cases hq : r.buffers.lookup m.fid with
    | none =>
      rw [dropPartial_of_none hq]
      omega
    | some q =>
      have hparts := (h.holds hm hq).partBytes_eq (hbatch.accepted m hm)
      have hok := (h.inv.partials _ _ hq).size
      rw [dropPartial_of_some hq]
      show _ ≤ r.bytes - q.size + S
      omega
  calc r.bytes + (m.part k).length ≤ r.others m.fid * S + S := by omega
    _ = (r.others m.fid + 1) * S := (Nat.succ_mul _ _).symm

/-- Why a feed evicts: the chunk does not fit, or every slot is taken. -/
def Full (r : Reassembler) (M n : Nat) : Prop := M < r.bufferedBytes + n ∨ r.limit ≤ r.pending

/-- What making room for a chunk of `m` has done to `r`: other messages may be gone, but then many
are left. -/
structure Squeezed (r₀ : Reassembler) (msgs : List Outgoing) (fed : List Bytes) (M S n : Nat)
    (fid : FragmentId) (r s : Reassembler) : Prop where
  tracks : Tracks r₀ msgs s fed
  alive : fid ∉ s.evicted
  own : s.buffers.lookup fid = r.buffers.lookup fid
  pending : s.pending ≤ r.pending
  kept : ∀ g ∈ r.evicted, g ∈ s.evicted
  fresh : ∀ g ∈ s.evicted, g ∉ r.evicted → g ∈ r.buffers ∧ g ≠ fid
  sub : ∀ g ∈ s.buffers, g ∈ r.buffers
  left : s = r ∨ (r.Full M n ∧ min (M / S) r₀.limit ≤ s.others fid + 1)

theorem Squeezed.refl {n : Nat} (h : Tracks r₀ msgs r fed) (halive : fid ∉ r.evicted) :
    Squeezed r₀ msgs fed M S n fid r r where
  tracks := h
  alive := halive
  own := rfl
  pending := le_rfl
  kept := fun _ hg => hg
  fresh := fun _ hg hnot => absurd hg hnot
  sub := fun _ hg => hg
  left := .inl rfl

/-- Evicting one more, when the buffers are full. -/
theorem Squeezed.evict {n : Nat} (hmany : msgs.length ≤ defaultEvictedMemory)
    (h : Squeezed r₀ msgs fed M S n fid r s) (hg : g ∈ s.buffers) (hne : g ≠ fid)
    (hfull : r.Full M n) (hleft : min (M / S) r₀.limit ≤ s.others fid) (now : Nat) :
    Squeezed r₀ msgs fed M S n fid r (s.evict g now) := by
  obtain ⟨htracks, hmem⟩ := h.tracks.evict hmany hg now
  have hpending : (s.evict g now).pending + 1 = s.pending := pending_evict hg
  refine ⟨htracks, fun hin => ?_, ?_, ?_, fun g' hg' => (hmem g').mpr (.inr (h.kept g' hg')),
    fun g' hg' hnot => ?_, fun g' hg' => h.sub g' (mem_evict.mp hg').2, .inr ⟨hfull, ?_⟩⟩
  · exact ((hmem fid).mp hin).elim (fun heq => hne heq.symm) h.alive
  · rw [evict_lookup, if_neg fun heq => hne heq.symm, h.own]
  · have := h.pending
    omega
  · rcases (hmem g').mp hg' with rfl | hg'
    · exact ⟨h.sub _ hg, hne⟩
    · exact h.fresh g' hg' hnot
  · rw [others_evict hg hne]
    exact hleft

/-- Opening goes on from a state with a slot to spare. -/
theorem Squeezed.slot {n : Nat} (hmany : msgs.length ≤ defaultEvictedMemory)
    (hlimits : SameLimits r₀ r) (hs : Squeezed r₀ msgs fed M S n m.fid r s) (now : Nat) :
    ∃ s', Squeezed r₀ msgs fed M S n m.fid r s' ∧ s'.bytes ≤ s.bytes ∧
      (m.fid ∈ s'.buffers ∨ s'.pending < s'.limit) ∧
      s.openPartial (m.parsed k) now = s'.openPartial (m.parsed k) now := by
  by_cases hmem : m.fid ∈ s.buffers
  · exact ⟨s, hs, le_rfl, .inl hmem, rfl⟩
  · have hlimit := hs.tracks.inv.pending
    rcases slot_cases hs.tracks.inv.limit now with ⟨hlt, -⟩ | ⟨victim, hge, hvictim, -, hslot⟩
    · exact ⟨s, hs, le_rfl, .inr hlt, rfl⟩
    · have hne : victim ≠ m.fid := fun heq => hmem (heq ▸ hvictim)
      have hpending : (s.evict victim now).pending + 1 = s.pending := pending_evict hvictim
      have hsame := sameLimits_evict s victim now
      have hroom : (s.evict victim now).pending < (s.evict victim now).limit := by
        rw [hsame.limit]
        omega
      have hnot : m.fid ∉ (s.evict victim now).buffers := fun hin => hmem (mem_evict.mp hin).2
      refine ⟨s.evict victim now, hs.evict hmany hvictim hne (.inr ?_) ?_ now, bytes_evict_le,
        .inr hroom, ?_⟩
      · have hle := hs.pending
        rw [← hlimits.limit.trans hs.tracks.limits.limit.symm] at hge
        omega
      · rw [others_of_notMem hmem, ← hs.tracks.limits.limit]
        exact le_trans (Nat.min_le_right _ _) hge
      · have hstays : (s.evict victim now).slot now = s.evict victim now :=
          if_neg (not_le.mpr hroom)
        rw [openPartial_of_notMem hmem, openPartial_of_notMem hnot, hslot, hstays]

section Press

variable (hbatch : Batch r₀ msgs) (hmany : msgs.length ≤ defaultEvictedMemory)
  (hS : 0 < S) (hsize : ∀ m ∈ msgs, m.payload.length ≤ S) (hSM : S ≤ M)
  (h : Tracks r₀ msgs r fed) (hm : m ∈ msgs) (hk : k < m.parts.length) (hnew : m.chunk k ∉ fed)
include hbatch hmany hS hsize hSM h hm hk hnew

/-- The budget loop never takes the message it works for. -/
theorem Tracks.makeRoom (halive : m.fid ∉ r.evicted) (now : Nat) {fuel : Nat} (hfuel : r.pending < fuel) :
    (makeRoom m.fid (m.part k).length M now fuel r).2 = true ∧
      Squeezed r₀ msgs fed M S (m.part k).length m.fid r
        (makeRoom m.fid (m.part k).length M now fuel r).1 ∧
      (makeRoom m.fid (m.part k).length M now fuel r).1.bytes + (m.part k).length ≤ M := by
  have hbound : ∀ s, Squeezed r₀ msgs fed M S (m.part k).length m.fid r s ∧ s.bytes ≤ r.bytes →
      M < s.bytes + (m.part k).length → M / S ≤ s.others m.fid := by
    rintro s ⟨hs, -⟩ hover
    have hle := hs.tracks.bytes_le hbatch hsize hm hk hnew
    have hlt : M / S < s.others m.fid + 1 := (Nat.div_lt_iff_lt_mul hS).mpr (by omega)
    omega
  have hrule := makeRoom_rule (m := M) (n := (m.part k).length)
    (P := fun s => Squeezed r₀ msgs fed M S (m.part k).length m.fid r s ∧ s.bytes ≤ r.bytes)
    (fun s victim hs hover hold => by
      obtain ⟨hmem, hne⟩ := oldest_some hold
      refine ⟨hs.1.evict hmany hmem (fun heq => hne (by rw [heq])) (.inl ?_) ?_ now,
        le_trans bytes_evict_le hs.2⟩
      · have hle := hs.2
        show M < r.bytes + _
        omega
      · exact le_trans (Nat.min_le_left _ _) (hbound s hs hover))
    fuel r ⟨.refl h halive, le_rfl⟩ hfuel
  rcases hrule with ⟨hflag, hs, hroom⟩ | ⟨s, hs, hover, hold, -⟩
  · exact ⟨hflag, hs.1, hroom⟩
  · -- alone in the buffer, the message fits
    have hpos : 0 < M / S := Nat.div_pos hSM hS
    have hle := hbound s hs hover
    rw [others_of_oldest_none hold] at hle
    omega

/-- What a feed of a chunk of `m` comes to. -/
structure Outcome (r₀ : Reassembler) (msgs : List Outgoing) (fed : List Bytes) (M S : Nat)
    (m : Outgoing) (b : Bytes) (r r' : Reassembler) (answer : Option Bytes) : Prop where
  tracks : Tracks r₀ msgs r' (fed ++ [b])
  returned : answer =
    if m.fid ∉ r.evicted ∧ m.Complete (fed ++ [b]) then some m.payload else none
  kept : ∀ g ∈ r.evicted, g ∈ r'.evicted
  fresh : ∀ g ∈ r'.evicted, g ∉ r.evicted →
    g ∈ r.buffers ∧ g ≠ m.fid ∧ r.Full M (chunkData b).length
  /-- Either nobody is lost, or enough messages are left. -/
  left : ((∀ g ∈ r'.evicted, g ∈ r.evicted) ∧ r.pending ≤ r'.pending + answer.toList.length) ∨
    min (M / S) r₀.limit ≤ r'.pending + answer.toList.length

/-- The chunk of a message that is under assembly or has not begun. -/
theorem Tracks.accept_pressed (halive : m.fid ∉ r.evicted) (hseveral : 2 ≤ m.parts.length)
    (hbudget : r₀.maxBufferedBytes = some M) (now : Nat) :
    Outcome r₀ msgs fed M S m (m.chunk k) r (r.accept (m.parsed k) now).1
      (r.accept (m.parsed k) now).2 := by
  have haccepted := hbatch.accepted m hm
  have hchunk : m.chunk k ∈ m.chunks := (Outgoing.mem_chunks haccepted).mpr ⟨k, hk, rfl⟩
  have hfits : (m.parsed k).data.length ≤ r.maxChunkPayload := by
    rw [h.limits.maxChunkPayload]
    show (m.part k).length ≤ _
    rw [← Outgoing.chunkData_chunk]
    exact hbatch.sizes m hm _ hchunk
  have hwhole : ¬ (m.parsed k).data.length > M := by
    have hpart : (m.part k).length ≤ m.payload.length := by
      have hadd := Outgoing.dataBytes_received_add haccepted hk hnew
      have hle : dataBytes (m.received (fed ++ [m.chunk k])) ≤ m.payload.length :=
        Outgoing.dataBytes_received_le haccepted
      omega
    have hle := hsize m hm
    show ¬ (m.part k).length > M
    omega
  obtain ⟨hflag, hs, hroom⟩ := h.makeRoom hbatch hmany hS hsize hSM hm hk hnew halive now
    (Nat.lt_succ_self r.buffers.entries.length)
  obtain ⟨s, hsqueezed, hbytes, hslot, hopen⟩ := hs.slot (k := k) hmany h.limits now
  have haccept : r.accept (m.parsed k) now = (s.openPartial (m.parsed k) now).store (m.parsed k) := by
    rw [accept, if_neg (not_lt.mpr hfits), h.limits.maxBufferedBytes, hbudget]
    dsimp only
    rw [if_neg hwhole, if_pos (show (Reassembler.makeRoom (m.parsed k).fragmentId
      (m.parsed k).data.length M now (r.buffers.entries.length + 1) r).2 = true from hflag)]
    exact congrArg (·.store (m.parsed k)) hopen
  obtain ⟨htracks, hanswer, hevicted, hothers⟩ := hsqueezed.tracks.place hbatch hm hk hnew hseveral
    hsqueezed.alive (fun M' hM' => by
      rw [hsqueezed.tracks.limits.maxBufferedBytes, hbudget] at hM'
      cases hM'
      omega) hslot now
  rw [← haccept] at htracks hanswer hevicted hothers
  generalize r.accept (m.parsed k) now = out at htracks hanswer hevicted hothers ⊢
  have hcount : out.1.pending + out.2.toList.length = s.others m.fid + 1 := by
    rw [← others_congr hothers, hanswer]
    by_cases hlast : m.Complete (fed ++ [m.chunk k])
    · rw [if_pos hlast, others_of_notMem (htracks.idle m hm fun hw => hw.2 hlast)]
      rfl
    · have hwaits : m.Waiting (fed ++ [m.chunk k]) :=
        ⟨⟨_, hchunk, mem_append_right _ mem_cons_self⟩, hlast⟩
      obtain ⟨q, hq, -⟩ := htracks.held m hm (hevicted ▸ hsqueezed.alive) hwaits
      rw [if_neg hlast, others_of_mem (mem_of_lookup hq)]
      rfl
  refine ⟨htracks, ?_, fun g hg => hevicted ▸ hsqueezed.kept g hg, fun g hg hnot => ?_, ?_⟩
  · rw [hanswer]
    exact if_congr (and_iff_right halive).symm rfl rfl
  · rw [hevicted] at hg
    obtain ⟨hbuffered, hne⟩ := hsqueezed.fresh g hg hnot
    refine ⟨hbuffered, hne, ?_⟩
    rw [Outgoing.chunkData_chunk]
    rcases hsqueezed.left with rfl | ⟨hfull, -⟩
    · exact absurd hg hnot
    · exact hfull
  · rw [hcount, hevicted]
    rcases hsqueezed.left with rfl | ⟨-, hleft⟩
    · exact .inl ⟨fun _ hg => hg, pending_le_others s m.fid⟩
    · exact .inr hleft

/-- One feed. The chunks of a message that was evicted change nothing. -/
theorem Tracks.feed_pressed (hbudget : r₀.maxBufferedBytes = some M) (hclock : r.Unexpired now) :
    Outcome r₀ msgs fed M S m (m.chunk k) r (r.feed (m.chunk k) now).1
      (r.feed (m.chunk k) now).2 := by
  have haccepted := hbatch.accepted m hm
  have hchunk : m.chunk k ∈ m.chunks := (Outgoing.mem_chunks haccepted).mpr ⟨k, hk, rfl⟩
  by_cases hgone : m.fid ∈ r.evicted
  · have hnot : m.fid ∉ r.buffers := fun hmem => h.inv.apart _ hmem hgone
    rw [feed_of_evicted hbatch hm hk hclock hgone]
    exact ⟨h.same hbatch hm hchunk (.inr ⟨hnot, .inl hgone⟩), (if_neg fun hc => hc.1 hgone).symm,
      fun _ hg => hg, fun _ hg hnew => absurd hg hnew,
      .inl ⟨fun _ hg => hg, Nat.le_add_right _ _⟩⟩
  · by_cases hone : m.parts.length = 1
    · have hdone : m.Complete (fed ++ [m.chunk k]) := Outgoing.complete_single haccepted hone hk
      rw [h.feed_single hbatch hm hk hclock hgone hone]
      exact ⟨h.same hbatch hm hchunk (.inr ⟨h.idle_single hbatch hm hone, .inr hdone⟩),
        (if_pos ⟨hgone, hdone⟩).symm, fun _ hg => hg, fun _ hg hnew => absurd hg hnew,
        .inl ⟨fun _ hg => hg, Nat.le_add_right _ _⟩⟩
    · have hseveral : 2 ≤ m.parts.length := by
        have := Outgoing.length_parts_pos haccepted
        omega
      rw [h.feed_new hbatch hm hk hclock hgone hnew hseveral]
      exact h.accept_pressed hbatch hmany hS hsize hSM hm hk hnew hgone hseveral hbudget now

end Press

/-! ## Whole runs -/

section Run

variable {feeds : List (Bytes × Nat)} {i : Nat}

/-- The `i`-th feed, of a chunk of another message, evicted `m` to make room. -/
def Displaced (r₀ : Reassembler) (feeds : List (Bytes × Nat)) (M : Nat) (m : Outgoing)
    (i : Nat) : Prop :=
  ∃ hi : i < feeds.length, feeds[i].1 ∉ m.chunks ∧
    m.fid ∈ (r₀.stateAt feeds i).buffers ∧ m.fid ∈ (r₀.stateAt feeds (i + 1)).evicted ∧
    (r₀.stateAt feeds i).Full M (chunkData feeds[i].1).length

/-- What has become of the messages after `i` feeds: those in `done` were returned. -/
structure Standing (r₀ : Reassembler) (msgs : List Outgoing) (feeds : List (Bytes × Nat)) (M S : Nat)
    (i : Nat) (done : List Outgoing) : Prop where
  tracks : Tracks r₀ msgs (r₀.stateAt feeds i) (fedBefore feeds i)
  returned : (r₀.replay (feeds.take i)).2 = done.map Outgoing.payload
  nodup : done.Nodup
  mem_done : ∀ m, m ∈ done ↔
    m ∈ msgs ∧ m.fid ∉ (r₀.stateAt feeds i).evicted ∧ m.Complete (fedBefore feeds i)
  enough : (∀ g, g ∉ (r₀.stateAt feeds i).evicted) ∨
    min (M / S) r₀.limit ≤ done.length + (r₀.stateAt feeds i).pending
  displaced : ∀ m ∈ msgs, m.fid ∈ (r₀.stateAt feeds i).evicted → ∃ j < i, Displaced r₀ feeds M m j

/-- All chunks of all messages, each once, with no timeout expiring. -/
structure Interleaving (r₀ : Reassembler) (msgs : List Outgoing) (feeds : List (Bytes × Nat)) :
    Prop where
  chunks : (feeds.map Prod.fst).Perm (msgs.flatMap Outgoing.chunks)
  prompt : ∀ i, (hi : i < feeds.length) → (r₀.stateAt feeds i).Unexpired feeds[i].2

theorem Batch.nodup_chunks (hbatch : Batch r₀ msgs) : (msgs.flatMap Outgoing.chunks).Nodup := by
  refine nodup_flatMap.mpr ⟨fun m hm => ?_, ?_⟩
  · have haccepted := hbatch.accepted m hm
    rw [Outgoing.chunks_eq haccepted]
    exact nodup_range.map_on fun j hj j' hj' heq => (Outgoing.chunk_inj haccepted haccepted
      (mem_range.mp hj) (mem_range.mp hj') heq).2
  · have hpairwise : msgs.Pairwise fun m m' => m.fid ≠ m'.fid := pairwise_map.mp hbatch.nodup
    refine hpairwise.imp_of_mem fun hm hm' hne b hb hb' => hne ?_
    rw [hbatch.eq_of_chunk hm hm' hb hb']

/-- The chunk of the `i`-th feed belongs to a message and has not been fed before. -/
theorem Interleaving.chunk (hbatch : Batch r₀ msgs) (h : Interleaving r₀ msgs feeds)
    (hi : i < feeds.length) :
    ∃ m ∈ msgs, ∃ k < m.parts.length, m.chunk k = feeds[i].1 ∧ m.chunk k ∉ fedBefore feeds i := by
  have hmem : feeds[i].1 ∈ msgs.flatMap Outgoing.chunks :=
    h.chunks.mem_iff.mp (mem_map_of_mem (getElem_mem hi))
  obtain ⟨m, hm, hchunk⟩ := mem_flatMap.mp hmem
  obtain ⟨k, hk, heq⟩ := (Outgoing.mem_chunks (hbatch.accepted m hm)).mp hchunk
  refine ⟨m, hm, k, hk, heq, fun hbefore => ?_⟩
  have hnodup : (fedBefore feeds (i + 1)).Nodup :=
    (h.chunks.nodup_iff.mpr hbatch.nodup_chunks).sublist ((take_sublist _ _).map _)
  rw [fedBefore_succ hi, ← heq] at hnodup
  exact (nodup_append.mp hnodup).2.2 _ hbefore _ mem_cons_self rfl

theorem standing_zero (h : Tracks r₀ msgs r₀ []) (hbatch : Batch r₀ msgs)
    (hevicted : r₀.evicted = ∅) : Standing r₀ msgs feeds M S 0 [] where
  tracks := h
  returned := rfl
  nodup := nodup_nil
  mem_done := fun m => by
    refine ⟨fun hmem => absurd hmem not_mem_nil, ?_⟩
    rintro ⟨hm, -, hc⟩
    have haccepted := hbatch.accepted m hm
    exact absurd (hc _ ((Outgoing.mem_chunks haccepted).mpr
      ⟨0, Outgoing.length_parts_pos haccepted, rfl⟩)) not_mem_nil
  enough := .inl fun g hg => AList.notMem_empty g (hevicted ▸ hg)
  displaced := fun m _ hmem => absurd (hevicted ▸ hmem) (AList.notMem_empty m.fid)

/-- One feed adds the message it completes to those that were returned. -/
theorem Standing.succ {done : List Outgoing} (hbatch : Batch r₀ msgs)
    (h : Standing r₀ msgs feeds M S i done) (hi : i < feeds.length) (hm : m ∈ msgs)
    (hk : k < m.parts.length) (heq : m.chunk k = feeds[i].1)
    (hnew : m.chunk k ∉ fedBefore feeds i)
    (hout : Outcome r₀ msgs (fedBefore feeds i) M S m feeds[i].1 (r₀.stateAt feeds i)
      (r₀.stateAt feeds (i + 1)) (r₀.answerAt feeds i)) :
    ∃ done', Standing r₀ msgs feeds M S (i + 1) done' := by
  have hchunk : feeds[i].1 ∈ m.chunks :=
    (Outgoing.mem_chunks (hbatch.accepted m hm)).mpr ⟨k, hk, heq⟩
  have hbefore : ¬ m.Complete (fedBefore feeds i) := fun hc => hnew (heq ▸ hc _ hchunk)
  have hsucc := fedBefore_succ hi
  obtain ⟨htracks, hanswer, hkept, hfresh, hleft⟩ := hout
  rw [← hsucc] at htracks hanswer
  have hdisplaced : ∀ m' ∈ msgs, m'.fid ∈ (r₀.stateAt feeds (i + 1)).evicted →
      ∃ j < i + 1, Displaced r₀ feeds M m' j := by
    intro m' hm' hmem
    by_cases hold : m'.fid ∈ (r₀.stateAt feeds i).evicted
    · obtain ⟨j, hj, hd⟩ := h.displaced m' hm' hold
      exact ⟨j, Nat.lt_succ_of_lt hj, hd⟩
    · obtain ⟨hbuffered, hne, hfull⟩ := hfresh _ hmem hold
      refine ⟨i, Nat.lt_succ_self i, hi, fun hb => hne ?_, hbuffered, hmem, hfull⟩
      rw [hbatch.eq_of_chunk hm' hm hb hchunk]
  -- nobody else changes sides: a complete message has no partial to lose
  have hothers : ∀ m' ∈ msgs, m' ≠ m →
      ((m'.fid ∉ (r₀.stateAt feeds (i + 1)).evicted ∧ m'.Complete (fedBefore feeds (i + 1))) ↔
        (m'.fid ∉ (r₀.stateAt feeds i).evicted ∧ m'.Complete (fedBefore feeds i))) := by
    intro m' hm' hne
    have hb : feeds[i].1 ∉ m'.chunks := fun hb => hne (hbatch.eq_of_chunk hm' hm hb hchunk)
    rw [hsucc, Outgoing.complete_append hb]
    refine and_congr_left fun hc => not_congr ⟨fun hmem => ?_, hkept _⟩
    by_contra hold
    exact h.tracks.idle m' hm' (fun hw => hw.2 hc) (hfresh _ hmem hold).1
  have hmine : m.fid ∉ (r₀.stateAt feeds i).evicted → m.fid ∉ (r₀.stateAt feeds (i + 1)).evicted :=
    fun hold hmem => (hfresh _ hmem hold).2.1 rfl
  -- the message this feed returns, if any
  obtain ⟨new, hpayload, hmem_new⟩ : ∃ new : List Outgoing,
      new.map Outgoing.payload = (r₀.answerAt feeds i).toList ∧ new.Nodup ∧
      ∀ m', m' ∈ new ↔ m' = m ∧ m.fid ∉ (r₀.stateAt feeds i).evicted ∧
        m.Complete (fedBefore feeds (i + 1)) := by
    by_cases hlast : m.fid ∉ (r₀.stateAt feeds i).evicted ∧ m.Complete (fedBefore feeds (i + 1))
    · refine ⟨[m], ?_, nodup_singleton m, fun m' => ?_⟩
      · rw [hanswer, if_pos hlast]
        rfl
      · rw [mem_singleton, and_iff_left hlast]
    · refine ⟨[], ?_, nodup_nil, fun m' => ?_⟩
      · rw [hanswer, if_neg hlast]
        rfl
      · exact iff_of_false not_mem_nil fun hc => hlast hc.2
  obtain ⟨hnodup, hmem_new⟩ := hmem_new
  rw [← hpayload, length_map] at hleft
  refine ⟨done ++ new, htracks, ?_, ?_, fun m' => ?_, ?_, hdisplaced⟩
  · rw [replay_take_succ hi, h.returned, ← hpayload, map_append]
  · refine h.nodup.append hnodup fun m' hmem hmem' => hbefore ?_
    rw [← ((hmem_new m').mp hmem').1]
    exact ((h.mem_done m').mp hmem).2.2
  · rw [mem_append, h.mem_done, hmem_new]
    by_cases hne : m' = m
    · subst hne
      constructor
      · rintro (⟨-, -, hc⟩ | ⟨-, halive, hc⟩)
        · exact absurd hc hbefore
        · exact ⟨hm, hmine halive, hc⟩
      · rintro ⟨-, halive, hc⟩
        exact .inr ⟨rfl, fun hold => halive (hkept _ hold), hc⟩
    · rw [or_iff_left fun hc => hne hc.1]
      exact and_congr_right fun hm' => (hothers m' hm' hne).symm
  · rw [length_append]
    rcases hleft with ⟨hsub, hle⟩ | hle
    · rcases h.enough with hnone | hge
      · exact .inl fun g hg => hnone g (hsub g hg)
      · exact .inr (by omega)
    · exact .inr (by omega)

/-- What is given of a run: the sizes of its messages against the budget. -/
structure Pressure (r₀ : Reassembler) (msgs : List Outgoing) (feeds : List (Bytes × Nat))
    (M S : Nat) : Prop where
  batch : Batch r₀ msgs
  many : msgs.length ≤ defaultEvictedMemory
  pos : 0 < S
  size : ∀ m ∈ msgs, m.payload.length ≤ S
  le : S ≤ M
  budget : r₀.maxBufferedBytes = some M
  feeds : Interleaving r₀ msgs feeds

theorem Pressure.outcome (h : Pressure r₀ msgs feeds M S) (hi : i < feeds.length)
    (htracks : Tracks r₀ msgs (r₀.stateAt feeds i) (fedBefore feeds i)) (hm : m ∈ msgs)
    (hk : k < m.parts.length) (heq : m.chunk k = feeds[i].1)
    (hnew : m.chunk k ∉ fedBefore feeds i) :
    Outcome r₀ msgs (fedBefore feeds i) M S m feeds[i].1 (r₀.stateAt feeds i)
      (r₀.stateAt feeds (i + 1)) (r₀.answerAt feeds i) := by
  rw [stateAt_succ hi, answerAt_eq hi, ← heq]
  exact htracks.feed_pressed h.batch h.many h.pos h.size h.le hm hk hnew h.budget
    (h.feeds.prompt i hi)

theorem Pressure.standing (h : Pressure r₀ msgs feeds M S) (hstart : Tracks r₀ msgs r₀ [])
    (hevicted : r₀.evicted = ∅) : ∀ i ≤ feeds.length,
    ∃ done, Standing r₀ msgs feeds M S i done := by
  intro i
  induction i with
  | zero => exact fun _ => ⟨[], standing_zero hstart h.batch hevicted⟩
  | succ i ih =>
    intro hi
    obtain ⟨done, hdone⟩ := ih (Nat.le_of_succ_le hi)
    obtain ⟨m, hm, k, hk, heq, hnew⟩ := h.feeds.chunk h.batch hi
    exact hdone.succ h.batch hi hm hk heq hnew (h.outcome hi hdone.tracks hm hk heq hnew)

/-- An evicted id stays remembered. -/
theorem Pressure.evicted_mono (h : Pressure r₀ msgs feeds M S) (hstart : Tracks r₀ msgs r₀ [])
    (hevicted : r₀.evicted = ∅) (hg : g ∈ (r₀.stateAt feeds i).evicted) : ∀ j ≤ feeds.length,
    i ≤ j → g ∈ (r₀.stateAt feeds j).evicted := by
  intro j
  induction j with
  | zero => exact fun _ hij => Nat.le_zero.mp hij ▸ hg
  | succ j ih =>
    intro hj hij
    rcases Nat.lt_or_eq_of_le hij with hlt | rfl
    · obtain ⟨done, hdone⟩ := h.standing hstart hevicted j (Nat.le_of_succ_le hj)
      obtain ⟨m, hm, k, hk, heq, hnew⟩ := h.feeds.chunk h.batch hj
      exact (h.outcome hj hdone.tracks hm hk heq hnew).kept g
        (ih (Nat.le_of_succ_le hj) (Nat.le_of_lt_succ hlt))
    · exact hg

/-- Reassembly under memory pressure: enough messages come back, each of them intact and once, and
one that does not was evicted to make room for another message, after which its chunks change
nothing. -/
theorem pressure_returns (limit maxFragments maxChunkPayload timeout M S : Nat)
    (msgs : List Outgoing) (feeds : List (Bytes × Nat))
    (h : Pressure (configured limit maxFragments maxChunkPayload (some M) timeout) msgs feeds M S) :
    let r₀ := configured limit maxFragments maxChunkPayload (some M) timeout
    (∃ done : List Outgoing, done.Nodup ∧ done ⊆ msgs ∧
      (r₀.replay feeds).2 = done.map Outgoing.payload ∧
      min (min msgs.length (M / S)) r₀.limit ≤ done.length ∧
      ∀ m ∈ msgs, m ∉ done → ∃ i, Displaced r₀ feeds M m i ∧
        ∀ j, (hj : j < feeds.length) → i < j → feeds[j].1 ∈ m.chunks →
          (r₀.stateAt feeds j).feed feeds[j].1 feeds[j].2 = (r₀.stateAt feeds j, none)) ∧
    ∀ i, (hi : i < feeds.length) → ∀ m ∈ msgs, feeds[i].1 ∈ m.chunks →
      ∀ x, r₀.answerAt feeds i = some x → x = m.payload := by
  intro r₀
  have hstart : Tracks r₀ msgs r₀ [] :=
    tracks_start (inv_configured limit maxFragments maxChunkPayload (some M) timeout) rfl rfl
  have hall : ∀ m ∈ msgs, m.Complete (fedBefore feeds feeds.length) := by
    intro m hm b hb
    rw [fedBefore_length]
    exact h.feeds.chunks.mem_iff.mpr (mem_flatMap.mpr ⟨m, hm, hb⟩)
  obtain ⟨done, hdone⟩ := h.standing hstart rfl feeds.length (le_rfl)
  refine ⟨⟨done, hdone.nodup, fun m hm => ((hdone.mem_done m).mp hm).1, ?_, ?_, ?_⟩, ?_⟩
  · rw [← hdone.returned, take_length]
  · have hpending : (r₀.stateAt feeds feeds.length).pending = 0 := by
      refine Nat.eq_zero_of_not_pos fun hpos => ?_
      obtain ⟨e, he⟩ := exists_mem_of_length_pos hpos
      have hmem := mem_of_mem_entries he
      obtain ⟨m, hm, hfid⟩ := hdone.tracks.known e.1 (.inl hmem)
      exact (hdone.tracks.waiting_of_mem hm (hfid ▸ hmem)).2 (hall m hm)
    rcases hdone.enough with hnone | hge
    · have hlen : msgs.length ≤ done.length := by
        refine (subperm_of_subset h.batch.nodup.of_map fun m hm => ?_).length_le
        exact (hdone.mem_done m).mpr ⟨hm, hnone _, hall m hm⟩
      omega
    · have hge : min (M / S) r₀.limit ≤ done.length + (r₀.stateAt feeds feeds.length).pending := hge
      omega
  · intro m hm hnot
    have hgone : m.fid ∈ (r₀.stateAt feeds feeds.length).evicted := by
      by_contra halive
      exact hnot ((hdone.mem_done m).mpr ⟨hm, halive, hall m hm⟩)
    obtain ⟨i, -, hdisplaced⟩ := hdone.displaced m hm hgone
    refine ⟨i, hdisplaced, fun j hj hij hchunk => ?_⟩
    obtain ⟨k, hk, heq⟩ := (Outgoing.mem_chunks (h.batch.accepted m hm)).mp hchunk
    obtain ⟨hi, -, -, hevicted, -⟩ := hdisplaced
    have hstays := h.evicted_mono hstart rfl hevicted j (le_of_lt hj) hij
    rw [← heq]
    exact feed_of_evicted h.batch hm hk (h.feeds.prompt j hj) hstays
  · intro i hi m hm hchunk x hx
    obtain ⟨done', hdone'⟩ := h.standing hstart rfl i (le_of_lt hi)
    obtain ⟨m', hm', k, hk, heq, hnew⟩ := h.feeds.chunk h.batch hi
    obtain rfl := h.batch.eq_of_chunk hm hm' hchunk
      ((Outgoing.mem_chunks (h.batch.accepted m' hm')).mpr ⟨k, hk, heq⟩)
    have hreturned := (h.outcome hi hdone'.tracks hm hk heq hnew).returned
    rw [hx, eq_comm, Option.ite_none_right_eq_some] at hreturned
    exact (Option.some.inj hreturned.2).symm

/-- Two messages of three bytes where four bytes fit. -/
def squeezedMsgs : List Outgoing := [⟨fidOf 1, [1, 2, 3], 2⟩, ⟨fidOf 2, [4, 5, 6], 2⟩]

/-- The third chunk needs the room the second one took. -/
def squeezedFeeds : List (Bytes × Nat) :=
  [(packChunk (fidOf 1) 0 2 [1, 2], 0), (packChunk (fidOf 2) 0 2 [4, 5], 1),
   (packChunk (fidOf 1) 1 2 [3], 2), (packChunk (fidOf 2) 1 2 [6], 3)]

theorem pressure_squeezed :
    Pressure (configured 256 16 8 (some 4) 30) squeezedMsgs squeezedFeeds 4 3 where
  batch :=
    { nodup := by decide
      accepted := fun m hm => ⟨by revert m; decide, by revert m; decide +kernel⟩
      fragments := by decide +kernel
      sizes := by decide +kernel }
  many := by decide
  pos := by decide
  size := by decide
  le := by decide
  budget := rfl
  feeds := { chunks := by decide +kernel, prompt := by decide +kernel }

theorem pressure_returns_squeezed :
    Pressure (configured 256 16 8 (some 4) 30) squeezedMsgs squeezedFeeds 4 3 ∧
      ∃ done : List Outgoing, 1 ≤ done.length ∧ done ⊆ squeezedMsgs ∧
        ((configured 256 16 8 (some 4) 30).replay squeezedFeeds).2 =
          done.map Outgoing.payload := by
  obtain ⟨⟨done, -, hsub, hreturned, hlen, -⟩, -⟩ :=
    pressure_returns 256 16 8 30 4 3 squeezedMsgs squeezedFeeds pressure_squeezed
  exact ⟨pressure_squeezed, done, hlen, hsub, hreturned⟩

end Run

end Reassembler

end Telesthete.Wire
