import Telesthete.Proofs.ReassemblerPanics
import Telesthete.Proofs.ReassemblerTracks

/-!
# Reassembly round trip

Fed with the chunks of any messages that `fragment` accepts at its chunk size, in
any interleaving and with repetitions, a reassembler returns every message at the
feed of its last missing chunk and nothing at any other feed.

The conditions are about the load, not the order: at most as many messages wait
as there are slots, and what is buffered stays within the budget. The second is
counted as the code counts it. The chunk at hand is added to the bytes of its
message before a message that is now complete leaves the buffer, so it counts
even when it is the last one; a message of one chunk is never buffered.
-/

namespace Telesthete.Wire

open Telesthete.Lib List

/-- What a message takes of the buffer when `b` has been added to what was fed and nothing has
left yet. -/
def Outgoing.buffered (m : Outgoing) (fed : List Bytes) (b : Bytes) : Nat :=
  if 2 ≤ m.chunks.length ∧ ¬ m.Complete fed then dataBytes (m.received (fed ++ [b])) else 0

/-- What a message takes of the buffer between feeds. -/
def Outgoing.load (m : Outgoing) (fed : List Bytes) : Nat :=
  if m.Waiting fed then dataBytes (m.received fed) else 0

namespace Reassembler

variable {r₀ r : Reassembler} {msgs : List Outgoing} {fed : List Bytes} {m : Outgoing}
  {k now : Nat}

/-! ## Counting -/

/-- While nothing has been evicted, there is a partial for each message that waits. -/
theorem Tracks.entries_perm (hbatch : Batch r₀ msgs) (h : Tracks r₀ msgs r fed)
    (hnone : ∀ fid, fid ∉ r.evicted) :
    r.buffers.entries.Perm ((msgs.filter (·.Waiting fed)).map fun m =>
      ⟨m.fid, (r.buffers.lookup m.fid).getD (opened 0 0 0)⟩) := by
  have hnodup : ((msgs.filter (·.Waiting fed)).map Outgoing.fid).Nodup :=
    hbatch.nodup.sublist (filter_sublist.map _)
  refine (perm_ext_iff_of_nodup r.buffers.nodupKeys.nodup ?_).mpr fun e => ?_
  · refine List.Nodup.of_map Sigma.fst ?_
    rwa [map_map]
  · obtain ⟨fid, q⟩ := e
    rw [← AList.mem_lookup_iff, Option.mem_def, mem_map]
    constructor
    · intro hq
      obtain ⟨m, hm, rfl⟩ := h.known fid (.inl (mem_of_lookup hq))
      have hw := h.waiting_of_mem hm (mem_of_lookup hq)
      exact ⟨m, mem_filter.mpr ⟨hm, decide_eq_true hw⟩, by rw [hq]; rfl⟩
    · rintro ⟨m, hmem, heq⟩
      obtain ⟨hm, hw⟩ := mem_filter.mp hmem
      obtain ⟨q', hq', -⟩ := h.held m hm (hnone _) (of_decide_eq_true hw)
      rw [hq'] at heq
      cases heq
      exact hq'

theorem Tracks.pending_eq (hbatch : Batch r₀ msgs) (h : Tracks r₀ msgs r fed)
    (hnone : ∀ fid, fid ∉ r.evicted) : r.pending = (msgs.filter (·.Waiting fed)).length := by
  rw [pending, (h.entries_perm hbatch hnone).length_eq, length_map]

theorem Tracks.bytes_eq (hbatch : Batch r₀ msgs) (h : Tracks r₀ msgs r fed)
    (hnone : ∀ fid, fid ∉ r.evicted) : r.bytes = (msgs.map (·.load fed)).sum := by
  rw [h.inv.bytes_eq, ((h.entries_perm hbatch hnone).map _).sum_eq, map_map]
  calc _ = ((msgs.filter (·.Waiting fed)).map fun m => dataBytes (m.received fed)).sum := by
        refine congrArg List.sum (map_congr_left fun m hmem => ?_)
        obtain ⟨hm, hw⟩ := mem_filter.mp hmem
        obtain ⟨q, hq, hholds⟩ := h.held m hm (hnone _) (of_decide_eq_true hw)
        show partBytes ((r.buffers.lookup m.fid).getD _) = _
        rw [hq]
        exact hholds.partBytes_eq (hbatch.accepted m hm)
    _ = _ := by
        rw [sum_filter_map]
        simp only [decide_eq_true_eq]
        rfl

theorem load_eq (hnot : ¬ m.Complete fed) : m.load fed = dataBytes (m.received fed) := by
  rw [Outgoing.load]
  split
  · rfl
  · next hw =>
    have hnil : m.received fed = [] := by
      refine filter_eq_nil_iff.mpr fun b hb hfed => hw ⟨⟨b, hb, ?_⟩, hnot⟩
      exact contains_iff_mem.mp hfed
    rw [hnil]
    rfl

/-- The chunk that arrives is all that is added to the buffer. -/
theorem sum_buffered (hbatch : Batch r₀ msgs) (hm : m ∈ msgs) (hk : k < m.parts.length)
    (hseveral : 2 ≤ m.parts.length) (hnew : m.chunk k ∉ fed) :
    (msgs.map (·.buffered fed (m.chunk k))).sum =
      (msgs.map (·.load fed)).sum + (m.part k).length := by
  have haccepted := hbatch.accepted m hm
  have hchunk : m.chunk k ∈ m.chunks := (Outgoing.mem_chunks haccepted).mpr ⟨k, hk, rfl⟩
  have hnot : ¬ m.Complete fed := fun hc => hnew (hc _ hchunk)
  have hown : m.buffered fed (m.chunk k) = m.load fed + (m.part k).length := by
    rw [Outgoing.buffered, if_pos ⟨Outgoing.length_chunks haccepted ▸ hseveral, hnot⟩,
      load_eq hnot, Outgoing.dataBytes_received_add haccepted hk hnew]
  have hchange := sum_map_change hbatch.nodup.of_map hm
    (f := fun m' => m'.buffered fed (m.chunk k)) (g := fun m' => m'.load fed) fun m' hm' hne => by
      have hb : m.chunk k ∉ m'.chunks := fun hmem =>
        hne (hbatch.eq_of_chunk hm' hm hmem hchunk)
      rw [Outgoing.buffered, Outgoing.received_append hb]
      split
      · next hcond => rw [load_eq hcond.2]
      · next hcond =>
        refine (if_neg fun hw => hcond ⟨?_, hw.2⟩).symm
        rw [Outgoing.length_chunks (hbatch.accepted m' hm')]
        exact hw.several (hbatch.accepted m' hm')
  omega

/-- A message that begins to wait is one more that waits. -/
theorem length_waiting_lt (hbatch : Batch r₀ msgs) (hm : m ∈ msgs) (hk : k < m.parts.length)
    (hseveral : 2 ≤ m.parts.length) (hnot : ¬ m.Complete fed) (hidle : ¬ m.Waiting fed) :
    (msgs.filter (·.Waiting fed)).length <
      (msgs.filter (·.Waiting (fed ++ [m.chunk k]))).length := by
  have haccepted := hbatch.accepted m hm
  have hchunk : m.chunk k ∈ m.chunks := (Outgoing.mem_chunks haccepted).mpr ⟨k, hk, rfl⟩
  have hwaits : m.Waiting (fed ++ [m.chunk k]) := by
    refine ⟨⟨_, hchunk, mem_append_right _ mem_cons_self⟩, fun hc => ?_⟩
    -- another chunk is still missing: nothing of the message had arrived
    obtain ⟨j, hj, hjk⟩ : ∃ j < m.parts.length, j ≠ k := ⟨if k = 0 then 1 else 0, by split <;> omega⟩
    have hother := (Outgoing.mem_chunks haccepted).mpr ⟨j, hj, rfl⟩
    rcases mem_append.mp (hc _ hother) with hmem | hmem
    · exact hidle ⟨⟨_, hother, hmem⟩, hnot⟩
    · exact hjk (Outgoing.chunk_inj haccepted haccepted hj hk (mem_singleton.mp hmem)).2
  have hnodup : (m :: msgs.filter (·.Waiting fed)).Nodup :=
    nodup_cons.mpr ⟨fun hmem => hidle (of_decide_eq_true (mem_filter.mp hmem).2),
      hbatch.nodup.of_map.filter _⟩
  refine (subperm_of_subset hnodup fun m' hm' => ?_).length_le
  rcases mem_cons.mp hm' with rfl | hm'
  · exact mem_filter.mpr ⟨hm, decide_eq_true hwaits⟩
  · obtain ⟨hmem, hw⟩ := mem_filter.mp hm'
    have hw := of_decide_eq_true hw
    have hne : m.chunk k ∉ m'.chunks := fun hb =>
      hidle (hbatch.eq_of_chunk hmem hm hb hchunk ▸ hw)
    exact mem_filter.mpr ⟨hmem, decide_eq_true ((Outgoing.waiting_append hne).mpr hw)⟩

/-! ## One feed -/

/-- A chunk of a message that is not complete, fed with room for it. -/
theorem Tracks.feed_roomy (hbatch : Batch r₀ msgs) (h : Tracks r₀ msgs r fed)
    (hnone : ∀ fid, fid ∉ r.evicted) (hm : m ∈ msgs) (hk : k < m.parts.length)
    (hnot : ¬ m.Complete fed)
    (hfew : (msgs.filter (·.Waiting (fed ++ [m.chunk k]))).length ≤ r₀.limit)
    (hfits : ∀ M, r₀.maxBufferedBytes = some M →
      (msgs.map (·.buffered fed (m.chunk k))).sum ≤ M)
    (hclock : r.Unexpired now) :
    Tracks r₀ msgs (r.feed (m.chunk k) now).1 (fed ++ [m.chunk k]) ∧
      (∀ fid, fid ∉ (r.feed (m.chunk k) now).1.evicted) ∧
      (r.feed (m.chunk k) now).2 =
        if m.Complete (fed ++ [m.chunk k]) then some m.payload else none := by
  have haccepted := hbatch.accepted m hm
  have hchunk : m.chunk k ∈ m.chunks := (Outgoing.mem_chunks haccepted).mpr ⟨k, hk, rfl⟩
  by_cases hfed : m.chunk k ∈ fed
  · have hstill : ¬ m.Complete (fed ++ [m.chunk k]) := fun hc => hnot fun b hb => by
      rcases mem_append.mp (hc b hb) with hmem | hmem
      · exact hmem
      · rwa [mem_singleton.mp hmem]
    rw [h.feed_repeat hbatch hm hk hclock (hnone _) hfed hnot, if_neg hstill]
    exact ⟨h.same hbatch hm hchunk (.inl hfed), hnone, rfl⟩
  · by_cases hone : m.parts.length = 1
    · have hdone : m.Complete (fed ++ [m.chunk k]) := Outgoing.complete_single haccepted hone hk
      have hidle := h.idle_single hbatch hm hone
      rw [h.feed_single hbatch hm hk hclock (hnone _) hone, if_pos hdone]
      exact ⟨h.same hbatch hm hchunk (.inr ⟨hidle, .inr hdone⟩), hnone, rfl⟩
    · have hseveral : 2 ≤ m.parts.length := by
        have := Outgoing.length_parts_pos haccepted
        omega
      have hroom : ∀ M, r.maxBufferedBytes = some M → r.bytes + (m.part k).length ≤ M := by
        intro M hM
        rw [h.bytes_eq hbatch hnone, ← sum_buffered hbatch hm hk hseveral hfed]
        exact hfits M (h.limits.maxBufferedBytes ▸ hM)
      have hslot : m.fid ∈ r.buffers ∨ r.pending < r.limit := by
        refine or_iff_not_imp_left.mpr fun hmem => ?_
        have hidle : ¬ m.Waiting fed := fun hw => by
          obtain ⟨q, hq, -⟩ := h.held m hm (hnone _) hw
          exact hmem (mem_of_lookup hq)
        rw [h.pending_eq hbatch hnone, h.limits.limit]
        exact lt_of_lt_of_le (length_waiting_lt hbatch hm hk hseveral hnot hidle) hfew
      have hsize : (m.parsed k).data.length ≤ r.maxChunkPayload := by
        rw [h.limits.maxChunkPayload]
        show (m.part k).length ≤ _
        rw [← Outgoing.chunkData_chunk]
        exact hbatch.sizes m hm _ hchunk
      rw [h.feed_new hbatch hm hk hclock (hnone _) hfed hseveral, accept_of_fits hsize hroom]
      obtain ⟨htracks, hanswer, hevicted, -⟩ :=
        h.place hbatch hm hk hfed hseveral (hnone _) hroom hslot now
      exact ⟨htracks, fun fid => hevicted ▸ hnone fid, hanswer⟩

/-! ## Whole runs -/

/-- Any interleaving of the chunks of `msgs`, repetitions before a message completes included, that
stays within the slots, the budget and the timeout. -/
structure Orderly (r₀ : Reassembler) (msgs : List Outgoing) (feeds : List (Bytes × Nat)) : Prop where
  chunks : ∀ i, (hi : i < feeds.length) →
    ∃ m ∈ msgs, feeds[i].1 ∈ m.chunks ∧ ¬ m.Complete (fedBefore feeds i)
  few : ∀ i < feeds.length,
    (msgs.filter (·.Waiting (fedBefore feeds (i + 1)))).length ≤ defaultBufferLimit
  fits : ∀ i, (hi : i < feeds.length) → ∀ M, r₀.maxBufferedBytes = some M →
    (msgs.map (·.buffered (fedBefore feeds i) feeds[i].1)).sum ≤ M
  prompt : ∀ i, (hi : i < feeds.length) → (r₀.stateAt feeds i).Unexpired feeds[i].2

variable {feeds : List (Bytes × Nat)}

theorem Orderly.step (hbatch : Batch r₀ msgs) (hlimit : r₀.limit = defaultBufferLimit)
    (h : Orderly r₀ msgs feeds) {i : Nat} (hi : i < feeds.length)
    (htracks : Tracks r₀ msgs (r₀.stateAt feeds i) (fedBefore feeds i))
    (hnone : ∀ fid, fid ∉ (r₀.stateAt feeds i).evicted) (hm : m ∈ msgs)
    (hchunk : feeds[i].1 ∈ m.chunks) :
    Tracks r₀ msgs (r₀.stateAt feeds (i + 1)) (fedBefore feeds (i + 1)) ∧
      (∀ fid, fid ∉ (r₀.stateAt feeds (i + 1)).evicted) ∧
      r₀.answerAt feeds i =
        if m.Complete (fedBefore feeds (i + 1)) then some m.payload else none := by
  obtain ⟨m', hm', hchunk', hnot⟩ := h.chunks i hi
  obtain rfl := hbatch.eq_of_chunk hm hm' hchunk hchunk'
  obtain ⟨k, hk, heq⟩ := (Outgoing.mem_chunks (hbatch.accepted m hm)).mp hchunk
  have hfew := h.few i hi
  have hfits := h.fits i hi
  rw [stateAt_succ hi, answerAt_eq hi]
  rw [fedBefore_succ hi] at hfew ⊢
  rw [← heq] at hfew hfits ⊢
  exact htracks.feed_roomy hbatch hnone hm hk hnot (hlimit ▸ hfew) hfits (h.prompt i hi)

theorem Orderly.tracks (hbatch : Batch r₀ msgs) (hlimit : r₀.limit = defaultBufferLimit)
    (hstart : Tracks r₀ msgs r₀ []) (hempty : ∀ fid, fid ∉ r₀.evicted)
    (h : Orderly r₀ msgs feeds) : ∀ i ≤ feeds.length,
    Tracks r₀ msgs (r₀.stateAt feeds i) (fedBefore feeds i) ∧
      ∀ fid, fid ∉ (r₀.stateAt feeds i).evicted := by
  intro i
  induction i with
  | zero => exact fun _ => ⟨hstart, hempty⟩
  | succ i ih =>
    intro hi
    obtain ⟨htracks, hnone⟩ := ih (Nat.le_of_succ_le hi)
    obtain ⟨m, hm, hchunk, -⟩ := h.chunks i hi
    obtain ⟨htracks', hnone', -⟩ := h.step hbatch hlimit hi htracks hnone hm hchunk
    exact ⟨htracks', hnone'⟩

/-- A message that completes does so at one feed, and with a chunk of its own. -/
theorem Orderly.completes (hbatch : Batch r₀ msgs) (h : Orderly r₀ msgs feeds) (hm : m ∈ msgs)
    (hcomplete : m.Complete (feeds.map Prod.fst)) :
    ∃! i, ∃ hi : i < feeds.length, feeds[i].1 ∈ m.chunks ∧ m.Complete (fedBefore feeds (i + 1)) := by
  have hexists : ∃ i, m.Complete (fedBefore feeds i) := ⟨feeds.length, by rwa [fedBefore_length]⟩
  have hspec := Nat.find_spec hexists
  have hle : Nat.find hexists ≤ feeds.length := Nat.find_min' hexists (by rwa [fedBefore_length])
  obtain ⟨i, hi⟩ : ∃ i, Nat.find hexists = i + 1 := by
    refine Nat.exists_eq_succ_of_ne_zero fun hzero => ?_
    rw [hzero] at hspec
    have haccepted := hbatch.accepted m hm
    exact not_mem_nil (hspec _
      ((Outgoing.mem_chunks haccepted).mpr ⟨0, Outgoing.length_parts_pos haccepted, rfl⟩))
  rw [hi] at hspec hle
  have hbefore : ¬ m.Complete (fedBefore feeds i) := Nat.find_min hexists (by omega)
  refine ⟨i, ⟨hle, ?_, hspec⟩, ?_⟩
  · by_contra hother
    rw [fedBefore_succ hle] at hspec
    exact hbefore ((Outgoing.complete_append hother).mp hspec)
  · rintro j ⟨hj, hchunk, hdone⟩
    obtain ⟨m', hm', hchunk', hnot⟩ := h.chunks j hj
    obtain rfl := hbatch.eq_of_chunk hm hm' hchunk hchunk'
    have hij : i + 1 ≤ j + 1 := hi ▸ Nat.find_min' hexists hdone
    have hji : j ≤ i := by
      by_contra hlt
      exact hnot fun b hb => fedBefore_subset (Nat.lt_of_not_le hlt) (hspec b hb)
    omega

theorem batch_forChunkSize {c : Nat} (hc : 1 ≤ c) (hsize : ∀ m ∈ msgs, m.chunkSize = c)
    (haccepted : ∀ m ∈ msgs, m.Accepted) (hnodup : (msgs.map Outgoing.fid).Nodup) :
    Batch (forChunkSize c) msgs where
  nodup := hnodup
  accepted := haccepted
  fragments := fun m hm => by
    rw [Outgoing.length_chunks (haccepted m hm)]
    exact le_trans (Outgoing.length_parts_le (haccepted m hm)) (Nat.le_max_left _ _)
  sizes := fun m hm b hb => by
    obtain ⟨k, hk, rfl⟩ := (Outgoing.mem_chunks (haccepted m hm)).mp hb
    have hpart : m.part k ∈ m.parts := by
      rw [Outgoing.part, getD_eq_getElem?_getD, getElem?_eq_getElem hk]
      exact getElem_mem hk
    have hle := m.length_part_le _ hpart
    rw [hsize m hm] at hle
    rw [Outgoing.chunkData_chunk]
    show _ ≤ max (max c 1) 1
    omega

theorem inv_forChunkSize (c : Nat) : Inv (forChunkSize c) :=
  inv_configured defaultBufferLimit wireMaxFragments (max c 1)
    (some (max libraryMaxBufferedBytes (max c 1 * wireMaxFragments))) defaultReassemblyTimeout

/-- Reassembly round trip: the answer to every feed is the message whose last missing chunk it
brought, if it did, and every message that arrives whole is the answer to exactly one feed of its
chunks. -/
theorem round_trip (c : Nat) (hc : 1 ≤ c) (msgs : List Outgoing)
    (hsize : ∀ m ∈ msgs, m.chunkSize = c) (haccepted : ∀ m ∈ msgs, m.Accepted)
    (hnodup : (msgs.map Outgoing.fid).Nodup) (feeds : List (Bytes × Nat))
    (h : Orderly (forChunkSize c) msgs feeds) :
    (∀ i, (hi : i < feeds.length) → ∀ m ∈ msgs, feeds[i].1 ∈ m.chunks →
      (forChunkSize c).answerAt feeds i =
        if m.Complete (fedBefore feeds (i + 1)) then some m.payload else none) ∧
    ∀ m ∈ msgs, m.Complete (feeds.map Prod.fst) →
      ∃! i, ∃ hi : i < feeds.length, feeds[i].1 ∈ m.chunks ∧
        (forChunkSize c).answerAt feeds i = some m.payload := by
  have hbatch := batch_forChunkSize hc hsize haccepted hnodup
  have hrun := h.tracks hbatch rfl (tracks_start (inv_forChunkSize c) rfl rfl)
    fun fid => AList.notMem_empty fid
  have hanswer : ∀ i, (hi : i < feeds.length) → ∀ m ∈ msgs, feeds[i].1 ∈ m.chunks →
      (forChunkSize c).answerAt feeds i =
        if m.Complete (fedBefore feeds (i + 1)) then some m.payload else none := by
    intro i hi m hm hchunk
    obtain ⟨htracks, hnone⟩ := hrun i (le_of_lt hi)
    exact (h.step hbatch rfl hi htracks hnone hm hchunk).2.2
  refine ⟨hanswer, fun m hm hcomplete => ?_⟩
  obtain ⟨i, ⟨hi, hchunk, hdone⟩, hunique⟩ := h.completes hbatch hm hcomplete
  refine ⟨i, ⟨hi, hchunk, by rw [hanswer i hi m hm hchunk, if_pos hdone]⟩, ?_⟩
  rintro j ⟨hj, hchunk', hreturned⟩
  refine hunique j ⟨hj, hchunk', ?_⟩
  by_contra hnot
  rw [hanswer j hj m hm hchunk', if_neg hnot] at hreturned
  simp at hreturned

/-- Messages of two chunks, three chunks and none of data. -/
def sampleMsgs : List Outgoing :=
  [⟨fidOf 1, [1, 2, 3], 2⟩, ⟨fidOf 2, [4, 5, 6, 7, 8], 2⟩, ⟨fidOf 3, [], 2⟩]

/-- Their chunks, out of order and one of them twice. -/
def sampleFeeds : List (Bytes × Nat) :=
  [(packChunk (fidOf 1) 1 2 [3], 0), (packChunk (fidOf 2) 2 3 [8], 1),
   (packChunk (fidOf 1) 1 2 [3], 2), (packChunk (fidOf 3) 0 1 [], 3),
   (packChunk (fidOf 2) 0 3 [4, 5], 4), (packChunk (fidOf 1) 0 2 [1, 2], 5),
   (packChunk (fidOf 2) 1 3 [6, 7], 6)]

theorem orderly_sample : Orderly (forChunkSize 2) sampleMsgs sampleFeeds where
  chunks := by decide +kernel
  few := by decide +kernel
  fits := fun i hi M hM => by
    have hall : ∀ j, (hj : j < sampleFeeds.length) →
        (sampleMsgs.map (·.buffered (fedBefore sampleFeeds j) sampleFeeds[j].1)).sum ≤
          64 * 1024 * 1024 := by decide +kernel
    rw [← Option.some.inj hM]
    exact hall i hi
  prompt := by decide +kernel

theorem round_trip_sample :
    Orderly (forChunkSize 2) sampleMsgs sampleFeeds ∧
      (forChunkSize 2).answerAt sampleFeeds 2 = none ∧
      (forChunkSize 2).answerAt sampleFeeds 5 = some [1, 2, 3] := by
  obtain ⟨hanswer, -⟩ := round_trip 2 (by decide) sampleMsgs (by decide)
    (fun m hm => ⟨by revert m; decide, by revert m; decide +kernel⟩) (by decide) sampleFeeds
    orderly_sample
  have hmem : (⟨fidOf 1, [1, 2, 3], 2⟩ : Outgoing) ∈ sampleMsgs := mem_cons_self
  refine ⟨orderly_sample, ?_, ?_⟩
  · rw [hanswer 2 (by decide) _ hmem (by decide +kernel)]
    decide +kernel
  · rw [hanswer 5 (by decide) _ hmem (by decide +kernel)]
    decide +kernel

end Reassembler

end Telesthete.Wire
