import Mathlib.Data.List.Induction
import Telesthete.Relay.Egress

/-!
# The queue of channel streams against their table

The queue is meant to list the ids of the table in the order their streams were
opened, so that popping it drops the stream opened first. A write that fails takes
the id out of the table and leaves it in the queue, and nothing ever takes it out
there but the loop that makes room. So the two agree after every frame exactly in
the runs in which no write fails (`inOrder_iff`). What survives the failures is
the bound on the table (`channels_bounded`), since every id of the table is still
in the queue, if not only once.

The one thing the argument needs beyond the queue itself is that the streams of
the table have numbers below the next one, so that an id put at the end of the
queue has the stream opened last.
-/

namespace Telesthete.Relay

open Telesthete.Lib Telesthete.Wire List

namespace EgressWriter

variable {s : EgressWriter} {cid : UInt16} {c : Carriage}

/-! ## The bound -/

/-- Every id of the table is in the queue. -/
def Queued (s : EgressWriter) : Prop := ∀ cid ∈ s.channels, cid ∈ s.order

/-- The loop makes room, whatever else the queue holds. -/
theorem evict_room : ∀ (order : List UInt16) (s : EgressWriter), (∀ cid ∈ s.channels, cid ∈ order) →
    (s.evict order).Queued ∧ (s.evict order).channels.entries.length < maxEgressChannels ∧
      ∀ cid ∈ (s.evict order).channels, cid ∈ s.channels := by
  intro order
  induction order with
  | nil =>
    intro s hsub
    refine ⟨hsub, ?_, fun _ => id⟩
    exact lt_of_le_of_lt (length_entries_le_of_forall_mem hsub) (by decide)
  | cons old order ih =>
    intro s hsub
    rw [evict]
    split
    · have hrest : ∀ cid ∈ s.channels.erase old, cid ∈ order := by
        intro cid hcid
        obtain ⟨hne, hmem⟩ := AList.mem_erase.mp hcid
        exact (mem_cons.mp (hsub cid hmem)).resolve_left hne
      obtain ⟨hqueued, hroom, hmem⟩ := ih (s.remove old) hrest
      exact ⟨hqueued, hroom, fun cid hcid => (AList.mem_erase.mp (hmem cid hcid)).2⟩
    · next hroom => exact ⟨hsub, Nat.lt_of_not_le hroom, fun _ => id⟩

theorem Queued.openChannel (h : s.Queued) (hbound : s.channels.entries.length ≤ maxEgressChannels)
    (cid : UInt16) (opens : Bool) : (s.openChannel cid opens).Queued ∧
      (s.openChannel cid opens).channels.entries.length ≤ maxEgressChannels := by
  rw [EgressWriter.openChannel]
  split
  · exact ⟨h, hbound⟩
  · obtain ⟨hqueued, hroom, -⟩ := evict_room s.order s h
    split
    · refine ⟨fun a ha => mem_append.mpr ?_, le_trans length_entries_insert_le hroom⟩
      rcases (AList.mem_insert _).mp ha with rfl | ha
      · exact .inr (mem_singleton_self a)
      · exact .inl (hqueued a ha)
    · exact ⟨hqueued, hroom.le⟩

theorem length_erase_le (t : StreamTable) (cid : UInt16) :
    (t.erase cid).entries.length ≤ t.entries.length :=
  length_entries_le fun _ h => (AList.mem_erase.mp h).2

/-- A frame that is not of a channel leaves the table and the queue alone. -/
theorem place_cases (s : EgressWriter) (c : Carriage) :
    (∃ info, routeInfo c.frame = some info ∧ info.channelType = some .channel ∧
      s.place c = s.placeChannel info.channelId c) ∨
    ((∀ info, routeInfo c.frame = some info → info.channelType ≠ some .channel) ∧
      ∃ control opened, s.opened ≤ opened ∧ s.place c = { s with control, opened }) := by
  rw [place]
  split
  · next hnone =>
    exact .inr ⟨fun info h => absurd (hnone.symm.trans h) (by simp), _, _, le_rfl, rfl⟩
  · next info hinfo =>
    have hother : info.channelType ≠ some .channel →
        ∀ i, routeInfo c.frame = some i → i.channelType ≠ some .channel :=
      fun hne i h => Option.some.inj (hinfo.symm.trans h) ▸ hne
    split
    · next htype => exact .inr ⟨hother (by simp [htype]), _, _, le_rfl, rfl⟩
    · next htype => exact .inl ⟨info, hinfo, htype, rfl⟩
    · next htype =>
      refine .inr ⟨hother htype, ?_⟩
      rw [placeControl]
      split
      · split
        · exact ⟨none, s.opened + 1, Nat.le_succ _, rfl⟩
        · exact ⟨some s.opened, s.opened + 1, Nat.le_succ _, rfl⟩
      · split
        · exact ⟨none, s.opened, le_rfl, rfl⟩
        · exact ⟨_, _, le_rfl, rfl⟩

theorem Queued.place (h : s.Queued ∧ s.channels.entries.length ≤ maxEgressChannels)
    (c : Carriage) :
    (s.place c).Queued ∧ (s.place c).channels.entries.length ≤ maxEgressChannels := by
  rcases place_cases s c with ⟨info, -, -, heq⟩ | ⟨-, control, opened, -, heq⟩
  · rw [heq, placeChannel]
    have hopen := h.1.openChannel h.2 info.channelId c.opens
    split
    · refine ⟨fun a ha => hopen.1 a (AList.mem_erase.mp ha).2, ?_⟩
      exact le_trans (length_erase_le _ _) hopen.2
    · exact hopen
  · rw [heq]
    exact h

/-- There are never more than 64 channel streams, whatever fails. -/
theorem channels_bounded (frames : List Carriage) :
    (run frames).channels.entries.length ≤ maxEgressChannels := by
  have h : (run frames).Queued ∧ (run frames).channels.entries.length ≤ maxEgressChannels := by
    refine List.foldlRecOn (motive := fun s => s.Queued ∧
      s.channels.entries.length ≤ maxEgressChannels) frames place (b := new) ?_ ?_
    · exact ⟨fun cid h => absurd h (AList.notMem_empty cid), Nat.zero_le _⟩
    · exact fun s h c _ => Queued.place h c
  exact h.2

/-! ## The order -/

/-- The queue lists the ids of the table once each in the order of opening, and what was dropped to
make room was the stream opened first. -/
structure InOrder (s : EgressWriter) : Prop where
  bound : s.channels.entries.length ≤ maxEgressChannels
  nodup : s.order.Nodup
  listed : ∀ cid, cid ∈ s.order ↔ cid ∈ s.channels
  sorted : s.order.Pairwise fun a b => ∀ m n, s.channels.lookup a = some m →
    s.channels.lookup b = some n → m < n
  evicted : ∀ e ∈ s.evictions, ∃ n, e.1.lookup e.2 = some n ∧
    ∀ cid m, e.1.lookup cid = some m → n ≤ m

/-- The streams of the table have numbers below the next one. -/
def Numbered (s : EgressWriter) : Prop := ∀ cid n, s.channels.lookup cid = some n → n < s.opened

theorem lookup_of_erase {t : StreamTable} {a b : UInt16} {n : Nat}
    (h : (t.erase a).lookup b = some n) : t.lookup b = some n := by
  rw [lookup_erase_ite] at h
  exact (Option.ite_none_left_eq_some.mp h).2

/-- Popping the queue drops the stream opened first. -/
theorem InOrder.pop {old : UInt16} {order : List UInt16}
    (h : InOrder { s with order := old :: order }) :
    InOrder { s.remove old with order := order } where
  bound := le_trans (length_erase_le _ _) h.bound
  nodup := (nodup_cons.mp h.nodup).2
  listed := fun cid => by
    have hlisted : cid ∈ old :: order ↔ cid ∈ s.channels := h.listed cid
    show _ ↔ cid ∈ s.channels.erase old
    rw [AList.mem_erase, ← hlisted, mem_cons]
    refine ⟨fun hmem => ⟨?_, .inr hmem⟩, fun hmem => hmem.2.resolve_left hmem.1⟩
    rintro rfl
    exact (nodup_cons.mp h.nodup).1 hmem
  sorted := (pairwise_cons.mp h.sorted).2.imp fun hlt m n hm hn =>
    hlt m n (lookup_of_erase hm) (lookup_of_erase hn)
  evicted := by
    have hold : old ∈ s.channels := (h.listed old).mp mem_cons_self
    intro e he
    rw [show (s.remove old).evictions = _ from if_pos hold] at he
    rcases mem_append.mp he with he | he
    · exact h.evicted e he
    · obtain rfl := mem_singleton.mp he
      obtain ⟨n, hn⟩ := Option.isSome_iff_exists.mp (AList.lookup_isSome.mpr hold)
      refine ⟨n, hn, fun cid m hm => ?_⟩
      rcases mem_cons.mp ((h.listed cid).mpr (mem_of_lookup hm)) with rfl | hcid
      · exact le_of_eq (Option.some.inj (hn.symm.trans hm))
      · exact ((pairwise_cons.mp h.sorted).1 cid hcid n m hn hm).le

theorem InOrder.evict : ∀ (order : List UInt16) (s : EgressWriter),
    InOrder { s with order := order } → Numbered s →
    InOrder (s.evict order) ∧ Numbered (s.evict order) := by
  intro order
  induction order with
  | nil => exact fun s h hnum => ⟨h, hnum⟩
  | cons old order ih =>
    intro s h hnum
    rw [EgressWriter.evict]
    split
    · exact ih _ h.pop fun cid n hn => hnum cid n (lookup_of_erase hn)
    · exact ⟨h, hnum⟩

/-- A stream just opened goes to the end of the queue. -/
theorem InOrder.push (h : InOrder s) (hnum : Numbered s) (hcid : cid ∉ s.channels)
    (hroom : s.channels.entries.length < maxEgressChannels) :
    InOrder { s with
      channels := s.channels.insert cid s.opened
      order := s.order ++ [cid]
      opened := s.opened + 1 } where
  bound := le_trans length_entries_insert_le hroom
  nodup := by
    refine nodup_append.mpr ⟨h.nodup, nodup_singleton cid, fun a ha b hb => ?_⟩
    obtain rfl := mem_singleton.mp hb
    rintro rfl
    exact hcid ((h.listed a).mp ha)
  listed := fun a => by
    rw [mem_append, mem_singleton, AList.mem_insert, h.listed a]
    exact Or.comm
  sorted := by
    have hold : ∀ a ∈ s.order, ∀ m, (s.channels.insert cid s.opened).lookup a = some m →
        s.channels.lookup a = some m := by
      intro a ha m hm
      rwa [AList.lookup_insert_ne] at hm
      rintro rfl
      exact hcid ((h.listed a).mp ha)
    refine pairwise_append.mpr ⟨?_, pairwise_singleton _ _, fun a ha b hb m n hm hn => ?_⟩
    · exact h.sorted.imp_of_mem fun ha hb hlt m n hm hn => hlt m n (hold _ ha m hm) (hold _ hb n hn)
    · obtain rfl := mem_singleton.mp hb
      have hlast : s.opened = n := Option.some.inj ((AList.lookup_insert _).symm.trans hn)
      exact hlast ▸ hnum a m (hold a ha m hm)
  evicted := h.evicted

theorem InOrder.openChannel (h : InOrder s) (hnum : Numbered s) (cid : UInt16) (opens : Bool) :
    InOrder (s.openChannel cid opens) ∧ Numbered (s.openChannel cid opens) := by
  rw [EgressWriter.openChannel]
  split
  · exact ⟨h, hnum⟩
  · next hcid =>
    obtain ⟨horder, hnum'⟩ := InOrder.evict s.order s h hnum
    obtain ⟨-, hroom, hsub⟩ := evict_room s.order s fun a ha => (h.listed a).mpr ha
    split
    · refine ⟨horder.push hnum' (fun hmem => hcid (hsub cid hmem)) hroom, fun a n hn => ?_⟩
      rw [lookup_insert_ite] at hn
      split at hn
      · exact Option.some.inj hn ▸ Nat.lt_succ_self _
      · exact Nat.lt_succ_of_lt (hnum' a n hn)
    · exact ⟨horder, hnum'⟩

/-! ## Runs -/

/-- The frame is written to the stream of its channel, and the write fails. -/
def WriteFails (s : EgressWriter) (c : Carriage) : Prop :=
  ∃ info, routeInfo c.frame = some info ∧ info.channelType = some .channel ∧
    info.channelId ∈ (s.openChannel info.channelId c.opens).channels ∧ c.writeFramed = false

/-- A frame keeps the order unless its write fails, and then it does not. -/
theorem InOrder.place (h : InOrder s) (hnum : Numbered s) (c : Carriage) :
    Numbered (s.place c) ∧ (InOrder (s.place c) ↔ ¬ s.WriteFails c) := by
  rcases place_cases s c with ⟨info, hinfo, htype, heq⟩ | ⟨hother, control, opened, hle, heq⟩
  · obtain ⟨horder, hnum'⟩ := h.openChannel hnum info.channelId c.opens
    rw [heq, placeChannel]
    split
    · next hfail =>
      refine ⟨fun a n hn => hnum' a n (lookup_of_erase hn), iff_of_false (fun hbad => ?_) ?_⟩
      -- the id is gone from the table only
      · have hmem := (hbad.listed info.channelId).mp ((horder.listed _).mpr hfail.1)
        exact (AList.mem_erase.mp hmem).1 rfl
      · exact not_not_intro ⟨info, hinfo, htype, hfail⟩
    · next hok =>
      refine ⟨hnum', iff_of_true horder ?_⟩
      rintro ⟨i, hi, -, hfail⟩
      obtain rfl := Option.some.inj (hinfo.symm.trans hi)
      exact hok hfail
  · rw [heq]
    refine ⟨fun a n hn => lt_of_lt_of_le (hnum a n hn) hle, iff_of_true { h with } ?_⟩
    rintro ⟨info, hinfo, htype, -⟩
    exact hother info hinfo htype

theorem run_concat (pre : List Carriage) (c : Carriage) : run (pre ++ [c]) = (run pre).place c :=
  foldl_concat ..

theorem inOrder_new : InOrder new ∧ Numbered new :=
  ⟨⟨Nat.zero_le _, nodup_nil, fun _ => Iff.rfl, .nil, fun _ h => absurd h not_mem_nil⟩,
    fun _ _ h => absurd h (by simp [new])⟩

/-- The table, the queue and the evictions are as they should be after every frame exactly when no
write to a channel's stream fails. -/
theorem inOrder_iff (frames : List Carriage) :
    (∀ pre, pre <+: frames → InOrder (run pre)) ↔
      ∀ pre c, pre ++ [c] <+: frames → ¬ (run pre).WriteFails c := by
  constructor
  · intro h pre c hpre
    have hnum : ∀ p, p <+: frames → Numbered (run p) := by
      intro p
      induction p using List.reverseRec with
      | nil => exact fun _ => inOrder_new.2
      | append_singleton p a ih =>
        intro hp
        have hp' := (prefix_append p [a]).trans hp
        exact run_concat p a ▸ ((h p hp').place (ih hp') a).1
    have hpre' := (prefix_append pre [c]).trans hpre
    exact ((h pre hpre').place (hnum pre hpre') c).2.mp (run_concat pre c ▸ h _ hpre)
  · intro h
    have hall : ∀ p, p <+: frames → InOrder (run p) ∧ Numbered (run p) := by
      intro p
      induction p using List.reverseRec with
      | nil => exact fun _ => inOrder_new
      | append_singleton p a ih =>
        intro hp
        obtain ⟨horder, hnum⟩ := ih ((prefix_append p [a]).trans hp)
        obtain ⟨hnum', hiff⟩ := horder.place hnum a
        exact run_concat p a ▸ ⟨hiff.mpr (h p a hp), hnum'⟩
    exact fun pre hpre => (hall pre hpre).1

/-- A frame of a channel, with the answers. -/
def onChannel (cid : UInt16) (opens writes : Bool) : Carriage :=
  ⟨zeroBand.bytes ++ [2, UInt8.ofNat (cid.toNat / 256), UInt8.ofNat cid.toNat] ++
    List.replicate 24 0, opens, writes⟩

/-- The write to channel 1 fails, and its id stays in the queue. With 63 others opened and channel 1
opened again, the next channel finds that entry first: the stream opened last is dropped. -/
theorem stale_entry_evicts_newest :
    (run [onChannel 1 true false]).order = [1] ∧
      (run [onChannel 1 true false]).channels.lookup 1 = none ∧
      ((run (onChannel 1 true false ::
          (List.range' 2 63).map (fun i => onChannel (UInt16.ofNat i) true true) ++
          [onChannel 1 true true, onChannel 65 true true])).evictions.map fun e =>
        (e.2, e.1.lookup e.2, e.1.lookup 2)) = [(1, some 64, some 1)] := by
  decide +kernel

end EgressWriter

end Telesthete.Relay
