import Mathlib.Algebra.Order.BigOperators.Group.List
import Telesthete.Proofs.ReassemblerInv

/-!
# A reassembler fed with the chunks of known messages

The messages of a run are known beforehand, as `fragment` cuts them, and the
reassembler is fed with their chunks in any order. `Tracks` says what it then
holds: of every message that was not evicted, exactly the parts that arrived, in
a partial that exists while the message waits for a chunk and at no other time.

A feed changes one message's place in this picture and leaves the others where
they were (`Tracks.update`). The two questions about such runs, the round trip
and memory pressure, then differ only in whether anything is ever evicted.
-/

namespace Telesthete.Wire

open Telesthete.Lib List

/-! ## Sums -/

theorem sum_filter_map {α : Type} (p : α → Bool) (f : α → Nat) (l : List α) :
    ((l.filter p).map f).sum = (l.map fun x => if p x then f x else 0).sum := by
  induction l with
  | nil => rfl
  | cons x l ih =>
    rw [map_cons, sum_cons, ← ih]
    by_cases hx : p x
    · rw [filter_cons_of_pos hx, if_pos hx, map_cons, sum_cons]
    · rw [filter_cons_of_neg hx, if_neg hx, Nat.zero_add]

/-- Sums over a list that differ at one place. -/
theorem sum_map_change {α : Type} [DecidableEq α] {l : List α} (hnodup : l.Nodup) {x : α}
    (hx : x ∈ l) {f g : α → Nat} (hfg : ∀ y ∈ l, y ≠ x → f y = g y) :
    (l.map f).sum + g x = (l.map g).sum + f x := by
  have hrest : ((l.erase x).map f).sum = ((l.erase x).map g).sum := by
    refine congrArg List.sum (map_congr_left fun y hy => ?_)
    obtain ⟨hne, hmem⟩ := hnodup.mem_erase_iff.mp hy
    exact hfg y hmem hne
  rw [← sum_map_erase f hx, ← sum_map_erase g hx]
  omega

/-! ## Messages and their chunks -/

/-- A message as its sender cuts it. -/
structure Outgoing where
  fid : FragmentId
  payload : Bytes
  chunkSize : Nat
deriving DecidableEq

/-- What a chunk carries after its header. -/
def chunkData (chunk : Bytes) : Bytes := chunk.drop fragHeaderLen

def dataBytes (chunks : List Bytes) : Nat := (chunks.map fun b => (chunkData b).length).sum

namespace Outgoing

variable {m m' : Outgoing} {fed : List Bytes} {b : Bytes} {k : Nat}

/-- The chunks `fragment` makes of the message. -/
def chunks (m : Outgoing) : List Bytes := (fragment m.payload m.chunkSize m.fid).getD []

/-- Neither of the assertions of `fragment` fails. -/
structure Accepted (m : Outgoing) : Prop where
  pos : 0 < m.chunkSize
  isSome : (fragment m.payload m.chunkSize m.fid).isSome

/-- Every chunk of the message is among those fed. -/
def Complete (m : Outgoing) (fed : List Bytes) : Prop := ∀ b ∈ m.chunks, b ∈ fed

/-- The message has begun to arrive and lacks a chunk. -/
def Waiting (m : Outgoing) (fed : List Bytes) : Prop :=
  (∃ b ∈ m.chunks, b ∈ fed) ∧ ¬ m.Complete fed

instance decidableComplete (m : Outgoing) (fed : List Bytes) : Decidable (m.Complete fed) :=
  inferInstanceAs (Decidable (∀ b ∈ m.chunks, b ∈ fed))

instance decidableWaiting (m : Outgoing) (fed : List Bytes) : Decidable (m.Waiting fed) :=
  inferInstanceAs (Decidable (_ ∧ _))

/-- The chunks of the message that have arrived. -/
def received (m : Outgoing) (fed : List Bytes) : List Bytes := m.chunks.filter (fed.contains ·)

/-- The pieces of the payload, one a chunk. -/
def parts (m : Outgoing) : List Bytes :=
  if m.payload = [] then [[]] else pieces m.chunkSize m.payload

def part (m : Outgoing) (k : Nat) : Bytes := m.parts.getD k []

def chunk (m : Outgoing) (k : Nat) : Bytes := packChunk m.fid k m.parts.length (m.part k)

/-- The `k`-th chunk as the reassembler reads it. -/
def parsed (m : Outgoing) (k : Nat) : Chunk := ⟨m.fid, k, m.parts.length, m.part k⟩

theorem flatten_parts (h : m.Accepted) : m.parts.flatten = m.payload := by
  rw [parts]
  split
  · next hnil => rw [hnil]; rfl
  · exact flatten_pieces h.pos m.payload

theorem length_parts_pos (h : m.Accepted) : 0 < m.parts.length := by
  rw [parts]
  split
  · exact Nat.one_pos
  · next hne =>
    refine length_pos_of_ne_nil fun hnil => hne ?_
    rw [← flatten_pieces h.pos m.payload, hnil]
    rfl

theorem length_parts_le (h : m.Accepted) : m.parts.length ≤ wireMaxFragments := by
  rw [parts]
  split
  · decide
  · next hne =>
    have hsome := h.isSome
    rw [fragment, if_neg hne] at hsome
    dsimp only at hsome
    split at hsome
    · simp at hsome
    · next hle => exact Nat.le_of_not_lt hle

theorem length_part_le (m : Outgoing) : ∀ p ∈ m.parts, p.length ≤ m.chunkSize := by
  intro p hp
  rw [parts] at hp
  split at hp
  · rw [mem_singleton.mp hp]
    exact Nat.zero_le _
  · obtain ⟨i, -, rfl⟩ := mem_map.mp hp
    exact length_take_le _ _

theorem chunks_eq (h : m.Accepted) : m.chunks = (List.range m.parts.length).map m.chunk := by
  have hzip : m.parts.zipIdx.map (fun p => packChunk m.fid p.2 m.parts.length p.1) =
      (List.range m.parts.length).map m.chunk := by
    refine ext_getElem (by simp) fun i h₁ h₂ => ?_
    have hi : i < m.parts.length := by simpa using h₂
    simp [chunk, part, hi]
  rw [← hzip, chunks, fragment, parts]
  by_cases hnil : m.payload = []
  · simp [hnil]
  · have hle := length_parts_le h
    rw [parts, if_neg hnil] at hle
    rw [if_neg hnil, if_neg hnil]
    rw [if_neg (show ¬ 0xFFFF < (pieces m.chunkSize m.payload).length from not_lt.mpr hle)]
    rfl

theorem length_chunks (h : m.Accepted) : m.chunks.length = m.parts.length := by
  rw [chunks_eq h, length_map, length_range]

theorem mem_chunks (h : m.Accepted) :
    b ∈ m.chunks ↔ ∃ k < m.parts.length, m.chunk k = b := by
  simp [chunks_eq h]

theorem parseChunk_chunk (h : m.Accepted) (hk : k < m.parts.length) :
    parseChunk (m.chunk k) = some (m.parsed k) :=
  parseChunk_packChunk hk (length_parts_le h)

theorem chunkData_chunk (m : Outgoing) (k : Nat) : chunkData (m.chunk k) = m.part k := by
  have hfid : m.fid.toList.length = 16 := m.fid.toList_length
  simp [chunkData, chunk, packChunk, fragHeaderLen, drop_append, hfid,
    drop_eq_nil_of_le]

theorem chunk_inj (h : m.Accepted) (h' : m'.Accepted) {k' : Nat} (hk : k < m.parts.length)
    (hk' : k' < m'.parts.length) (heq : m.chunk k = m'.chunk k') : m.fid = m'.fid ∧ k = k' := by
  have hparse := parseChunk_chunk h hk
  rw [heq, parseChunk_chunk h' hk'] at hparse
  have hinj := Option.some.inj hparse
  exact ⟨(congrArg Chunk.fragmentId hinj).symm, (congrArg Chunk.seq hinj).symm⟩

/-- A message with one chunk never waits. -/
theorem Waiting.several (h : m.Accepted) (hw : m.Waiting fed) : 2 ≤ m.parts.length := by
  obtain ⟨⟨b, hb, hfed⟩, hnot⟩ := hw
  have hpos := length_parts_pos h
  by_contra hlt
  refine hnot fun b' hb' => ?_
  obtain ⟨k, hk, rfl⟩ := (mem_chunks h).mp hb
  obtain ⟨k', hk', rfl⟩ := (mem_chunks h).mp hb'
  rwa [show k' = k by omega]

/-- A message with one chunk is complete once it begins. -/
theorem complete_single (h : m.Accepted) (hone : m.parts.length = 1) (hk : k < m.parts.length) :
    m.Complete (fed ++ [m.chunk k]) := by
  intro b hb
  obtain ⟨j, hj, rfl⟩ := (mem_chunks h).mp hb
  rw [show j = k by omega]
  exact mem_append_right _ mem_cons_self

theorem complete_append (hb : b ∉ m.chunks) : m.Complete (fed ++ [b]) ↔ m.Complete fed := by
  refine forall₂_congr fun b' hb' => ?_
  have hne : b' ≠ b := fun heq => hb (heq ▸ hb')
  simp [hne]

theorem waiting_append (hb : b ∉ m.chunks) : m.Waiting (fed ++ [b]) ↔ m.Waiting fed := by
  refine and_congr (exists_congr fun b' => and_congr_right fun hb' => ?_)
    (not_congr (complete_append hb))
  have hne : b' ≠ b := fun heq => hb (heq ▸ hb')
  simp [hne]

theorem received_append (hb : b ∉ m.chunks) : m.received (fed ++ [b]) = m.received fed := by
  refine filter_congr fun b' hb' => ?_
  have hne : b' ≠ b := fun heq => hb (heq ▸ hb')
  simp [hne]

theorem received_eq (h : m.Accepted) :
    m.received fed =
      ((List.range m.parts.length).filter fun k => fed.contains (m.chunk k)).map m.chunk := by
  rw [received, chunks_eq h, filter_map]
  rfl

theorem dataBytes_received (h : m.Accepted) :
    dataBytes (m.received fed) =
      (((List.range m.parts.length).filter fun k => fed.contains (m.chunk k)).map
        fun k => (m.part k).length).sum := by
  rw [received_eq h, dataBytes, map_map]
  exact congrArg List.sum (map_congr_left fun k _ =>
    congrArg List.length (chunkData_chunk m k))

theorem map_part (m : Outgoing) : (List.range m.parts.length).map m.part = m.parts := by
  refine ext_getElem (by simp) fun i h₁ h₂ => ?_
  simp [part, h₂]

theorem dataBytes_received_le (h : m.Accepted) :
    dataBytes (m.received fed) ≤ m.payload.length := by
  rw [dataBytes_received h, ← flatten_parts h, length_flatten]
  calc _ ≤ ((List.range m.parts.length).map fun k => (m.part k).length).sum :=
        (filter_sublist.map _).sum_le_sum fun _ _ => Nat.zero_le _
    _ = ((List.range m.parts.length).map m.part |>.map List.length).sum := by
        rw [map_map]
        rfl
    _ = (m.parts.map List.length).sum := by rw [map_part]

/-- A chunk that arrives adds its bytes to what has arrived. -/
theorem dataBytes_received_add (haccepted : m.Accepted) (hk : k < m.parts.length)
    (hnew : m.chunk k ∉ fed) :
    dataBytes (m.received (fed ++ [m.chunk k])) =
      dataBytes (m.received fed) + (m.part k).length := by
  rw [dataBytes_received haccepted, dataBytes_received haccepted,
    sum_filter_map, sum_filter_map]
  have hchange := sum_map_change nodup_range (mem_range.mpr hk)
    (f := fun j => if (fed ++ [m.chunk k]).contains (m.chunk j) then (m.part j).length else 0)
    (g := fun j => if fed.contains (m.chunk j) then (m.part j).length else 0) fun j hj hne => by
      have hchunk : m.chunk j ≠ m.chunk k := fun heq =>
        hne (chunk_inj haccepted haccepted (mem_range.mp hj) hk heq).2
      simp [hchunk]
  simpa [hnew] using hchange

end Outgoing

namespace Reassembler

/-! ## What a partial holds -/

section Holds

variable {m : Outgoing} {fed : List Bytes} {q : Partial} {k : Nat}

/-- The partial has the parts of the message that have arrived. -/
structure Holds (m : Outgoing) (fed : List Bytes) (q : Partial) : Prop where
  total : q.total = m.parts.length
  lookup : ∀ k, q.parts.lookup k =
    if k < m.parts.length ∧ m.chunk k ∈ fed then some (m.part k) else none

theorem Holds.mem_iff (h : Holds m fed q) :
    k ∈ q.parts ↔ k < m.parts.length ∧ m.chunk k ∈ fed := by
  rw [← AList.lookup_isSome, h.lookup]
  split
  · next hk => simp [hk]
  · next hk => simpa using hk

theorem holds_opened (hm : m.Accepted) (h : ∀ b ∈ m.chunks, b ∉ fed) (now order : Nat) :
    Holds m fed (opened m.parts.length now order) where
  total := rfl
  lookup := fun k => by
    have hnot : ¬ (k < m.parts.length ∧ m.chunk k ∈ fed) := fun hk =>
      h _ ((Outgoing.mem_chunks hm).mpr ⟨k, hk.1, rfl⟩) hk.2
    rw [if_neg hnot]
    rfl

theorem Holds.append_other (h : Holds m fed q) {b : Bytes} (hm : m.Accepted)
    (hb : b ∉ m.chunks) : Holds m (fed ++ [b]) q where
  total := h.total
  lookup := fun k => by
    rw [h.lookup]
    refine if_congr (and_congr_right fun hk => ?_) rfl rfl
    have hne : m.chunk k ≠ b := fun heq => hb ((Outgoing.mem_chunks hm).mpr ⟨k, hk, heq⟩)
    simp [hne]

theorem Holds.append_mem (h : Holds m fed q) {b : Bytes} (hb : b ∈ fed) :
    Holds m (fed ++ [b]) q where
  total := h.total
  lookup := fun k => by
    rw [h.lookup]
    refine if_congr (and_congr_right fun _ => ?_) rfl rfl
    rw [mem_append, mem_singleton, or_iff_left_of_imp fun heq => heq ▸ hb]

theorem Holds.add (h : Holds m fed q) (hm : m.Accepted) (hk : k < m.parts.length) :
    Holds m (fed ++ [m.chunk k]) (addTo q (m.parsed k)) where
  total := h.total
  lookup := fun j => by
    show (q.parts.insert k (m.part k)).lookup j = _
    rw [lookup_insert_ite, h.lookup]
    by_cases hj : j = k
    · subst hj
      simp [hk]
    · rw [if_neg hj]
      refine if_congr (and_congr_right fun hlt => ?_) rfl rfl
      have hne : m.chunk j ≠ m.chunk k := fun heq => hj (Outgoing.chunk_inj hm hm hlt hk heq).2
      simp [hne]

/-- A partial has all its parts when the message has arrived. -/
theorem Holds.full_iff (h : Holds m fed q) (hm : m.Accepted) :
    q.parts.entries.length = q.total ↔ m.Complete fed := by
  have hbelow : ∀ i ∈ q.parts, i < q.total := fun i hi => h.total ▸ (h.mem_iff.mp hi).1
  constructor
  · intro hfull b hb
    obtain ⟨k, hk, rfl⟩ := (Outgoing.mem_chunks hm).mp hb
    exact (h.mem_iff.mp (mem_parts_of_full hfull hbelow k (h.total ▸ hk))).2
  · intro hcomplete
    refine le_antisymm ?_ ?_
    · have hle : q.parts.entries.length ≤ (List.range q.total).length :=
        length_entries_le_of_forall_mem fun i hi => mem_range.mpr (hbelow i hi)
      rwa [length_range] at hle
    · have hall : ∀ i ∈ List.range q.total, i ∈ q.parts := fun i hi => by
        have hi' : i < m.parts.length := h.total ▸ mem_range.mp hi
        exact h.mem_iff.mpr ⟨hi', hcomplete _ ((Outgoing.mem_chunks hm).mpr ⟨i, hi', rfl⟩)⟩
      have hle := length_le_of_forall_mem nodup_range hall
      rwa [length_range] at hle

theorem Holds.assemble_eq (h : Holds m fed q) (hm : m.Accepted) (hcomplete : m.Complete fed) :
    assemble q = m.payload := by
  rw [← Outgoing.flatten_parts hm, assemble, h.total, flatMap_def]
  nth_rewrite 2 [← Outgoing.map_part m]
  refine congrArg List.flatten (map_congr_left fun k hk => ?_)
  have hlt := mem_range.mp hk
  rw [h.lookup, if_pos ⟨hlt, hcomplete _ ((Outgoing.mem_chunks hm).mpr ⟨k, hlt, rfl⟩)⟩]
  rfl

theorem Holds.partBytes_eq (h : Holds m fed q) (hm : m.Accepted) :
    partBytes q = dataBytes (m.received fed) := by
  have hperm : q.parts.entries.Perm
      (((List.range m.parts.length).filter fun k => fed.contains (m.chunk k)).map
        fun k => (⟨k, m.part k⟩ : Σ _ : Nat, Bytes)) := by
    refine (perm_ext_iff_of_nodup q.parts.nodupKeys.nodup ?_).mpr fun e => ?_
    · refine (nodup_range.filter _).map fun i j hij => ?_
      exact congrArg Sigma.fst hij
    · obtain ⟨k, d⟩ := e
      rw [← AList.mem_lookup_iff, Option.mem_def, h.lookup, Option.ite_none_right_eq_some]
      simp only [mem_map, mem_filter, mem_range, contains_iff_mem,
        Option.some.injEq]
      constructor
      · rintro ⟨hk, rfl⟩
        exact ⟨k, hk, rfl⟩
      · rintro ⟨j, hj, heq⟩
        cases heq
        exact ⟨hj, rfl⟩
  rw [Outgoing.dataBytes_received hm, partBytes, (hperm.map _).sum_eq, map_map]
  rfl

end Holds

/-! ## What the reassembler holds -/

section Tracks

variable {r₀ r s : Reassembler} {msgs : List Outgoing} {fed : List Bytes} {m m' : Outgoing}
  {b : Bytes} {k now : Nat}

/-- Nothing the reassembler remembers is older than its timeout. -/
def Unexpired (r : Reassembler) (now : Nat) : Prop :=
  (∀ e ∈ r.buffers.entries, now - e.2.firstSeen ≤ r.timeout) ∧
    ∀ e ∈ r.evictedOrder, now - e.2 ≤ r.timeout

instance decidableUnexpired (r : Reassembler) (now : Nat) : Decidable (r.Unexpired now) :=
  inferInstanceAs (Decidable (_ ∧ _))

/-- A chunk that fits is stored without evicting for its bytes. -/
theorem accept_of_fits {c : Chunk} (hsize : c.data.length ≤ r.maxChunkPayload)
    (hroom : ∀ M, r.maxBufferedBytes = some M → r.bytes + c.data.length ≤ M) (now : Nat) :
    r.accept c now = (r.openPartial c now).store c := by
  rw [accept, if_neg (not_lt.mpr hsize)]
  cases hM : r.maxBufferedBytes with
  | none => rfl
  | some M =>
    have hfits := hroom M hM
    have hmake : makeRoom c.fragmentId c.data.length M now (r.buffers.entries.length + 1) r =
        (r, true) := by
      rw [makeRoom, if_neg (not_lt.mpr hfits)]
    dsimp only
    rw [if_neg (by omega), hmake]
    rfl

theorem gc_of_unexpired (h : r.Unexpired now) : r.gc now = r := by
  have hexpire : expireEvicted r.timeout now r.evicted r.evictedOrder =
      (r.evicted, r.evictedOrder) := by
    cases horder : r.evictedOrder with
    | nil => rfl
    | cons e rest =>
      have hle := h.2 e (horder ▸ mem_cons_self)
      rw [expireEvicted, if_neg (not_lt.mpr hle)]
  have hstale : r.stale now = [] := by
    rw [stale, map_eq_nil_iff, filter_eq_nil_iff]
    intro e he
    simpa using h.1 e he
  rw [gc, hexpire]
  rw [hstale, foldl_nil]

/-- Messages with ids of their own, whose chunks are within the limits of the reassembler. -/
structure Batch (r₀ : Reassembler) (msgs : List Outgoing) : Prop where
  nodup : (msgs.map Outgoing.fid).Nodup
  accepted : ∀ m ∈ msgs, m.Accepted
  fragments : ∀ m ∈ msgs, m.chunks.length ≤ r₀.maxFragments
  sizes : ∀ m ∈ msgs, ∀ b ∈ m.chunks, (chunkData b).length ≤ r₀.maxChunkPayload

theorem Batch.eq_of_fid (h : Batch r₀ msgs) (hm : m ∈ msgs) (hm' : m' ∈ msgs)
    (hfid : m.fid = m'.fid) : m = m' :=
  inj_on_of_nodup_map h.nodup hm hm' hfid

/-- A chunk belongs to one message. -/
theorem Batch.eq_of_chunk (h : Batch r₀ msgs) (hm : m ∈ msgs) (hm' : m' ∈ msgs)
    (hb : b ∈ m.chunks) (hb' : b ∈ m'.chunks) : m = m' := by
  obtain ⟨k, hk, rfl⟩ := (Outgoing.mem_chunks (h.accepted m hm)).mp hb
  obtain ⟨k', hk', heq⟩ := (Outgoing.mem_chunks (h.accepted m' hm')).mp hb'
  exact h.eq_of_fid hm hm'
    (Outgoing.chunk_inj (h.accepted m hm) (h.accepted m' hm') hk hk' heq.symm).1

/-- The reassembler holds what has arrived of every message it has not evicted. -/
structure Tracks (r₀ : Reassembler) (msgs : List Outgoing) (r : Reassembler)
    (fed : List Bytes) : Prop where
  inv : Inv r
  limits : SameLimits r₀ r
  known : ∀ fid, fid ∈ r.buffers ∨ fid ∈ r.evicted → ∃ m ∈ msgs, m.fid = fid
  held : ∀ m ∈ msgs, m.fid ∉ r.evicted → m.Waiting fed →
    ∃ q, r.buffers.lookup m.fid = some q ∧ Holds m fed q
  idle : ∀ m ∈ msgs, ¬ m.Waiting fed → m.fid ∉ r.buffers

/-- A reassembler fed from the start tracks every message. -/
theorem tracks_start (h : Inv r₀) (hbuffers : r₀.buffers = ∅) (hevicted : r₀.evicted = ∅) :
    Tracks r₀ msgs r₀ [] where
  inv := h
  limits := .refl r₀
  known := fun fid hfid => by
    rw [hbuffers, hevicted] at hfid
    exact hfid.elim (fun hmem => absurd hmem (AList.notMem_empty fid))
      fun hmem => absurd hmem (AList.notMem_empty fid)
  held := fun m _ _ hw => by
    obtain ⟨⟨b, -, hb⟩, -⟩ := hw
    exact absurd hb not_mem_nil
  idle := fun m _ _ hmem => by
    rw [hbuffers] at hmem
    exact absurd hmem (AList.notMem_empty _)

/-- A step that concerns one message, at the arrival of one of its chunks. -/
theorem Tracks.update (hbatch : Batch r₀ msgs) (h : Tracks r₀ msgs r fed) (hm : m ∈ msgs)
    (hb : b ∈ m.chunks) (hinv : Inv s) (hlimits : SameLimits r s) (hevicted : s.evicted = r.evicted)
    (hothers : ∀ fid, fid ≠ m.fid → s.buffers.lookup fid = r.buffers.lookup fid)
    (hheld : m.fid ∉ s.evicted → m.Waiting (fed ++ [b]) →
      ∃ q, s.buffers.lookup m.fid = some q ∧ Holds m (fed ++ [b]) q)
    (hidle : ¬ m.Waiting (fed ++ [b]) → m.fid ∉ s.buffers) :
    Tracks r₀ msgs s (fed ++ [b]) where
  inv := hinv
  limits := h.limits.trans hlimits
  known := fun fid hfid => by
    by_cases heq : fid = m.fid
    · exact ⟨m, hm, heq.symm⟩
    · rw [hevicted, mem_buffers_iff, hothers fid heq, ← mem_buffers_iff] at hfid
      exact h.known fid hfid
  held := fun m' hm' halive hw => by
    by_cases heq : m' = m
    · subst heq
      exact hheld halive hw
    · have hb' : b ∉ m'.chunks := fun hmem => heq (hbatch.eq_of_chunk hm' hm hmem hb)
      obtain ⟨q, hq, hholds⟩ := h.held m' hm' (hevicted ▸ halive)
        ((Outgoing.waiting_append hb').mp hw)
      rw [← hothers _ fun hfid => heq (hbatch.eq_of_fid hm' hm hfid)] at hq
      exact ⟨q, hq, hholds.append_other (hbatch.accepted m' hm') hb'⟩
  idle := fun m' hm' hw => by
    by_cases heq : m' = m
    · subst heq
      exact hidle hw
    · have hb' : b ∉ m'.chunks := fun hmem => heq (hbatch.eq_of_chunk hm' hm hmem hb)
      have hnot := h.idle m' hm' fun hw' => hw ((Outgoing.waiting_append hb').mpr hw')
      rwa [mem_buffers_iff, hothers _ fun hfid => heq (hbatch.eq_of_fid hm' hm hfid),
        ← mem_buffers_iff]

/-- A chunk that changes nothing: it is a repetition, or its message is done or lost. -/
theorem Tracks.same (hbatch : Batch r₀ msgs) (h : Tracks r₀ msgs r fed) (hm : m ∈ msgs)
    (hb : b ∈ m.chunks)
    (hcase : b ∈ fed ∨ m.fid ∉ r.buffers ∧ (m.fid ∈ r.evicted ∨ m.Complete (fed ++ [b]))) :
    Tracks r₀ msgs r (fed ++ [b]) := by
  refine h.update hbatch hm hb h.inv (.refl r) rfl (fun _ _ => rfl) (fun halive hw => ?_)
    fun hw => ?_
  · rcases hcase with hfed | ⟨-, hgone | hdone⟩
    · have hw' : m.Waiting fed := by
        refine ⟨⟨b, hb, hfed⟩, fun hcomplete => hw.2 fun b' hb' => ?_⟩
        exact mem_append_left _ (hcomplete b' hb')
      obtain ⟨q, hq, hholds⟩ := h.held m hm halive hw'
      exact ⟨q, hq, hholds.append_mem hfed⟩
    · exact absurd hgone halive
    · exact absurd hdone hw.2
  · rcases hcase with hfed | ⟨hnot, -⟩
    · refine h.idle m hm fun hw' => hw ⟨⟨b, hb, mem_append_left _ hfed⟩, fun hc => ?_⟩
      refine hw'.2 fun b' hb' => ?_
      rcases mem_append.mp (hc b' hb') with hmem | hmem
      · exact hmem
      · rwa [mem_singleton.mp hmem]
    · exact hnot

theorem Tracks.waiting_of_mem (h : Tracks r₀ msgs r fed) (hm : m ∈ msgs) (hmem : m.fid ∈ r.buffers) :
    m.Waiting fed := by
  by_contra hw
  exact h.idle m hm hw hmem

/-- The partial of a message, if there is one, has what arrived of it. -/
theorem Tracks.holds (h : Tracks r₀ msgs r fed) (hm : m ∈ msgs) {q : Partial}
    (hq : r.buffers.lookup m.fid = some q) : Holds m fed q := by
  have hmem := mem_of_lookup hq
  obtain ⟨q', hq', hholds⟩ := h.held m hm (h.inv.apart _ hmem) (h.waiting_of_mem hm hmem)
  rw [hq'] at hq
  exact Option.some.inj hq ▸ hholds

theorem Tracks.idle_single (hbatch : Batch r₀ msgs) (h : Tracks r₀ msgs r fed) (hm : m ∈ msgs)
    (hone : m.parts.length = 1) : m.fid ∉ r.buffers := by
  refine h.idle m hm fun hw => ?_
  have := hw.several (hbatch.accepted m hm)
  omega

/-! ## The ways a feed can go -/

section Feed

variable (hbatch : Batch r₀ msgs) (h : Tracks r₀ msgs r fed) (hm : m ∈ msgs)
  (hk : k < m.parts.length) (hclock : r.Unexpired now)
include hbatch hm hclock

include hk in
theorem feed_of_evicted (hgone : m.fid ∈ r.evicted) : r.feed (m.chunk k) now = (r, none) := by
  rw [feed, Outgoing.parseChunk_chunk (hbatch.accepted m hm) hk]
  dsimp only
  split
  · rfl
  · rw [gc_of_unexpired hclock, if_pos (show (m.parsed k).fragmentId ∈ r.evicted from hgone)]

include h

/-- Expiry takes nothing away and no partial is reset, so a call goes on with the state it found. -/
theorem Tracks.feed_settled (halive : m.fid ∉ r.evicted) :
    (m.parsed k).total ≤ r.maxFragments ∧ (m.parsed k).fragmentId ∉ (r.gc now).evicted ∧
      r.settled (m.parsed k) now = r := by
  refine ⟨?_, ?_, ?_⟩
  · rw [h.limits.maxFragments]
    show m.parts.length ≤ _
    rw [← Outgoing.length_chunks (hbatch.accepted m hm)]
    exact hbatch.fragments m hm
  · rwa [gc_of_unexpired hclock]
  · rw [settled, gc_of_unexpired hclock]
    cases hq : r.buffers.lookup (m.parsed k).fragmentId with
    | none => rfl
    | some q => exact if_neg (not_not.mpr (h.holds hm hq).total)

include hk

theorem Tracks.feed_of_some (halive : m.fid ∉ r.evicted) {q : Partial}
    (hq : r.buffers.lookup m.fid = some q) :
    r.feed (m.chunk k) now =
      if k ∈ q.parts then (r, none) else r.accept (m.parsed k) now := by
  have hq' : r.buffers.lookup (m.parsed k).fragmentId = some q := hq
  obtain ⟨hmax, hfid, hsettled⟩ := h.feed_settled hbatch hm hclock halive (k := k)
  rw [feed_eq (Outgoing.parseChunk_chunk (hbatch.accepted m hm) hk) hmax hfid, hsettled, hq']
  rfl

theorem Tracks.feed_of_none (halive : m.fid ∉ r.evicted) (hq : r.buffers.lookup m.fid = none) :
    r.feed (m.chunk k) now =
      if m.parts.length = 1 then (r, some (m.part k)) else r.accept (m.parsed k) now := by
  have hq' : r.buffers.lookup (m.parsed k).fragmentId = none := hq
  obtain ⟨hmax, hfid, hsettled⟩ := h.feed_settled hbatch hm hclock halive (k := k)
  rw [feed_eq (Outgoing.parseChunk_chunk (hbatch.accepted m hm) hk) hmax hfid, hsettled, hq']
  rfl

theorem Tracks.feed_repeat (halive : m.fid ∉ r.evicted) (hfed : m.chunk k ∈ fed)
    (hnot : ¬ m.Complete fed) : r.feed (m.chunk k) now = (r, none) := by
  have hchunk := (Outgoing.mem_chunks (hbatch.accepted m hm)).mpr ⟨k, hk, rfl⟩
  obtain ⟨q, hq, hholds⟩ := h.held m hm halive ⟨⟨_, hchunk, hfed⟩, hnot⟩
  rw [h.feed_of_some hbatch hm hk hclock halive hq]
  exact if_pos (hholds.mem_iff.mpr ⟨hk, hfed⟩)

theorem Tracks.feed_single (halive : m.fid ∉ r.evicted) (hone : m.parts.length = 1) :
    r.feed (m.chunk k) now = (r, some m.payload) := by
  have haccepted := hbatch.accepted m hm
  have hnone : r.buffers.lookup m.fid = none :=
    AList.lookup_eq_none.mpr (h.idle_single hbatch hm hone)
  have hpart : m.part k = m.payload := by
    rw [← Outgoing.flatten_parts haccepted, ← Outgoing.map_part, hone, show k = 0 by omega]
    exact (append_nil _).symm
  rw [h.feed_of_none hbatch hm hk hclock halive hnone, if_pos hone, hpart]

theorem Tracks.feed_new (halive : m.fid ∉ r.evicted) (hnew : m.chunk k ∉ fed)
    (hseveral : 2 ≤ m.parts.length) :
    r.feed (m.chunk k) now = r.accept (m.parsed k) now := by
  cases hq : r.buffers.lookup m.fid with
  | none =>
    rw [h.feed_of_none hbatch hm hk hclock halive hq]
    exact if_neg (by omega)
  | some q =>
    rw [h.feed_of_some hbatch hm hk hclock halive hq]
    exact if_neg fun hmem => hnew ((h.holds hm hq).mem_iff.mp hmem).2

end Feed

/-! ## Storing a chunk -/

section Place

variable (hbatch : Batch r₀ msgs) (h : Tracks r₀ msgs r fed) (hm : m ∈ msgs)
  (hk : k < m.parts.length) (hnew : m.chunk k ∉ fed) (hseveral : 2 ≤ m.parts.length)
  (halive : m.fid ∉ r.evicted)
include h hm hnew halive

theorem Tracks.missing (hk : k < m.parts.length) (hseveral : 2 ≤ m.parts.length) :
    Missing r (m.parsed k) where
  several := hseveral
  below := hk
  alive := halive
  fresh := fun _ hq =>
    ⟨(h.holds hm hq).total, fun hmem => hnew ((h.holds hm hq).mem_iff.mp hmem).2⟩

include hbatch hk

/-- With a slot to spare, opening adds at most the partial of the message. -/
theorem Tracks.openPartial (hslot : m.fid ∈ r.buffers ∨ r.pending < r.limit) (now : Nat) :
    ∃ q, Holds m fed q ∧ (r.openPartial (m.parsed k) now).evicted = r.evicted ∧
      ∀ fid, (r.openPartial (m.parsed k) now).buffers.lookup fid =
        if fid = m.fid then some q else r.buffers.lookup fid := by
  have haccepted := hbatch.accepted m hm
  have hchunk := (Outgoing.mem_chunks haccepted).mpr ⟨k, hk, rfl⟩
  by_cases hmem : m.fid ∈ r.buffers
  · obtain ⟨q, hq⟩ := (mem_buffers_iff r _).mp hmem
    rw [openPartial_of_mem hmem]
    refine ⟨q, h.holds hm hq, rfl, fun fid => ?_⟩
    split
    · next heq => rw [heq, hq]
    · rfl
  · have hroom : r.slot now = r :=
      if_neg (not_le.mpr (hslot.resolve_left hmem))
    have hfresh : ∀ b ∈ m.chunks, b ∉ fed := by
      intro b hb hfed
      obtain ⟨q, hq, -⟩ := h.held m hm halive ⟨⟨b, hb, hfed⟩, fun hc => hnew (hc _ hchunk)⟩
      exact hmem (mem_of_lookup hq)
    rw [openPartial_of_notMem hmem, hroom]
    exact ⟨_, holds_opened haccepted hfresh now r.nextOrder, rfl, fun fid => lookup_insert_ite⟩

include hseveral

/-- Opening and storing a missing chunk, with room for it, answers the message if it was the last
one. -/
theorem Tracks.place
    (hroom : ∀ M, r.maxBufferedBytes = some M → r.bytes + (m.part k).length ≤ M)
    (hslot : m.fid ∈ r.buffers ∨ r.pending < r.limit) (now : Nat) :
    Tracks r₀ msgs ((r.openPartial (m.parsed k) now).store (m.parsed k)).1
        (fed ++ [m.chunk k]) ∧
      ((r.openPartial (m.parsed k) now).store (m.parsed k)).2 =
        (if m.Complete (fed ++ [m.chunk k]) then some m.payload else none) ∧
      ((r.openPartial (m.parsed k) now).store (m.parsed k)).1.evicted = r.evicted ∧
      ∀ fid, fid ≠ m.fid →
        ((r.openPartial (m.parsed k) now).store (m.parsed k)).1.buffers.lookup fid =
          r.buffers.lookup fid := by
  have haccepted := hbatch.accepted m hm
  have hchunk : m.chunk k ∈ m.chunks := (Outgoing.mem_chunks haccepted).mpr ⟨k, hk, rfl⟩
  obtain ⟨q, hholds, hevicted, hlookup⟩ :=
    h.openPartial hbatch hm hk hnew halive hslot now
  obtain ⟨hinv, hlimits, hbytes, -⟩ :=
    h.inv.openPartial (h.missing hm hnew halive hk hseveral) now
  generalize r.openPartial (m.parsed k) now = r₁ at hevicted hlookup hinv hlimits hbytes ⊢
  have hq : r₁.buffers.lookup (m.parsed k).fragmentId = some q := by
    rw [hlookup]
    exact if_pos rfl
  have hfresh : (m.parsed k).seq ∉ q.parts := fun hmem => hnew (hholds.mem_iff.mp hmem).2
  obtain ⟨hinv', hlimits'⟩ := hinv.store hq hholds.total hk hfresh fun M hM => by
    have hfits : r.bytes + (m.part k).length ≤ M := hroom M (hlimits.maxBufferedBytes ▸ hM)
    show r₁.bytes + (m.part k).length ≤ M
    omega
  have hadd : Holds m (fed ++ [m.chunk k]) (addTo q (m.parsed k)) := hholds.add haccepted hk
  have hfull : (addTo q (m.parsed k)).parts.entries.length = q.total ↔
      m.Complete (fed ++ [m.chunk k]) := hadd.full_iff haccepted
  by_cases hlast : m.Complete (fed ++ [m.chunk k])
  · have hothers : ∀ fid, fid ≠ m.fid →
        (r₁.store (m.parsed k)).1.buffers.lookup fid = r.buffers.lookup fid := by
      intro fid hfid
      rw [store_of_full hq (hfull.mpr hlast)]
      show (r₁.buffers.erase m.fid).lookup fid = _
      rw [lookup_erase_ite, if_neg hfid, hlookup, if_neg hfid]
    have hsame : (r₁.store (m.parsed k)).1.evicted = r.evicted := by
      rw [store_of_full hq (hfull.mpr hlast)]
      exact hevicted
    refine ⟨h.update hbatch hm hchunk hinv' (hlimits.trans hlimits') hsame hothers
      (fun _ hw => absurd hlast hw.2) fun _ => ?_, ?_, hsame, hothers⟩
    · rw [store_of_full hq (hfull.mpr hlast)]
      exact fun hmem => (AList.mem_erase.mp hmem).1 rfl
    · rw [store_of_full hq (hfull.mpr hlast), if_pos hlast]
      exact congrArg some (hadd.assemble_eq haccepted hlast)
  · have hmore : (addTo q (m.parsed k)).parts.entries.length ≠ q.total :=
      fun heq => hlast (hfull.mp heq)
    have hothers : ∀ fid, fid ≠ m.fid →
        (r₁.store (m.parsed k)).1.buffers.lookup fid = r.buffers.lookup fid := by
      intro fid hfid
      rw [store_of_lacks hq hmore]
      show (r₁.buffers.insert m.fid _).lookup fid = _
      rw [lookup_insert_ite, if_neg hfid, hlookup, if_neg hfid]
    have hsame : (r₁.store (m.parsed k)).1.evicted = r.evicted := by
      rw [store_of_lacks hq hmore]
      exact hevicted
    have hwaits : m.Waiting (fed ++ [m.chunk k]) :=
      ⟨⟨_, hchunk, mem_append_right _ mem_cons_self⟩, hlast⟩
    refine ⟨h.update hbatch hm hchunk hinv' (hlimits.trans hlimits') hsame hothers
      (fun _ _ => ?_) (fun hw => absurd hwaits hw), ?_, hsame, hothers⟩
    · rw [store_of_lacks hq hmore]
      exact ⟨_, AList.lookup_insert _, hadd⟩
    · rw [store_of_lacks hq hmore, if_neg hlast]

end Place

end Tracks

/-! ## Runs -/

section Runs

variable {r : Reassembler} {feeds : List (Bytes × Nat)} {i : Nat}

/-- The chunks of the first `i` feeds. -/
def fedBefore (feeds : List (Bytes × Nat)) (i : Nat) : List Bytes := (feeds.take i).map Prod.fst

/-- The state after the first `i` feeds. -/
def stateAt (r : Reassembler) (feeds : List (Bytes × Nat)) (i : Nat) : Reassembler :=
  (r.replay (feeds.take i)).1

/-- What the `i`-th feed returns. -/
def answerAt (r : Reassembler) (feeds : List (Bytes × Nat)) (i : Nat) : Option Bytes :=
  (feeds[i]?).bind fun e => ((r.stateAt feeds i).feed e.1 e.2).2

theorem fedBefore_succ (hi : i < feeds.length) :
    fedBefore feeds (i + 1) = fedBefore feeds i ++ [feeds[i].1] := by
  rw [fedBefore, take_succ_eq_append_getElem hi, map_append]
  rfl

theorem fedBefore_length : fedBefore feeds feeds.length = feeds.map Prod.fst := by
  rw [fedBefore, take_length]

theorem fedBefore_subset {j : Nat} (hij : i ≤ j) : fedBefore feeds i ⊆ fedBefore feeds j :=
  map_subset _ (take_subset_take_left _ hij)

theorem stateAt_succ (hi : i < feeds.length) :
    r.stateAt feeds (i + 1) = ((r.stateAt feeds i).feed feeds[i].1 feeds[i].2).1 := by
  rw [stateAt, take_succ_eq_append_getElem hi, replay_append]
  rfl

theorem replay_take_succ (hi : i < feeds.length) :
    (r.replay (feeds.take (i + 1))).2 =
      (r.replay (feeds.take i)).2 ++ (r.answerAt feeds i).toList := by
  rw [take_succ_eq_append_getElem hi, replay_append, answerAt, getElem?_eq_getElem hi]
  exact congrArg _ (append_nil _)

theorem answerAt_eq (hi : i < feeds.length) :
    r.answerAt feeds i = ((r.stateAt feeds i).feed feeds[i].1 feeds[i].2).2 := by
  rw [answerAt, getElem?_eq_getElem hi]
  rfl

end Runs

end Reassembler

end Telesthete.Wire
