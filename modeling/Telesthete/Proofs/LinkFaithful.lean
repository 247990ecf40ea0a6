import Telesthete.Relay.Federation

/-!
# What a link delivers

The queue of a link holds frames and advertisements, `Queued`, and its writer and
the remote reader are inverse to each other message by message, so that at every
moment the reader has handled the entries that have arrived whole. The exception is
in telling frames and advertisements apart: a frame of the band whose id is
`bandsMarker` is written as an advertisement. Nothing is injected for it, and its
bytes, read as a list of bands, replace the bands that were advertised.
-/

namespace Telesthete.Relay

open Telesthete.Lib List

variable {t : UInt8} {payload frame : Bytes} {band : BandId} {snapshot : List BandId}
  {l : LinkReader}

/-! ## One message -/

/-- A message as bytes. -/
def msgBytes (msg : UInt8 × Bytes) : Bytes := toBe 4 (1 + msg.2.length) ++ msg.1 :: msg.2

theorem writeMsg_eq (h : 1 + payload.length ≤ maxMsg) :
    writeMsg t payload = some (msgBytes (t, payload)) := by
  have hmod : (1 + payload.length) % 2 ^ 32 ≤ maxMsg := le_trans (Nat.mod_le _ _) h
  unfold writeMsg
  rw [if_neg (not_lt.mpr hmod)]
  rfl

theorem length_msgBytes {msg : UInt8 × Bytes} : (msgBytes msg).length = 4 + (1 + msg.2.length) := by
  simp [msgBytes]
  omega

theorem ofBe_len {n : Nat} (h : n ≤ maxMsg) : ofBe (toBe 4 n) = n :=
  ofBe_toBe (lt_of_le_of_lt h (by decide))

/-- The reader takes a message for what was written, and waits while it is incomplete. -/
theorem encodes_msgBytes {msg : UInt8 × Bytes} (h : 1 + msg.2.length ≤ maxMsg) :
    Encodes readMsgSplit (msgBytes msg) msg := by
  obtain ⟨t, payload⟩ := msg
  have hlen : ofBe (toBe 4 (1 + payload.length)) = 1 + payload.length := ofBe_len h
  have hbounds : ¬ (1 + payload.length = 0 ∨ maxMsg < 1 + payload.length) := by
    have hle : 1 + payload.length ≤ maxMsg := h
    omega
  refine ⟨by rw [length_msgBytes]; omega, fun rest => ?_, fun n hn => ?_⟩
  · have hbytes : msgBytes (t, payload) ++ rest =
        toBe 4 (1 + payload.length) ++ (t :: (payload ++ rest)) := by simp [msgBytes]
    have htake : (msgBytes (t, payload) ++ rest).take 4 = toBe 4 (1 + payload.length) := by
      rw [hbytes, take_left' (length_toBe _ _)]
    have hdrop : (msgBytes (t, payload) ++ rest).drop 4 = t :: (payload ++ rest) := by
      rw [hbytes, drop_left' (length_toBe _ _)]
    have hbuf : (t :: (payload ++ rest)).take (1 + payload.length) = t :: payload := by
      rw [Nat.add_comm, take_succ_cons, take_left' rfl]
    have hrest : (t :: (payload ++ rest)).drop (1 + payload.length) = rest := by
      rw [Nat.add_comm, drop_succ_cons, drop_left' rfl]
    have hfour : ¬ (msgBytes (t, payload) ++ rest).length < 4 := by
      rw [length_append, length_msgBytes]
      omega
    unfold readMsgSplit
    rw [if_neg hfour]
    simp only [htake, hdrop, hlen, hbuf, hrest]
    rw [if_neg hbounds, if_neg (by simp; omega)]
    rfl
  · rw [length_msgBytes] at hn
    unfold readMsgSplit
    by_cases hfour : n < 4
    · rw [if_pos]
      rw [length_take]
      omega
    · have htake : ((msgBytes (t, payload)).take n).take 4 = toBe 4 (1 + payload.length) := by
        rw [take_take, Nat.min_eq_left (Nat.le_of_not_lt hfour)]
        exact take_left' (length_toBe _ _)
      have hshort : ((((msgBytes (t, payload)).take n).drop 4).take (1 + payload.length)).length <
          1 + payload.length := by
        simp only [length_take, length_drop, length_msgBytes]
        dsimp only at hn ⊢
        omega
      rw [if_neg (by rw [length_take, length_msgBytes]; omega)]
      simp only [htake, hlen]
      rw [if_neg hbounds, if_pos hshort]

theorem readMsgSplit_nil : readMsgSplit [] = none := rfl

/-! ## Advertisements -/

theorem decodeBandIds_flatMap (bands : List BandId) (set : Finset BandId) :
    decodeBandIds bands.length (bands.flatMap BandId.bytes) set = set ∪ bands.toFinset := by
  induction bands generalizing set with
  | nil => simp [decodeBandIds]
  | cons band bands ih =>
    have hlen : band.bytes.length = bandIdLen := band.length_bytes
    have hle : bandIdLen ≤ ((band :: bands).flatMap BandId.bytes).length := by
      simp [hlen]
    have htake : ((band :: bands).flatMap BandId.bytes).take bandIdLen = band.bytes := by
      rw [flatMap_cons, take_left' hlen]
    have hdrop : ((band :: bands).flatMap BandId.bytes).drop bandIdLen =
        bands.flatMap BandId.bytes := by
      rw [flatMap_cons, drop_left' hlen]
    rw [length_cons, decodeBandIds, dif_pos hle]
    simp only [htake, hdrop]
    rw [ih]
    ext b
    simp only [Finset.mem_union, Finset.mem_insert, mem_toFinset, mem_cons]
    tauto

theorem length_flatMap_bytes (bands : List BandId) :
    (bands.flatMap BandId.bytes).length = 16 * bands.length := by
  induction bands with
  | nil => rfl
  | cons band bands ih =>
    have hband : band.bytes.length = 16 := band.length_bytes
    rw [flatMap_cons, length_append, length_cons, ih, hband]
    omega

/-- A snapshot that fits its count is read back as the set it is. -/
theorem decodeBands_encodeBands (h : snapshot.length ≤ 65535) :
    decodeBands (encodeBands snapshot) = snapshot.toFinset := by
  have hbytes : encodeBands snapshot =
      toBe 2 snapshot.length ++ snapshot.flatMap BandId.bytes := by
    rw [encodeBands, Nat.min_eq_left h, take_of_length_le h]
  have hcount : ofBe (toBe 2 snapshot.length) = snapshot.length :=
    ofBe_toBe (lt_of_le_of_lt h (by decide))
  have htwo : ¬ (toBe 2 snapshot.length ++ snapshot.flatMap BandId.bytes).length < 2 := by
    rw [length_append, length_toBe]
    omega
  unfold decodeBands
  rw [hbytes, if_neg htwo, take_left' (length_toBe _ _),
    drop_left' (length_toBe _ _), hcount, decodeBandIds_flatMap]
  simp

/-! ## The queue -/

/-- What is queued on a link: a frame of a band, or a snapshot of the local bands. -/
inductive Queued where
  | frame (band : BandId) (frame : Bytes)
  | bands (snapshot : List BandId)

namespace Queued

/-- The entry of the writer's queue. -/
def entry : Queued → BandId × Bytes
  | .frame band frame => (band, frame)
  | .bands snapshot => (bandsMarker, encodeBands snapshot)

/-- The frame fits one message, and the snapshot its count. -/
def Fits : Queued → Prop
  | .frame _ frame => 1 + (bandIdLen + 4 + frame.length) ≤ maxMsg
  | .bands snapshot => snapshot.length ≤ 65535

/-- The message that is written. -/
def message : Queued → UInt8 × Bytes
  | .frame band frame =>
    if band = bandsMarker then (tBands, frame)
    else (tRelay, band.bytes ++ toBe 4 frame.length ++ frame)
  | .bands snapshot => (tBands, encodeBands snapshot)

/-- The frame that is injected at the remote, if one is. -/
def relayed : Queued → Option (BandId × Bytes)
  | .frame band frame => if band = bandsMarker then none else some (band, frame)
  | .bands _ => none

/-- The bands advertised after an entry, given those before. -/
def advertise (set : Finset BandId) : Queued → Finset BandId
  | .frame band frame => if band = bandsMarker then decodeBands frame else set
  | .bands snapshot => snapshot.toFinset

variable {q : Queued}

theorem length_message_le (h : q.Fits) : 1 + q.message.2.length ≤ maxMsg := by
  cases q with
  | frame band frame =>
    have hband := band.length_bytes
    have hfits : 1 + (bandIdLen + 4 + frame.length) ≤ maxMsg := h
    by_cases hmarker : band = bandsMarker
    · simp only [message, if_pos hmarker]
      omega
    · simp only [message, if_neg hmarker, length_append, length_toBe]
      omega
  | bands snapshot =>
    have hsnapshot : snapshot.length ≤ 65535 := h
    have hmax : maxMsg = 4194304 := rfl
    have hlen : (encodeBands snapshot).length ≤ 2 + 16 * 65535 := by
      rw [encodeBands, length_append, length_toBe, length_flatMap_bytes, length_take]
      omega
    show 1 + (encodeBands snapshot).length ≤ maxMsg
    omega

theorem writeEntry_entry (h : q.Fits) : writeEntry q.entry = some (msgBytes q.message) := by
  have hlen := length_message_le h
  cases q with
  | frame band frame =>
    unfold writeEntry entry message at *
    by_cases hband : band = bandsMarker
    · simp only [if_pos hband] at hlen ⊢
      exact writeMsg_eq hlen
    · simp only [if_neg hband] at hlen ⊢
      exact writeMsg_eq hlen
  | bands snapshot =>
    unfold writeEntry entry
    rw [if_pos rfl]
    exact writeMsg_eq hlen

/-- The writer gets through its queue. -/
theorem writer_entries (items : List Queued) (h : ∀ q ∈ items, q.Fits) :
    writer (items.map entry) = (items.map message).flatMap msgBytes := by
  induction items with
  | nil => rfl
  | cons q items ih =>
    rw [map_cons, writer, writeEntry_entry (h q mem_cons_self)]
    simp only
    rw [ih fun q hq => h q (mem_cons_of_mem _ hq)]
    rfl

end Queued

/-- A relayed frame is injected under its band. -/
theorem LinkReader.relay_eq (hactive : l.active = true) (hframe : frame.length ≤ maxMsg) :
    l.relay (band.bytes ++ toBe 4 frame.length ++ frame) =
      { l with injected := l.injected ++ [(band, frame)] } := by
  have hband : band.bytes.length = bandIdLen := band.length_bytes
  have hhead : (band.bytes ++ toBe 4 frame.length).length = bandIdLen + 4 := by
    rw [length_append, length_toBe, hband]
  have hlen : (band.bytes ++ toBe 4 frame.length ++ frame).length =
      bandIdLen + 4 + frame.length := by
    rw [length_append, hhead]
  have htake : (band.bytes ++ toBe 4 frame.length ++ frame).take bandIdLen = band.bytes := by
    rw [append_assoc, take_left' hband]
  have hflen : ofBe (((band.bytes ++ toBe 4 frame.length ++ frame).drop bandIdLen).take 4) =
      frame.length := by
    rw [append_assoc, drop_left' hband, take_left' (length_toBe _ _)]
    exact ofBe_len hframe
  have hdrop : (band.bytes ++ toBe 4 frame.length ++ frame).drop (bandIdLen + 4) = frame :=
    drop_left' hhead
  unfold relay
  rw [dif_pos (by rw [hlen]; omega), if_pos hactive]
  simp only [htake, hflen, hdrop, hlen, lt_irrefl, if_false, take_length]

theorem LinkReader.handle_message {q : Queued} (hactive : l.active = true) (h : q.Fits) :
    l.handle q.message =
      { l with
        bands := q.advertise l.bands
        injected := l.injected ++ q.relayed.toList } := by
  cases q with
  | frame band frame =>
    have hfits : 1 + (bandIdLen + 4 + frame.length) ≤ maxMsg := h
    by_cases hband : band = bandsMarker
    · simp [handle, Queued.message, Queued.advertise, Queued.relayed, hband]
    · have htype : ¬ tRelay = tBands := by decide
      simp only [handle, Queued.message, Queued.advertise, Queued.relayed, if_neg hband,
        if_neg htype, if_true]
      exact relay_eq hactive (by omega)
  | bands snapshot =>
    have hsnapshot : snapshot.length ≤ 65535 := h
    simp [handle, Queued.message, Queued.advertise, Queued.relayed,
      decodeBands_encodeBands hsnapshot]

/-- Handling the messages of some entries, one after the other. -/
theorem LinkReader.foldl_handle (items : List Queued) (hfits : ∀ q ∈ items, q.Fits) (l : LinkReader)
    (hactive : l.active = true) :
    (items.map Queued.message).foldl handle l =
      ⟨l.active, items.foldl Queued.advertise l.bands,
        l.injected ++ items.filterMap Queued.relayed⟩ := by
  induction items generalizing l with
  | nil => simp
  | cons q items ih =>
    have hq := handle_message hactive (hfits q mem_cons_self)
    rw [map_cons, foldl_cons, ih (fun q hq => hfits q (mem_cons_of_mem _ hq)) _
      (by rw [hq]; exact hactive), hq]
    cases hrelayed : q.relayed with
    | none => simp [hrelayed]
    | some pair => simp [hrelayed]

/-- Whatever number of bytes of a link has arrived, the reader has handled the entries that have
arrived whole: each frame has been injected under its band with its bytes, and the advertised bands
are those of the last snapshot. This fails for a frame of the band `bandsMarker`: it is not
injected, and replaces the advertised bands by whatever its bytes spell. -/
theorem link_faithful (items : List Queued) (hfits : ∀ q ∈ items, q.Fits) (n : Nat)
    (hn : n ≤ (writer (items.map Queued.entry)).length) :
    ∃ k ≤ items.length,
      (writer ((items.take k).map Queued.entry)).length ≤ n ∧
      (k < items.length → n < (writer ((items.take (k + 1)).map Queued.entry)).length) ∧
      (LinkReader.receive true ((writer (items.map Queued.entry)).take n)).injected =
        (items.take k).filterMap Queued.relayed ∧
      (LinkReader.receive true ((writer (items.map Queued.entry)).take n)).bands =
        (items.take k).foldl Queued.advertise ∅ := by
  have hbytes : ∀ j, writer ((items.take j).map Queued.entry) =
      (((items.map fun q => (msgBytes q.message, q.message)).take j).flatMap Prod.fst) := by
    intro j
    rw [Queued.writer_entries _ fun q hq => hfits q (mem_of_mem_take hq), ← map_take,
      flatMap_map, flatMap_map]
  have hall : writer (items.map Queued.entry) =
      (items.map fun q => (msgBytes q.message, q.message)).flatMap Prod.fst := by
    have h := hbytes items.length
    rwa [take_length, take_of_length_le (by simp)] at h
  have hmsgs : ∀ e ∈ items.map fun q => (msgBytes q.message, q.message),
      Encodes readMsgSplit e.1 e.2 := by
    intro e he
    obtain ⟨q, hq, rfl⟩ := mem_map.mp he
    exact encodes_msgBytes (Queued.length_message_le (hfits q hq))
  have hlen : ((writer (items.map Queued.entry)).take n).length = n := length_take_of_le hn
  rw [hall] at hn
  obtain ⟨k, hk, hle, hnext, hdrive⟩ := drive_take readMsgSplit_nil _ hmsgs n n
    (LinkReader.new true) (Nat.le_refl n) hn
  have hreceive : LinkReader.receive true ((writer (items.map Queued.entry)).take n) =
      ((items.take k).map Queued.message).foldl LinkReader.handle (LinkReader.new true) := by
    unfold LinkReader.receive
    rw [hlen, hall, hdrive]
    rw [← map_take, map_map]
    rfl
  rw [hreceive, LinkReader.foldl_handle _ (fun q hq => hfits q (mem_of_mem_take hq)) _ rfl]
  rw [length_map] at hk hnext
  refine ⟨k, hk, by rw [hbytes]; exact hle, fun h => by rw [hbytes]; exact hnext h, ?_, rfl⟩
  simp [LinkReader.new]

/-- An advertisement and a frame, with all bytes but the last one arrived. -/
theorem link_faithful_last_byte :
    ∃ items : List Queued, (∀ q ∈ items, q.Fits) ∧ items.length = 2 ∧
      ∃ k ≤ items.length,
        (writer ((items.take k).map Queued.entry)).length ≤ 90 ∧
        (LinkReader.receive true ((writer (items.map Queued.entry)).take 90)).injected =
          (items.take k).filterMap Queued.relayed ∧
        (LinkReader.receive true ((writer (items.map Queued.entry)).take 90)).bands =
          (items.take k).foldl Queued.advertise ∅ := by
  have hfits : ∀ q ∈ [Queued.bands [zeroBand], .frame zeroBand (List.replicate 43 0)], q.Fits := by
    intro q hq
    simp only [mem_cons, not_mem_nil, or_false] at hq
    rcases hq with rfl | rfl
    · show [zeroBand].length ≤ 65535
      decide
    · show 1 + (bandIdLen + 4 + (List.replicate 43 (0 : UInt8)).length) ≤ maxMsg
      decide
  obtain ⟨k, hk, hle, -, hinjected, hbands⟩ := link_faithful _ hfits 90 (by decide +kernel)
  exact ⟨_, hfits, rfl, k, hk, hle, hinjected, hbands⟩

/-- A frame of the band `bandsMarker`, sent after an advertisement: it is not injected, and the
band that was advertised is no longer. -/
theorem marker_frame_replaces_bands :
    ∃ (snapshot : List BandId) (frame : Bytes),
      (∀ q ∈ [Queued.bands snapshot, .frame bandsMarker frame], q.Fits) ∧
      (LinkReader.receive true (writer ([Queued.bands snapshot, .frame bandsMarker frame].map
        Queued.entry))).injected = [] ∧
      (LinkReader.receive true (writer ([Queued.bands snapshot, .frame bandsMarker frame].map
        Queued.entry))).bands ≠ snapshot.toFinset := by
  refine ⟨[zeroBand], bandsMarker.bytes ++ List.replicate 27 0, ?_, by decide +kernel,
    by decide +kernel⟩
  intro q hq
  simp only [mem_cons, not_mem_nil, or_false] at hq
  rcases hq with rfl | rfl
  · show [zeroBand].length ≤ 65535
    decide
  · show 1 + (bandIdLen + 4 + (bandsMarker.bytes ++ List.replicate 27 0).length) ≤ maxMsg
    decide

end Telesthete.Relay
