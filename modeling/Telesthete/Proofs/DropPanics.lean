import Telesthete.Drop.Panics
import Telesthete.Proofs.DropVerdict

/-!
# When a receiver does not panic

There are three ways to a panic, and all of them begin with an OFFER. A chunk
count near `2 ^ 32` makes the sum of an index and a window overflow. A size of
`2 ^ 63` or more is more than a vector can hold, which shows when the file is put
together. And when there is an index held that the OFFER does not have, as many
chunks as offered need not be the chunks offered.

Where an OFFER is none of these, the checked methods do what the unchecked ones
do, and the file is only put together when every chunk is there.
-/

namespace Telesthete.Drop

open Telesthete.Lib
open Telesthete.Band (SocketAddr)

variable {parseOffer : Bytes → Option OfferPayload} {sha256Hex : Bytes → String}
  {r : DropReceiverCore}

/-- The largest count for which no index and window overflow. -/
def maxTotal : Nat := 2 ^ 32 - maxRangeChunks

theorem splitRun?_eq {stop : Nat} (h : stop ≤ maxTotal) (fuel : Nat) :
    ∀ s, splitRun? stop fuel s = some (splitRun stop fuel s) := by
  induction fuel with
  | zero => exact fun _ => rfl
  | succ fuel ih =>
    intro s
    rw [splitRun?, splitRun]
    by_cases hs : s < stop
    · have hfits : s + maxRangeChunks < 2 ^ 32 := by
        simp only [maxTotal, maxRangeChunks] at h ⊢
        omega
      rw [if_pos hs, if_pos hs, addWindow?, if_pos hfits, Option.bind_some, ih]
      rfl
    · rw [if_neg hs, if_neg hs]

theorem foldlM_eq_some {α β : Type} {f : β → α → Option β} {g : β → α → β} {l : List α}
    (h : ∀ b, ∀ a ∈ l, f b a = some (g b a)) (b : β) : l.foldlM f b = some (l.foldl g b) := by
  induction l generalizing b with
  | nil => rfl
  | cons a l ih =>
    rw [List.foldlM_cons, h b a List.mem_cons_self, List.foldl_cons]
    exact ih (fun b a ha => h b a (List.mem_cons_of_mem _ ha)) _

namespace DropReceiverCore

variable {source : SocketAddr} {o : OfferPayload} {r' : DropReceiverCore}
  {out : DropReceiverCore × List Frame}

/-! ## Checked and unchecked -/

theorem missingRanges?_eq (h : r.total ≤ maxTotal) : r.missingRanges? = some r.missingRanges := by
  have hpass : ∀ acc, ∀ i ∈ List.range (r.total + 1),
      r.missingPass? acc i = some (r.missingPass acc i) := by
    intro acc i hi
    have hle : i ≤ maxTotal := le_trans (Nat.le_of_lt_succ (List.mem_range.mp hi)) h
    obtain ⟨start, ranges⟩ := acc
    unfold missingPass? missingPass
    cases decide (i < r.total) && !decide (i ∈ r.held) with
    | true => cases start <;> rfl
    | false =>
      cases start with
      | none => rfl
      | some start =>
        dsimp only
        rw [splitRun?_eq hle]
        rfl
  rw [missingRanges?, missingRanges, foldlM_eq_some hpass]
  rfl

/-- The ranges are the windows of what is not held: none is empty or longer than 64 chunks, each
ends before the next starts, a shorter one ends at something held or at the end of the file, and
together they are the indexes not held. -/
theorem missingRanges_exact {o : OfferPayload} (hoffer : r.offer = some o)
    (htotal : o.totalChunks ≤ 2 ^ 32 - 65) :
    ∃ l, r.missingRanges? = some l ∧
      (∀ p ∈ l, p.1 < p.2 ∧ p.2 ≤ p.1 + 64) ∧ l.Pairwise (fun p q => p.2 ≤ q.1) ∧
      (∀ i, (∃ p ∈ l, p.1 ≤ i ∧ i < p.2) ↔ i < o.totalChunks ∧ i ∉ r.held) ∧
      ∀ p ∈ l, p.2 < p.1 + 64 → p.2 ∈ r.held ∨ p.2 = o.totalChunks := by
  have htot : r.total = o.totalChunks := by
    rw [total, hoffer]
    exact Nat.mod_eq_of_lt (show o.totalChunks < 2 ^ 32 by omega)
  have hle : r.total ≤ maxTotal := by
    rw [htot, maxTotal, maxRangeChunks]
    omega
  have hranges := r.missingRanges_ranges
  rw [htot] at hranges
  refine ⟨r.missingRanges, missingRanges?_eq hle, fun p hp => ?_, hranges.pairwise, fun i => ?_,
    fun p hp hshort => ?_⟩
  · obtain ⟨-, hlt, hwindow, -⟩ := hranges.of_mem hp
    exact ⟨hlt, hwindow⟩
  · rw [hranges.exists_mem_iff i]
    exact and_iff_right (Nat.zero_le i)
  · obtain ⟨-, -, -, hfull | hend | hheld⟩ := hranges.of_mem hp
    · exact absurd hfull (Nat.ne_of_lt hshort)
    · exact .inr hend
    · exact .inl (not_not.mp hheld)

/-- Of three chunks the middle one is held. -/
theorem missingRanges_exact_three :
    ∃ r : DropReceiverCore, r.missingRanges? = some [(0, 1), (2, 3)] ∧
      ∃ l, r.missingRanges? = some l ∧
        ∀ i, (∃ p ∈ l, p.1 ≤ i ∧ i < p.2) ↔ i < 3 ∧ i ∉ r.held := by
  refine ⟨{ new (AList.singleton 1 []) with offer := some ⟨"f", 3072, 1024, 3, ""⟩ }, by decide, ?_⟩
  obtain ⟨l, hl, -, -, hcover, -⟩ := missingRanges_exact
    (r := { new (AList.singleton 1 []) with offer := some ⟨"f", 3072, 1024, 3, ""⟩ }) rfl
    (by decide)
  exact ⟨l, hl, hcover⟩

theorem requestMissing?_eq (h : r.total ≤ maxTotal) :
    r.requestMissing? = some r.requestMissing := by
  unfold requestMissing? requestMissing
  split
  · rfl
  · refine (congrArg (Option.map _) (missingRanges?_eq h)).trans ?_
    cases hhead : r.missingRanges.head? <;> simp [hhead]

theorem tick?_eq (h : r.total ≤ maxTotal) (now : Nat) : r.tick? now = some (r.tick now) := by
  unfold tick? tick
  split
  · exact requestMissing?_eq (r := { r with lastProgress := some now }) h
  · rfl

theorem onOffer?_eq (h : o.totalChunks % 2 ^ 32 ≤ maxTotal)
    (now : Nat) : r.onOffer? source o now = some (r.onOffer source o now) := by
  refine (requestMissing?_eq ?_).trans rfl
  exact h

/-! ## What an OFFER has to be -/

/-- A size a vector can hold, a count to which a window can be added, and, for the same file, no
chunk held beyond the count. -/
structure Fits (r : DropReceiverCore) (o : OfferPayload) : Prop where
  size_lt : o.size < 2 ^ 63
  total_le : o.totalChunks % 2 ^ 32 ≤ maxTotal
  held_lt : r.namesOther o = false → ∀ i ∈ r.held, i < o.totalChunks % 2 ^ 32

/-- Every OFFER is of this kind. -/
def OffersFit (parseOffer : Bytes → Option OfferPayload) (r : DropReceiverCore) : RawInput → Prop
  | .frame _ frame _ => ∀ o, decodeFrame parseOffer frame = some (.offer o) → r.Fits o
  | .tick _ => True

/-- What the receiver has was offered, and the offer is of this kind. -/
structure Safe (r : DropReceiverCore) : Prop where
  size_lt : ∀ o, r.offer = some o → o.size < 2 ^ 63
  total_le : r.total ≤ maxTotal
  held_lt : r.offer.isSome → ∀ i ∈ r.held, i < r.total

theorem safe_new (held : AList fun _ : Nat => Bytes) : (new held).Safe where
  size_lt _ h := absurd h.symm (Option.some_ne_none _)
  total_le := Nat.zero_le _
  held_lt h := absurd h Bool.false_ne_true

/-- A receiver with the same offer that holds no index beyond it. -/
theorem Safe.grow (hr : r.Safe) (hoffer : r'.offer = r.offer)
    (hheld : ∀ i ∈ r'.held, i ∈ r.held ∨ i < r.total) : r'.Safe := by
  have htotal : r'.total = r.total := by rw [total, total, hoffer]
  refine ⟨?_, htotal ▸ hr.total_le, fun hsome i hi => ?_⟩
  · rw [hoffer]
    exact hr.size_lt
  · rw [htotal]
    exact (hheld i hi).elim (hr.held_lt (hoffer ▸ hsome) i) id

theorem SameFile.safe (h : SameFile r r') (hr : r.Safe) : r'.Safe :=
  hr.grow h.offer fun _ hi => .inl (h.held ▸ hi)

theorem Offered.safe (h : Offered r source o out) (hfits : r.Fits o) :
    out.1.Safe := by
  have htotal : out.1.total = o.totalChunks % 2 ^ 32 := by
    rw [total, h.offer]
    rfl
  refine ⟨fun o' ho' => ?_, htotal ▸ hfits.total_le, fun _ => ?_⟩
  · rw [← Option.some.inj (h.offer.symm.trans ho')]
    exact hfits.size_lt
  · rw [h.held, htotal]
    cases hother : r.namesOther o with
    | true => exact fun i hi => absurd hi (AList.notMem_empty i)
    | false => exact hfits.held_lt hother

theorem Chunked.safe {index : Nat} (h : Chunked r index out)
    (hlt : index < r.total) (hr : r.Safe) : out.1.Safe := by
  refine hr.grow h.offer fun i hi => ?_
  rcases (h.mem_held i).mp hi with hi | rfl
  · exact .inl hi
  · exact .inr hlt

/-! ## Putting the file together -/

/-- Every chunk is there, and the vector is not too large. -/
theorem isSome_finish? (hr : r.Safe) (hoffer : r.offer = some o)
    (hlen : r.held.entries.length % 2 ^ 32 = r.total) : (r.finish? sha256Hex o).isSome := by
  have hsome : r.offer.isSome := by rw [hoffer]; rfl
  have htotal : r.total = o.totalChunks % 2 ^ 32 := by rw [total, hoffer]; rfl
  have hlt : r.total < 2 ^ 32 := Nat.mod_lt _ (by decide)
  have hle := length_entries_le_of_lt (hr.held_lt hsome)
  rw [Nat.mod_eq_of_lt (lt_of_le_of_lt hle hlt)] at hlen
  have hall := (length_entries_eq_iff (hr.held_lt hsome)).mp hlen
  rw [finish?, if_pos (hr.size_lt o hoffer), finish, assemble, ← htotal,
    mapM_lookup [] fun i hi => hall i (List.mem_range.mp hi)]
  rfl

/-- A chunk does what the unchecked method does, and that returns. -/
theorem onChunk?_eq (sha256Hex : Bytes → String) (hr : r.Safe) (body : Bytes) (now : Nat) :
    (r.onChunk? sha256Hex body now).isSome ∧
      r.onChunk? sha256Hex body now = r.onChunk sha256Hex body now := by
  unfold onChunk? onChunk
  cases hoffer : r.offer with
  | none => exact ⟨rfl, rfl⟩
  | some o =>
    dsimp only
    by_cases hshort : body.length < 4
    · rw [if_pos hshort, if_pos hshort]
      exact ⟨rfl, rfl⟩
    rw [if_neg hshort, if_neg hshort]
    by_cases hrange : r.total ≤ ofBe (body.take 4)
    · rw [if_pos hrange, if_pos hrange]
      exact ⟨rfl, rfl⟩
    rw [if_neg hrange, if_neg hrange]
    have hkeep : (r.keep (ofBe (body.take 4)) (body.drop 4) now).Safe := by
      refine hr.grow (keep_offer _ _ _) fun i hi => ?_
      rcases mem_keep.mp hi with hi | rfl
      · exact .inl hi
      · exact .inr (not_le.mp hrange)
    have hkept : (r.keep (ofBe (body.take 4)) (body.drop 4) now).offer = some o :=
      (keep_offer _ _ _).trans hoffer
    split
    · next hlen =>
      refine ⟨isSome_finish? hkeep hkept hlen, ?_⟩
      rw [finish?, if_pos (hkeep.size_lt o hkept)]
    · split
      · rw [requestMissing?_eq hkeep.total_le]
        exact ⟨rfl, rfl⟩
      · exact ⟨rfl, rfl⟩

/-- An OFFER that fits, any other frame and any tick are taken, and the receiver stays safe. -/
theorem Safe.step (sha256Hex : Bytes → String) {input : RawInput} (hr : r.Safe) (hok : OffersFit parseOffer r input) :
    ∃ r', r.step? parseOffer sha256Hex input = some r' ∧ r'.Safe := by
  cases input with
  | tick now =>
    refine ⟨(r.tick now).1, ?_, (r.tick_sameFile now).1.safe hr⟩
    rw [step?, tick?_eq hr.total_le]
    rfl
  | frame source frame now =>
    rw [step?, handleFrame?]
    cases hframe : decodeFrame parseOffer frame with
    | none => exact ⟨r, rfl, hr⟩
    | some f =>
      cases f with
      | offer o =>
        have hfits := hok o hframe
        refine ⟨(r.onOffer source o now).1, ?_, (r.onOffer_offered source o now).safe hfits⟩
        dsimp only
        rw [onOffer?_eq hfits.total_le]
        rfl
      | chunk body =>
        dsimp only
        obtain ⟨hsome, heq⟩ := onChunk?_eq sha256Hex hr body now
        obtain ⟨out, hout⟩ := Option.isSome_iff_exists.mp hsome
        refine ⟨out.1, by rw [hout]; rfl, ?_⟩
        rw [heq] at hout
        by_cases htakes : r.Takes body
        · exact (onChunk_chunked htakes hout).safe htakes.2.2 hr
        · obtain rfl := Option.some.inj ((onChunk_ignored htakes).symm.trans hout)
          exact hr
      | request ranges => exact ⟨r, rfl, hr⟩
      | done sha256 => exact ⟨r, rfl, hr⟩

/-- In every run whose OFFERs fit, from whatever was held, the ranges can be listed and every next
frame or tick is taken, unless it is an OFFER that does not fit. -/
theorem receiver_returns (held : AList fun _ : Nat => Bytes)
    (hrun : GuardedRun (step? parseOffer sha256Hex) (OffersFit parseOffer) (new held) r) :
    r.missingRanges?.isSome ∧
      ∀ input, OffersFit parseOffer r input → (r.step? parseOffer sha256Hex input).isSome := by
  have hsafe : r.Safe := by
    refine hrun.invariant (safe_new held) ?_
    intro s input s' hs hok hstep
    obtain ⟨s'', hs'', hsafe⟩ := hs.step sha256Hex hok
    exact Option.some.inj (hs''.symm.trans hstep) ▸ hsafe
  refine ⟨by rw [missingRanges?_eq hsafe.total_le]; rfl, fun input hok => ?_⟩
  obtain ⟨r', hr', -⟩ := hsafe.step sha256Hex hok
  rw [hr']
  rfl

/-- The JSON of an OFFER, where nothing in the texts has to be escaped. -/
def offerJson (o : OfferPayload) : Bytes :=
  Crypto.utf8 (s!"\x7b\"name\":\"{o.name}\",\"size\":{o.size},\"chunk_size\":{o.chunkSize}," ++
    s!"\"total_chunks\":{o.totalChunks},\"sha256\":\"{o.sha256}\"\x7d")

/-- The frame of an OFFER. -/
def offerFrame (o : OfferPayload) : Bytes := typeOffer :: offerJson o

/-- A parser that reads the JSON of one OFFER. -/
def parseAs (o : OfferPayload) (body : Bytes) : Option OfferPayload :=
  if body = offerJson o then some o else none

theorem decodeFrame_parseAs (o : OfferPayload) :
    decodeFrame (parseAs o) (offerFrame o) = some (.offer o) := by
  simp [decodeFrame, offerFrame, parseAs]

/-- An OFFER of a file of one byte. -/
def tinyOffer : OfferPayload := ⟨"f", 1, 1024, 1, "7"⟩

theorem receiver_returns_tiny :
    ∃ r, GuardedRun (step? (parseAs tinyOffer) fun _ => "7") (OffersFit (parseAs tinyOffer))
        (new ∅) r ∧
      r.offer.isSome ∧ r.missingRanges?.isSome ∧
      (r.step? (parseAs tinyOffer) (fun _ => "7") (.frame ⟨1, 1⟩ [3, 0, 0, 0, 0, 7] 1)).isSome := by
  have hok : OffersFit (parseAs tinyOffer) (new ∅) (.frame ⟨1, 1⟩ (offerFrame tinyOffer) 0) := by
    intro o ho
    rw [decodeFrame_parseAs] at ho
    obtain rfl := Frame.offer.inj (Option.some.inj ho)
    exact ⟨by decide, by decide, fun _ i hi => absurd hi (AList.notMem_empty i)⟩
  obtain ⟨r, hr, hoffer⟩ := (Option.any_eq_true _ _).mp
    (show ((new ∅).step? (parseAs tinyOffer) (fun _ => "7")
      (.frame ⟨1, 1⟩ (offerFrame tinyOffer) 0)).any (fun r => r.offer.isSome) = true by
        decide +kernel)
  have hrun : GuardedRun (step? (parseAs tinyOffer) fun _ => "7") (OffersFit (parseAs tinyOffer))
      (new ∅) r := .single ⟨_, hok, hr⟩
  obtain ⟨hranges, hnext⟩ := receiver_returns ∅ hrun
  refine ⟨r, hrun, hoffer, hranges, hnext _ fun o ho => ?_⟩
  exact Frame.noConfusion (Option.some.inj ho)

/-! ## What panics -/

/-- The last window of a run that starts with a multiple of the window and ends with the last
index. -/
theorem splitRun?_overflow (fuel : Nat) :
    ∀ k, k < 2 ^ 26 → 2 ^ 26 ≤ fuel + k →
      splitRun? (2 ^ 32 - 1) fuel (k * maxRangeChunks) = none := by
  induction fuel with
  | zero => exact fun k hk hfuel => absurd hfuel (by omega)
  | succ fuel ih =>
    intro k hk hfuel
    have hlt : k * maxRangeChunks < 2 ^ 32 - 1 := by
      simp only [maxRangeChunks]
      omega
    rw [splitRun?, if_pos hlt, addWindow?]
    split
    · next hfits =>
      have hnext : k + 1 < 2 ^ 26 := by
        simp only [maxRangeChunks] at hfits
        omega
      rw [Option.bind_some, ← Nat.succ_mul, ih (k + 1) hnext (by omega)]
      rfl
    · rfl

/-- With nothing held the loop is in one run from the first index on. -/
theorem foldlM_missingPass?_lacking (hheld : r.held = ∅) (n : Nat) (hn : n + 1 ≤ r.total) :
    (List.range (n + 1)).foldlM r.missingPass? (none, []) = some (some 0, []) := by
  have hlacking : ∀ i < r.total, (decide (i < r.total) && !decide (i ∈ r.held)) = true := by
    intro i hi
    rw [hheld]
    simp [hi]
  induction n with
  | zero =>
    show (r.missingPass? (none, []) 0).bind _ = _
    rw [missingPass?, hlacking 0 (by omega)]
    rfl
  | succ n ih =>
    rw [List.range_succ, List.foldlM_append, ih (by omega)]
    show (r.missingPass? (some 0, []) (n + 1)).bind _ = _
    rw [missingPass?, hlacking (n + 1) (by omega)]
    rfl

theorem missingRanges?_overflow (hheld : r.held = ∅) (htotal : r.total = 2 ^ 32 - 1) :
    r.missingRanges? = none := by
  have hrun := foldlM_missingPass?_lacking hheld (2 ^ 32 - 2) (by omega)
  have hlast : r.missingPass? (some 0, []) (2 ^ 32 - 1) = none := by
    have hsplit := splitRun?_overflow (2 ^ 32 - 1) 0 (by decide) (by decide)
    rw [Nat.zero_mul] at hsplit
    rw [missingPass?, htotal]
    simp only [lt_irrefl, decide_false, Bool.false_and, Nat.sub_zero, hsplit, Option.map_none]
  have hrange : List.range (r.total + 1) = List.range (2 ^ 32 - 2 + 1) ++ [2 ^ 32 - 1] := by
    rw [htotal]
    exact List.range_succ
  rw [missingRanges?, hrange, List.foldlM_append, hrun]
  show ((r.missingPass? (some 0, []) (2 ^ 32 - 1)).bind _).map _ = none
  rw [hlast]
  rfl

theorem requestMissing?_overflow (hoffer : r.offer.isSome) (hsender : r.senderAddr.isSome)
    (hverified : r.verified = none) (hheld : r.held = ∅) (htotal : r.total = 2 ^ 32 - 1) :
    r.requestMissing? = none := by
  have hask : ¬ (r.offer.isNone || r.senderAddr.isNone || r.verified.isSome) = true := by
    simp [Option.isSome_iff_ne_none.mp hoffer, Option.isSome_iff_ne_none.mp hsender, hverified]
  rw [requestMissing?, if_neg hask, missingRanges?_overflow hheld htotal]
  rfl

/-- A chunk beyond the file makes the count right and leaves the last chunk to be looked up in
vain, a size of `2 ^ 63` is no capacity, and the last window of a file of `2 ^ 32 - 1` chunks ends
beyond `u32`. -/
theorem receiver_panics :
    (((new (AList.singleton 5 [])).step? (parseAs ⟨"f", 1025, 1024, 2, "7"⟩) (fun _ => "7")
        (.frame ⟨1, 1⟩ (offerFrame ⟨"f", 1025, 1024, 2, "7"⟩) 0)).any fun r =>
      (r.step? (parseAs ⟨"f", 1025, 1024, 2, "7"⟩) (fun _ => "7")
        (.frame ⟨1, 1⟩ [3, 0, 0, 0, 0, 7] 1)).isNone) = true ∧
    (((new ∅).step? (parseAs ⟨"f", 2 ^ 63, 1024, 1, "7"⟩) (fun _ => "7")
        (.frame ⟨1, 1⟩ (offerFrame ⟨"f", 2 ^ 63, 1024, 1, "7"⟩) 0)).any fun r =>
      (r.step? (parseAs ⟨"f", 2 ^ 63, 1024, 1, "7"⟩) (fun _ => "7")
        (.frame ⟨1, 1⟩ [3, 0, 0, 0, 0, 7] 1)).isNone) = true ∧
    (new ∅).step? (parseAs ⟨"f", 1, 1024, 2 ^ 32 - 1, "7"⟩) (fun _ => "7")
      (.frame ⟨1, 1⟩ (offerFrame ⟨"f", 1, 1024, 2 ^ 32 - 1, "7"⟩) 0) = none := by
  refine ⟨by decide +kernel, by decide +kernel, ?_⟩
  have hoffer : (new ∅).onOffer? ⟨1, 1⟩ ⟨"f", 1, 1024, 2 ^ 32 - 1, "7"⟩ 0 = none :=
    requestMissing?_overflow rfl rfl rfl rfl (by decide)
  rw [step?, handleFrame?, decodeFrame_parseAs]
  dsimp only
  rw [hoffer]
  rfl

end DropReceiverCore

end Telesthete.Drop
