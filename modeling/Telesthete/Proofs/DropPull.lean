import Telesthete.Proofs.DropRanges

/-!
# The pull loop ends, in as many rounds as there are ranges

A receiver that lacks something asks for the first range of what it lacks. The
sender serves that range as it is, and taking the chunks does nothing until the
last of them: the file is not complete, and the window is not drained, as long as
an index of the window is lacking. The last chunk then either completes the file
or makes the receiver ask for the next range, and what it lacks is the ranges it
lacked before without the first.

The measure is the list of ranges, which a round shortens by one.
-/

namespace Telesthete.Drop

open Telesthete.Lib List
open Telesthete.Band (SocketAddr)

variable {sha256Hex : Bytes → String} {file : Bytes} {r : DropReceiverCore}
variable {i : Nat}

/-- A receiver in the middle of a transfer: it has the offer and some chunks of the file, but not
all, and no verdict. -/
structure Pulling (sha256Hex : Bytes → String) (file : Bytes) (r : DropReceiverCore) : Prop where
  offer : ∃ o, r.offer = some o ∧ IsOffer sha256Hex file o
  sender : r.senderAddr.isSome
  held : Held file r.held
  verified : r.verified = none
  lacking : ∃ i < chunkCount file, i ∉ r.held

namespace Pulling

theorem total (hcount : chunkCount file < 2 ^ 32) (h : Pulling sha256Hex file r) :
    r.total = chunkCount file := by
  obtain ⟨o, hoffer, ho⟩ := h.offer
  exact total_of_offer hcount hoffer ho

/-- There is something to ask for. -/
theorem exists_range (hcount : chunkCount file < 2 ^ 32) (h : Pulling sha256Hex file r) :
    ∃ w l, r.missingRanges = w :: l := by
  obtain ⟨i, hi, hlack⟩ := h.lacking
  refine exists_cons_of_ne_nil fun hnil => ?_
  exact r.missingRanges_ranges.nil_iff.mp hnil i (Nat.zero_le i) (h.total hcount ▸ hi) hlack

/-- It asks for the first range it lacks. -/
theorem requestMissing (h : Pulling sha256Hex file r) {w : Nat × Nat} {l : List (Nat × Nat)}
    (hl : r.missingRanges = w :: l) :
    r.requestMissing =
      ({ r with outstanding := some w }, [.request [((w.1 : Int), (w.2 : Int))]]) := by
  obtain ⟨o, hoffer, -⟩ := h.offer
  obtain ⟨addr, haddr⟩ := Option.isSome_iff_exists.mp h.sender
  simp [DropReceiverCore.requestMissing, hoffer, haddr, h.verified, hl]

end Pulling

theorem held_keep (h : Held file r.held) (hi : i < chunkCount file) (now : Nat) :
    Held file (r.keep i (chunkOf file i) now).held := by
  simp only [DropReceiverCore.keep]
  split
  · exact h
  · exact h.insert hi

theorem Pulling.keep (h : Pulling sha256Hex file r) (hi : i < chunkCount file) (now : Nat)
    (hlacking : ∃ j < chunkCount file, j ∉ (r.keep i (chunkOf file i) now).held) :
    Pulling sha256Hex file (r.keep i (chunkOf file i) now) := by
  obtain ⟨o, hoffer, ho⟩ := h.offer
  obtain ⟨hsender, hverified, -⟩ := keep_unchanged (r := r) i (chunkOf file i) now
  exact ⟨⟨o, (keep_offer _ _ _).trans hoffer, ho⟩, hsender ▸ h.sender, held_keep h.held hi now,
    hverified ▸ h.verified, hlacking⟩

/-! ## A window -/

theorem drained_iff {a b : Nat} (h : r.outstanding = some (a, b)) :
    r.drained = true ↔ ∀ j, a ≤ j → j < b → j ∈ r.held := by
  simp only [DropReceiverCore.drained, h, Option.any_some, all_eq_true, decide_eq_true_eq,
    mem_range'_1]
  refine ⟨fun hall j hj hjb => hall j ⟨hj, by omega⟩, fun hall j hj => hall j hj.1 (by omega)⟩

/-- A receiver that has asked for a window. -/
structure Waiting (sha256Hex : Bytes → String) (file : Bytes) (w : Nat × Nat)
    (r : DropReceiverCore) : Prop extends Pulling sha256Hex file r where
  outstanding : r.outstanding = some w

/-- The receiver and what it has just sent, when these are the ranges it lacks: a request for the
first of them, or the verdict when there are none. -/
inductive Turn (sha256Hex : Bytes → String) (file : Bytes) :
    List (Nat × Nat) → DropReceiverCore × List Frame → Prop where
  | request {w : Nat × Nat} {l : List (Nat × Nat)} {r : DropReceiverCore} :
      r.missingRanges = w :: l → Waiting sha256Hex file w r →
      Turn sha256Hex file (w :: l) (r, [.request [((w.1 : Int), (w.2 : Int))]])
  | done {r : DropReceiverCore} :
      r.total = chunkCount file → r.missingRanges = [] → r.verified = some true →
      r.completion = some (file, true) → Turn sha256Hex file [] (r, [.done (sha256Hex file)])

theorem Pulling.turn (hcount : chunkCount file < 2 ^ 32) (h : Pulling sha256Hex file r) :
    Turn sha256Hex file r.missingRanges r.requestMissing := by
  obtain ⟨w, l, hl⟩ := h.exists_range hcount
  rw [h.requestMissing hl, hl]
  exact .request hl ⟨{ h with }, rfl⟩

namespace Waiting

variable {a b i : Nat}

theorem keep (h : Waiting sha256Hex file (a, b) r) (hi : i < chunkCount file) (now : Nat)
    (hlacking : ∃ j < chunkCount file, j ∉ (r.keep i (chunkOf file i) now).held) :
    Waiting sha256Hex file (a, b) (r.keep i (chunkOf file i) now) :=
  ⟨h.toPulling.keep hi now hlacking,
    (keep_unchanged i (chunkOf file i) now).2.2.1.trans h.outstanding⟩

/-- While another chunk of the window is lacking, a chunk is kept and nothing is sent. -/
theorem chunk_kept (hcount : chunkCount file < 2 ^ 32) (h : Waiting sha256Hex file (a, b) r)
    (hb : b ≤ chunkCount file) (hi : i < b) {j : Nat} (haj : a ≤ j) (hjb : j < b)
    (hlack : j ∉ r.held) (hji : j ≠ i) (source : SocketAddr) (now : Nat) :
    r.handleFrame sha256Hex source (chunkFrame file i) now =
        some (r.keep i (chunkOf file i) now, []) ∧
      Waiting sha256Hex file (a, b) (r.keep i (chunkOf file i) now) := by
  have hic : i < chunkCount file := by omega
  have hlack' : j ∉ (r.keep i (chunkOf file i) now).held :=
    fun hmem => (mem_keep.mp hmem).elim hlack hji
  have hkeep := h.keep hic now ⟨j, by omega, hlack'⟩
  obtain ⟨o, hoffer, ho⟩ := h.offer
  refine ⟨?_, hkeep⟩
  show r.onChunk sha256Hex (toBe 4 i ++ chunkOf file i) now = _
  rw [onChunk_chunkOf hcount hoffer ho hkeep.held hic, if_neg, if_neg]
  · exact fun hdrained => hlack' ((drained_iff hkeep.outstanding).mp hdrained j haj hjb)
  · exact fun hlen => hlack' (hkeep.held.length_eq_iff.mp hlen j (by omega))

/-- The last chunk of the window completes the file or makes the receiver ask for the next. -/
theorem chunk_last (hcount : chunkCount file < 2 ^ 32) (h : Waiting sha256Hex file (a, b) r)
    (hb : b ≤ chunkCount file) (hi : i < b)
    (hlast : ∀ j, a ≤ j → j < b → j ∉ r.held → j = i) (source : SocketAddr) (now : Nat) :
    ∃ y, r.handleFrame sha256Hex source (chunkFrame file i) now = some y ∧
      (∀ j, j ∈ y.1.held ↔ j ∈ (r.keep i (chunkOf file i) now).held) ∧
      Turn sha256Hex file y.1.missingRanges y := by
  have hic : i < chunkCount file := by omega
  have hheld := held_keep h.held hic now
  obtain ⟨o, hoffer, ho⟩ := h.offer
  have hstep : r.handleFrame sha256Hex source (chunkFrame file i) now = _ :=
    onChunk_chunkOf hcount hoffer ho hheld hic
  rw [hstep]
  by_cases hall : ∀ j < chunkCount file, j ∈ (r.keep i (chunkOf file i) now).held
  · have hlen := hheld.length_eq_iff.mpr hall
    refine ⟨_, by rw [if_pos hlen, finish_of_held hcount hheld ho hlen], fun j => Iff.rfl, ?_⟩
    have htotal : (r.keep i (chunkOf file i) now).total = chunkCount file :=
      total_of_offer hcount ((keep_offer _ _ _).trans hoffer) ho
    have hnil : (r.keep i (chunkOf file i) now).missingRanges = [] :=
      (DropReceiverCore.missingRanges_ranges _).nil_iff.mpr
        fun j _ hj => not_not_intro (hall j (htotal ▸ hj))
    show Turn sha256Hex file (r.keep i (chunkOf file i) now).missingRanges _
    rw [hnil]
    exact .done htotal hnil rfl rfl
  · obtain ⟨j, hj, hlack⟩ : ∃ j < chunkCount file, j ∉ (r.keep i (chunkOf file i) now).held := by
      simpa using hall
    have hkeep := h.keep hic now ⟨j, hj, hlack⟩
    have hdrained : (r.keep i (chunkOf file i) now).drained = true := by
      rw [drained_iff hkeep.outstanding]
      intro k hak hkb
      rw [mem_keep]
      by_cases hk : k ∈ r.held
      · exact .inl hk
      · exact .inr (hlast k hak hkb hk)
    obtain ⟨w, l, hl⟩ := hkeep.exists_range hcount
    have hnot : ¬ (r.keep i (chunkOf file i) now).held.entries.length = chunkCount file :=
      fun hlen => hlack (hheld.length_eq_iff.mp hlen j hj)
    refine ⟨_, by rw [if_neg hnot, if_pos hdrained], ?_, ?_⟩
    · rw [hkeep.requestMissing hl]
      exact fun k => Iff.rfl
    · have hturn := hkeep.turn hcount
      rw [hkeep.requestMissing hl] at hturn ⊢
      exact hturn

end Waiting

theorem chunkFrame_inj {i j : Nat} (hi : i < 2 ^ 32) (hj : j < 2 ^ 32)
    (h : chunkFrame file i = chunkFrame file j) : i = j := by
  obtain ⟨hindex, -⟩ := append_inj (Frame.chunk.inj h) (by simp)
  rw [← ofBe_toBe (w := 4) hi, hindex, ofBe_toBe (w := 4) hj]

/-- The chunks of a window that are lacking, in any order and each once, are taken one by one, and
nothing is sent before the last of them, which ends the turn. -/
theorem Waiting.feed {a b : Nat} (hcount : chunkCount file < 2 ^ 32) (hb : b ≤ chunkCount file)
    (source : SocketAddr) (fed : List (Frame × Nat)) :
    ∀ {r : DropReceiverCore}, Waiting sha256Hex file (a, b) r → fed ≠ [] →
      (fed.map Prod.fst).Nodup →
      (∀ f ∈ fed.map Prod.fst, ∃ i, (a ≤ i ∧ i < b ∧ i ∉ r.held) ∧ f = chunkFrame file i) →
      (∀ j, a ≤ j → j < b → j ∉ r.held → chunkFrame file j ∈ fed.map Prod.fst) →
      ∃ y, r.feed sha256Hex source fed = some y ∧
        (∀ k < fed.length, ∃ r', r.feed sha256Hex source (fed.take k) = some (r', [])) ∧
        (∀ j, j ∈ y.1.held ↔ j ∈ r.held ∨ a ≤ j ∧ j < b) ∧
        Turn sha256Hex file y.1.missingRanges y := by
  induction fed with
  | nil => exact fun _ hne => absurd rfl hne
  | cons x rest ih =>
    intro r h _ hnodup hchunks hcover
    obtain ⟨f, now⟩ := x
    rw [map_cons, nodup_cons] at hnodup
    obtain ⟨i, ⟨hai, hib, hlack⟩, rfl : f = chunkFrame file i⟩ := hchunks f mem_cons_self
    -- the index of a frame of the rest is another one
    have hother : ∀ j, j < b → chunkFrame file j ∈ rest.map Prod.fst → j ≠ i := by
      rintro j - hmem rfl
      exact hnodup.1 hmem
    have hmem : ∀ j, a ≤ j → j < b → j ∉ r.held → j ≠ i →
        chunkFrame file j ∈ rest.map Prod.fst := by
      intro j haj hjb hj hji
      refine (mem_cons.mp (hcover j haj hjb hj)).resolve_left fun heq => ?_
      exact hji (chunkFrame_inj (by omega) (by omega) heq)
    cases hrest : rest with
    | nil =>
      have hlast : ∀ j, a ≤ j → j < b → j ∉ r.held → j = i := by
        intro j haj hjb hj
        by_contra hji
        have hin := hmem j haj hjb hj hji
        rw [hrest] at hin
        exact not_mem_nil hin
      obtain ⟨y, hy, hheld, hturn⟩ := h.chunk_last hcount hb hib hlast source now
      refine ⟨y, ?_, fun k hk => ?_, fun j => ?_, hturn⟩
      · simp only [DropReceiverCore.feed, hy, Option.bind_some, Option.map_some,
          append_nil]
      · obtain rfl : k = 0 := Nat.lt_one_iff.mp hk
        exact ⟨r, rfl⟩
      · rw [hheld, mem_keep]
        refine ⟨?_, ?_⟩
        · rintro (hj | rfl)
          · exact .inl hj
          · exact .inr ⟨hai, hib⟩
        · rintro (hj | ⟨haj, hjb⟩)
          · exact .inl hj
          · by_cases hj : j ∈ r.held
            · exact .inl hj
            · exact .inr (hlast j haj hjb hj)
    | cons x' rest' =>
      have hx' : x'.1 ∈ rest.map Prod.fst := by
        rw [hrest]
        exact mem_cons_self
      obtain ⟨k, ⟨hak, hkb, hklack⟩, hk⟩ := hchunks x'.1 (mem_cons_of_mem _ hx')
      obtain ⟨hstep, hkeep⟩ := h.chunk_kept hcount hb hib hak hkb hklack
        (hother k hkb (hk ▸ hx')) source now
      have hchunks' : ∀ f ∈ rest.map Prod.fst, ∃ j, (a ≤ j ∧ j < b ∧
          j ∉ (r.keep i (chunkOf file i) now).held) ∧ f = chunkFrame file j := by
        intro f hf
        obtain ⟨j, ⟨haj, hjb, hj⟩, rfl⟩ := hchunks f (mem_cons_of_mem _ hf)
        exact ⟨j, ⟨haj, hjb, fun hin => (mem_keep.mp hin).elim hj (hother j hjb hf)⟩, rfl⟩
      have hcover' : ∀ j, a ≤ j → j < b → j ∉ (r.keep i (chunkOf file i) now).held →
          chunkFrame file j ∈ rest.map Prod.fst := by
        intro j haj hjb hj
        exact hmem j haj hjb (fun hin => hj (mem_keep.mpr (.inl hin)))
          fun heq => hj (mem_keep.mpr (.inr heq))
      obtain ⟨y, hy, hsilent, hheld, hturn⟩ :=
        ih hkeep (by rw [hrest]; simp) hnodup.2 hchunks' hcover'
      rw [← hrest]
      refine ⟨y, ?_, fun k hk => ?_, fun j => ?_, hturn⟩
      · simp only [DropReceiverCore.feed, hstep, Option.bind_some, hy, Option.map_some,
          nil_append]
      · cases k with
        | zero => exact ⟨r, rfl⟩
        | succ k =>
          obtain ⟨r', hr'⟩ := hsilent k (Nat.lt_of_succ_lt_succ hk)
          refine ⟨r', ?_⟩
          simp only [take_succ_cons, DropReceiverCore.feed, hstep, Option.bind_some,
            hr', Option.map_some, nil_append]
      · rw [hheld, mem_keep]
        refine ⟨?_, ?_⟩
        · rintro ((hj | rfl) | hj)
          · exact .inl hj
          · exact .inr ⟨hai, hib⟩
          · exact .inr hj
        · rintro (hj | hj)
          · exact .inl (.inl hj)
          · exact .inr hj

/-! ## Rounds -/

section rounds

variable {name : String} {peer source : SocketAddr}
variable {l : List (Nat × Nat)} {x : DropReceiverCore × List Frame}

theorem Turn.missingRanges_eq (h : Turn sha256Hex file l x) : x.1.missingRanges = l := by
  cases h with
  | request hl => exact hl
  | done _ hl => exact hl

theorem Turn.length_sent (h : Turn sha256Hex file l x) : x.2.length = 1 := by
  cases h <;> rfl

theorem Turn.total (hcount : chunkCount file < 2 ^ 32) (h : Turn sha256Hex file l x) :
    x.1.total = chunkCount file := by
  cases h with
  | request _ hwait => exact hwait.total hcount
  | done htotal => exact htotal

/-- The chunks the sender serves for a range the receiver lacks. -/
theorem answers_request {a b : Nat} (hcount : chunkCount file < 2 ^ 32) (hb : b ≤ chunkCount file)
    (hwin : b ≤ a + maxRangeChunks) :
    (DropSenderCore.new sha256Hex name file).answers peer [.request [((a : Int), (b : Int))]] =
      (List.range' a (b - a)).map (chunkFrame file) := by
  have hsender : (DropSenderCore.new sha256Hex name file).totalChunks = chunkCount file :=
    Nat.mod_eq_of_lt hcount
  simp only [DropSenderCore.answers, DropSenderCore.handleFrame, flatMap_cons,
    flatMap_nil, append_nil]
  exact DropSenderCore.serveRange_window (hsender.symm ▸ hb) hwin

/-- One round: whatever the order and the times, the window is filled and one frame is sent, after
the last chunk, for the next range or with the verdict. -/
theorem Turn.round (source : SocketAddr) {w : Nat × Nat}
    (hcount : chunkCount file < 2 ^ 32) (h : Turn sha256Hex file (w :: l) x)
    {fed : List (Frame × Nat)}
    (hfed : (fed.map Prod.fst).Perm ((DropSenderCore.new sha256Hex name file).answers peer x.2)) :
    ∃ y, x.1.feed sha256Hex source fed = some y ∧
      (∀ k < fed.length, ∃ r', x.1.feed sha256Hex source (fed.take k) = some (r', [])) ∧
      (∀ j, j ∈ y.1.held ↔ j ∈ x.1.held ∨ w.1 ≤ j ∧ j < w.2) ∧ Turn sha256Hex file l y := by
  obtain ⟨a, b⟩ := w
  have hranges := x.1.missingRanges_ranges
  rw [h.missingRanges_eq, h.total hcount] at hranges
  obtain ⟨-, hab, hwin, hb, hlack⟩ := hranges.head
  obtain ⟨r, out⟩ := x
  cases h with
  | request _ hwait =>
    rw [answers_request hcount hb hwin] at hfed
    have hmem : ∀ f, f ∈ fed.map Prod.fst ↔ ∃ i, (a ≤ i ∧ i < b) ∧ f = chunkFrame file i := by
      intro f
      rw [hfed.mem_iff, mem_map]
      refine exists_congr fun i => ?_
      rw [mem_range'_1, eq_comm (a := f)]
      exact and_congr_left fun _ => by omega
    have hnodup : (fed.map Prod.fst).Nodup := by
      refine hfed.nodup_iff.mpr (List.Nodup.map_on ?_ nodup_range')
      intro i hi j hj heq
      rw [mem_range'_1] at hi hj
      exact chunkFrame_inj (by omega) (by omega) heq
    have hne : fed ≠ [] := by
      rintro rfl
      exact not_mem_nil ((hmem (chunkFrame file a)).mpr ⟨a, ⟨Nat.le_refl a, hab⟩, rfl⟩)
    have hchunks : ∀ f ∈ fed.map Prod.fst,
        ∃ i, (a ≤ i ∧ i < b ∧ i ∉ r.held) ∧ f = chunkFrame file i := by
      intro f hf
      obtain ⟨i, hi, rfl⟩ := (hmem f).mp hf
      exact ⟨i, ⟨hi.1, hi.2, hlack i hi.1 hi.2⟩, rfl⟩
    obtain ⟨y, hy, hsilent, hheld, hturn⟩ := hwait.feed hcount hb source fed hne hnodup hchunks
      fun j haj hjb _ => (hmem _).mpr ⟨j, ⟨haj, hjb⟩, rfl⟩
    have hrest : y.1.missingRanges = l := by
      rw [DropReceiverCore.missingRanges_eq_iff, hturn.total hcount]
      refine hranges.fill.congr fun j _ => ?_
      rw [hheld, not_or]
    exact ⟨y, hy, hsilent, hheld, hrest ▸ hturn⟩

/-- After so many rounds, so many ranges are gone. -/
theorem Turn.rounds {n : Nat} {x y : DropReceiverCore × List Frame}
    (hcount : chunkCount file < 2 ^ 32) (h : Turn sha256Hex file l x) (hn : n ≤ l.length)
    (hrounds : Rounds sha256Hex (.new sha256Hex name file) peer source n x y) :
    Turn sha256Hex file (l.drop n) y := by
  induction hrounds generalizing l with
  | refl => exact h
  | round hfed hfeed _ ih =>
    obtain ⟨w, l, rfl⟩ := exists_cons_of_length_pos (l := l) (by omega)
    obtain ⟨y', hy', -, -, hturn⟩ := h.round source hcount hfed
    obtain rfl := Option.some.inj (hy'.symm.trans hfeed)
    exact ih hturn (Nat.le_of_succ_le_succ hn)

/-- The rounds can be played to the end. -/
theorem Turn.exists_rounds (hcount : chunkCount file < 2 ^ 32) (h : Turn sha256Hex file l x) :
    ∃ y, Rounds sha256Hex (.new sha256Hex name file) peer source l.length x y := by
  induction l generalizing x with
  | nil => exact ⟨x, .refl⟩
  | cons w l ih =>
    have hfed : ((((DropSenderCore.new sha256Hex name file).answers peer x.2).map
        fun f => (f, 0)).map Prod.fst).Perm
          ((DropSenderCore.new sha256Hex name file).answers peer x.2) := by
      rw [map_map]
      exact .of_eq (map_id _)
    obtain ⟨y, hy, -, -, hturn⟩ := h.round source hcount hfed
    obtain ⟨z, hz⟩ := ih hturn
    exact ⟨z, .round hfed hy hz⟩

end rounds

/-! ## Losses -/

/-- A tick past the timeout asks for the first range that is lacking, whatever was asked for. -/
theorem Pulling.tick {now : Nat} (hcount : chunkCount file < 2 ^ 32) (h : Pulling sha256Hex file r)
    (hnow : ∀ t, r.lastProgress = some t → rerequestTimeout < now - t) :
    Turn sha256Hex file r.missingRanges (r.tick now) := by
  have hidle : (r.lastProgress.all fun t => rerequestTimeout < now - t) = true := by
    cases hlast : r.lastProgress with
    | none => rfl
    | some t => simpa using hnow t hlast
  obtain ⟨o, hoffer, -⟩ := h.offer
  have htick : r.tick now = { r with lastProgress := some now }.requestMissing := by
    simp [DropReceiverCore.tick, hoffer, h.verified, hidle]
  rw [htick]
  have hpulling : Pulling sha256Hex file { r with lastProgress := some now } := { h with }
  exact hpulling.turn hcount

/-- A receiver that is through. -/
structure Finished (sha256Hex : Bytes → String) (file : Bytes) (r : DropReceiverCore) : Prop where
  offer : ∃ o, r.offer = some o ∧ IsOffer sha256Hex file o
  held : Held file r.held
  verified : r.verified = some true
  full : ∀ i < chunkCount file, i ∈ r.held

/-- Any chunk of the file leaves the receiver pulling, or through. -/
theorem Pulling.chunk (hcount : chunkCount file < 2 ^ 32)
    (h : Pulling sha256Hex file r ∨ Finished sha256Hex file r) (hi : i < chunkCount file)
    (source : SocketAddr) (now : Nat) :
    ∃ y, r.handleFrame sha256Hex source (chunkFrame file i) now = some y ∧
      (Pulling sha256Hex file y.1 ∨ Finished sha256Hex file y.1) := by
  obtain ⟨o, hoffer, ho⟩ := h.elim Pulling.offer Finished.offer
  have hheld := held_keep (h.elim Pulling.held Finished.held) hi now
  have hoffer' : (r.keep i (chunkOf file i) now).offer = some o := (keep_offer _ _ _).trans hoffer
  have hstep : r.handleFrame sha256Hex source (chunkFrame file i) now = _ :=
    onChunk_chunkOf hcount hoffer ho hheld hi
  rw [hstep]
  by_cases hlen : (r.keep i (chunkOf file i) now).held.entries.length = chunkCount file
  · refine ⟨_, by rw [if_pos hlen, finish_of_held hcount hheld ho hlen], .inr ?_⟩
    exact ⟨⟨o, hoffer', ho⟩, hheld, rfl, hheld.length_eq_iff.mp hlen⟩
  · have hlack : ∃ j < chunkCount file, j ∉ (r.keep i (chunkOf file i) now).held := by
      simpa using mt hheld.length_eq_iff.mpr hlen
    rw [if_neg hlen]
    rcases h with h | h
    · have hkeep := h.keep hi now hlack
      by_cases hdrained : (r.keep i (chunkOf file i) now).drained = true
      · obtain ⟨w, l, hl⟩ := hkeep.exists_range hcount
        refine ⟨_, by rw [if_pos hdrained, hkeep.requestMissing hl], .inl ?_⟩
        exact { hkeep with }
      · exact ⟨_, by rw [if_neg hdrained], .inl hkeep⟩
    · obtain ⟨j, hj, hno⟩ := hlack
      exact absurd (mem_keep.mpr (.inl (h.full j hj))) hno

/-- So do any number of chunks, some lost, repeated or out of order. -/
theorem Pulling.feed (hcount : chunkCount file < 2 ^ 32) (source : SocketAddr)
    (fed : List (Frame × Nat)) :
    ∀ {r : DropReceiverCore}, Pulling sha256Hex file r ∨ Finished sha256Hex file r →
      (∀ f ∈ fed.map Prod.fst, ∃ i < chunkCount file, f = chunkFrame file i) →
      ∃ y, r.feed sha256Hex source fed = some y ∧
        (Pulling sha256Hex file y.1 ∨ Finished sha256Hex file y.1) := by
  induction fed with
  | nil => exact fun h _ => ⟨(_, []), rfl, h⟩
  | cons x fed ih =>
    intro r h hchunks
    obtain ⟨f, now⟩ := x
    obtain ⟨i, hi, rfl : f = chunkFrame file i⟩ := hchunks f mem_cons_self
    obtain ⟨y, hy, hy'⟩ := Pulling.chunk hcount h hi source now
    obtain ⟨z, hz, hz'⟩ := ih hy' fun f hf => hchunks f (mem_cons_of_mem _ hf)
    exact ⟨(z.1, y.2 ++ z.2), by simp [DropReceiverCore.feed, hy, hz], hz'⟩

/-- Where the loop starts: with the receiver's own request, or with a tick past the timeout. -/
def Starts (r : DropReceiverCore) (start : DropReceiverCore × List Frame) : Prop :=
  start = r.requestMissing ∨
    ∃ now, (∀ t, r.lastProgress = some t → rerequestTimeout < now - t) ∧ start = r.tick now

/-- From any receiver in the middle of a transfer, started by its own request or by a tick past the
timeout, the loop takes as many rounds as the receiver lacks ranges, and they can be played. Before
the last round it has asked for one range, the next of them. Whatever the order in which its chunks
come back, they are taken, nothing is sent before the last of them and one frame after it, and what
is held grows by that range. After the last round the file is there and verified. A receiver that
gets any other chunks of the file is one to which all this applies, or it is through. -/
theorem pull_loop_ends (hcount : chunkCount file < 2 ^ 32 - 64) (h : Pulling sha256Hex file r)
    (name : String) (peer source : SocketAddr) :
    (∀ start, Starts r start →
      (∃ x, Rounds sha256Hex (.new sha256Hex name file) peer source r.missingRanges.length
        start x) ∧
      (∀ n x, Rounds sha256Hex (.new sha256Hex name file) peer source n start x →
        ∀ w, r.missingRanges[n]? = some w →
          x.1.verified = none ∧ x.2 = [.request [((w.1 : Int), (w.2 : Int))]] ∧
          ∀ fed : List (Frame × Nat), (fed.map Prod.fst).Perm
              ((DropSenderCore.new sha256Hex name file).answers peer x.2) →
            (∀ k < fed.length, ∃ r', x.1.feed sha256Hex source (fed.take k) = some (r', [])) ∧
            ∃ y, x.1.feed sha256Hex source fed = some y ∧ y.2.length = 1 ∧
              ∀ j, (j ∈ y.1.held ↔ j ∈ x.1.held ∨ w.1 ≤ j ∧ j < w.2) ∧
                (w.1 ≤ j ∧ j < w.2 → j ∉ x.1.held)) ∧
      (∀ x, Rounds sha256Hex (.new sha256Hex name file) peer source r.missingRanges.length
          start x →
        x.1.verified = some true ∧ x.1.completion = some (file, true) ∧
          x.2 = [.done (sha256Hex file)])) ∧
    (∀ fed : List (Frame × Nat),
      (∀ f ∈ fed.map Prod.fst, ∃ i < chunkCount file, f = chunkFrame file i) →
      ∃ y, r.feed sha256Hex source fed = some y ∧
        (Pulling sha256Hex file y.1 ∨ y.1.verified = some true)) := by
  have hcount' : chunkCount file < 2 ^ 32 := by omega
  constructor
  · intro start hstart
    have hturn : Turn sha256Hex file r.missingRanges start := by
      rcases hstart with rfl | ⟨now, hnow, rfl⟩
      · exact h.turn hcount'
      · exact h.tick hcount' hnow
    refine ⟨hturn.exists_rounds hcount', ?_, ?_⟩
    · intro n x hrounds w hw
      obtain ⟨hn, hget⟩ := List.getElem?_eq_some_iff.mp hw
      have hx := hturn.rounds hcount' hn.le hrounds
      rw [drop_eq_getElem_cons hn, hget] at hx
      have hranges := x.1.missingRanges_ranges
      rw [hx.missingRanges_eq] at hranges
      obtain ⟨-, -, -, -, hlack⟩ := hranges.head
      have hasked : x.1.verified = none ∧ x.2 = [.request [((w.1 : Int), (w.2 : Int))]] := by
        cases hx with
        | request _ hwait => exact ⟨hwait.verified, rfl⟩
      refine ⟨hasked.1, hasked.2, fun fed hfed => ?_⟩
      obtain ⟨y, hy, hsilent, hheld, hnext⟩ := hx.round source hcount' hfed
      exact ⟨hsilent, y, hy, hnext.length_sent,
        fun j => ⟨hheld j, fun hj => hlack j hj.1 hj.2⟩⟩
    · intro x hrounds
      have hx := hturn.rounds hcount' (le_rfl) hrounds
      rw [drop_length] at hx
      cases hx with
      | done _ _ hverified hcompletion => exact ⟨hverified, hcompletion, rfl⟩
  · intro fed hfed
    obtain ⟨y, hy, hpulling | hfinished⟩ := Pulling.feed hcount' source fed (.inl h) hfed
    · exact ⟨y, hy, .inl hpulling⟩
    · exact ⟨y, hy, .inr hfinished.verified⟩

/-- A receiver with the offer of a file of two chunks and the first of them. -/
def halfway : DropReceiverCore :=
  { DropReceiverCore.new (AList.singleton 0 (List.replicate 1024 7)) with
    offer := some ⟨"f", 1025, 1024, 2, "7"⟩, senderAddr := some ⟨1, 1⟩ }

theorem halfway_pulling : Pulling (fun _ => "7") Transfer.longFile halfway where
  offer := ⟨_, rfl, by decide +kernel, by decide +kernel, rfl⟩
  sender := rfl
  held := by
    intro i bytes hi
    have h0 : i = 0 := mem_singleton.mp (mem_of_lookup hi)
    subst h0
    refine ⟨by decide +kernel, ?_⟩
    rw [← Option.some.inj hi]
    decide +kernel
  verified := rfl
  lacking := ⟨1, by decide +kernel, by decide +kernel⟩

/-- One round is left, also when it is a tick that starts it. -/
theorem pull_loop_ends_halfway :
    ∃ x, Rounds (fun _ => "7") (.new (fun _ => "7") "f" Transfer.longFile) ⟨2, 2⟩ ⟨1, 1⟩ 1
        (halfway.tick 0) x ∧
      x.1.verified = some true ∧ x.1.completion = some (Transfer.longFile, true) := by
  have hone : halfway.missingRanges.length = 1 := by decide +kernel
  obtain ⟨hstart, -⟩ :=
    pull_loop_ends (by decide +kernel) halfway_pulling "f" ⟨2, 2⟩ ⟨1, 1⟩
  have hidle : ∀ t, halfway.lastProgress = some t → rerequestTimeout < 0 - t :=
    fun t ht => absurd ht.symm (Option.some_ne_none t)
  obtain ⟨⟨x, hx⟩, -, hdone⟩ := hstart (halfway.tick 0) (.inr ⟨0, hidle, rfl⟩)
  obtain ⟨hverified, hcompletion, -⟩ := hdone x hx
  exact ⟨x, hone ▸ hx, hverified, hcompletion⟩

end Telesthete.Drop
