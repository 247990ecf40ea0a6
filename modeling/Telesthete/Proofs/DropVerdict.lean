import Telesthete.Drop.Task
import Telesthete.Proofs.DropRanges

/-!
# When a receiver comes to a verdict

A receiver puts the file together in one place only, on a chunk, when it then
holds as many chunks as were offered. An OFFER does not look whether there is
anything left to ask for: a receiver that has every chunk before the OFFER, or
whose OFFER has no chunks, waits for a chunk that nobody will send. Short of
that, a receiver that holds every chunk has a verdict (`verdict_when_full`).

Neither does a chunk look whether there is a verdict already, so each chunk that
comes after it gives another. Short of that, there is one verdict for each file
(`one_verdict`).
-/

namespace Telesthete.Drop

open Telesthete.Lib
open Telesthete.Band (SocketAddr)

variable {sha256Hex : Bytes → String} {r r' : DropReceiverCore}

/-- The sender of a file of one byte, under a digest that says "7" of everything. -/
def tinySender : DropSenderCore := .new (fun _ => "7") "f" [7]

/-- The sender of a file of three chunks. -/
def longSender : DropSenderCore := .new (fun _ => "7") "f" (List.replicate 2049 7)

namespace DropReceiverCore

variable {out : DropReceiverCore × List Frame}

/-! ## What an input changes -/

/-- Everything but what is asked for and when. -/
structure SameFile (r r' : DropReceiverCore) : Prop where
  offer : r'.offer = r.offer
  held : r'.held = r.held
  senderAddr : r'.senderAddr = r.senderAddr
  verified : r'.verified = r.verified
  completion : r'.completion = r.completion

/-- Asking sends at most requests. -/
theorem requestMissing_sameFile (r : DropReceiverCore) :
    SameFile r r.requestMissing.1 ∧ ∀ sha256, .done sha256 ∉ r.requestMissing.2 := by
  simp only [requestMissing]
  split
  · exact ⟨⟨rfl, rfl, rfl, rfl, rfl⟩, by simp⟩
  · split
    · exact ⟨⟨rfl, rfl, rfl, rfl, rfl⟩, by simp⟩
    · exact ⟨⟨rfl, rfl, rfl, rfl, rfl⟩, by simp⟩

theorem tick_sameFile (r : DropReceiverCore) (now : Nat) :
    SameFile r (r.tick now).1 ∧ ∀ sha256, .done sha256 ∉ (r.tick now).2 := by
  simp only [tick]
  split
  · obtain ⟨hsame, hsent⟩ := requestMissing_sameFile { r with lastProgress := some now }
    exact ⟨{ hsame with }, hsent⟩
  · exact ⟨⟨rfl, rfl, rfl, rfl, rfl⟩, by simp⟩

/-- What an OFFER sets, and that it confirms nothing. -/
structure Offered (r : DropReceiverCore) (source : SocketAddr) (o : OfferPayload)
    (out : DropReceiverCore × List Frame) : Prop where
  offer : out.1.offer = some o
  held : out.1.held = if r.namesOther o then ∅ else r.held
  senderAddr : out.1.senderAddr = some source
  verified : out.1.verified = if r.namesOther o then none else r.verified
  completion : out.1.completion = r.completion
  sent : ∀ sha256, .done sha256 ∉ out.2

theorem onOffer_offered (r : DropReceiverCore) (source : SocketAddr) (o : OfferPayload)
    (now : Nat) : Offered r source o (r.onOffer source o now) := by
  have hcleared : r.onOffer source o now =
      { (if r.namesOther o then { r with held := ∅, verified := none } else r) with
        offer := some o
        senderAddr := some source
        lastProgress := some now }.requestMissing := rfl
  rw [hcleared]
  obtain ⟨hsame, hsent⟩ := requestMissing_sameFile
    { (if r.namesOther o then { r with held := ∅, verified := none } else r) with
      offer := some o
      senderAddr := some source
      lastProgress := some now }
  refine ⟨hsame.offer, hsame.held.trans ?_, hsame.senderAddr, hsame.verified.trans ?_,
    hsame.completion.trans ?_, hsent⟩
  all_goals
    split <;> rfl

/-- A chunk the receiver does not ignore: there is an offer, and an index in its range. -/
def Takes (r : DropReceiverCore) (body : Bytes) : Prop :=
  r.offer.isSome ∧ 4 ≤ body.length ∧ ofBe (body.take 4) < r.total

instance instDecidableTakes (r : DropReceiverCore) (body : Bytes) : Decidable (r.Takes body) :=
  inferInstanceAs (Decidable (_ ∧ _))

/-- What such a chunk does: with as many chunks as offered there is a verdict, otherwise none. -/
structure Chunked (r : DropReceiverCore) (index : Nat) (out : DropReceiverCore × List Frame) :
    Prop where
  offer : out.1.offer = r.offer
  senderAddr : out.1.senderAddr = r.senderAddr
  mem_held : ∀ j, j ∈ out.1.held ↔ j ∈ r.held ∨ j = index
  verdict :
    (out.1.verified.isSome ∧ out.1.completion.isSome ∧ ∃ sha256, out.2 = [.done sha256]) ∨
    (out.1.held.entries.length % 2 ^ 32 ≠ r.total ∧ out.1.verified = r.verified ∧
      out.1.completion = r.completion ∧ ∀ sha256, .done sha256 ∉ out.2)

theorem onChunk_ignored {body : Bytes} {now : Nat} (h : ¬ r.Takes body) :
    r.onChunk sha256Hex body now = some (r, []) := by
  unfold onChunk
  cases hoffer : r.offer with
  | none => rfl
  | some o =>
    dsimp only
    split
    · rfl
    · next hlong =>
      rw [if_pos]
      by_contra hlt
      exact h ⟨by rw [hoffer]; rfl, not_lt.mp hlong, not_le.mp hlt⟩

theorem onChunk_chunked {body : Bytes} {now : Nat}
    (htakes : r.Takes body) (h : r.onChunk sha256Hex body now = some out) :
    Chunked r (ofBe (body.take 4)) out := by
  obtain ⟨hsome, hlong, hlt⟩ := htakes
  obtain ⟨o, hoffer⟩ := Option.isSome_iff_exists.mp hsome
  obtain ⟨hsender, hverified, -, hcompletion⟩ :=
    keep_unchanged (r := r) (ofBe (body.take 4)) (body.drop 4) now
  have hkept := keep_offer (r := r) (ofBe (body.take 4)) (body.drop 4) now
  have htotal : (r.keep (ofBe (body.take 4)) (body.drop 4) now).total = r.total := by
    rw [total, total, hkept]
  unfold onChunk at h
  rw [hoffer] at h
  dsimp only at h
  rw [if_neg (not_lt.mpr hlong), if_neg (not_le.mpr hlt), htotal] at h
  by_cases hlen : (r.keep (ofBe (body.take 4)) (body.drop 4) now).held.entries.length % 2 ^ 32 =
      r.total
  · rw [if_pos hlen] at h
    obtain ⟨data, -, rfl⟩ := Option.map_eq_some_iff.mp h
    exact ⟨hkept, hsender, fun j => mem_keep, .inl ⟨rfl, rfl, _, rfl⟩⟩
  · rw [if_neg hlen] at h
    split at h
    · cases h
      obtain ⟨hsame, hsent⟩ :=
        requestMissing_sameFile (r.keep (ofBe (body.take 4)) (body.drop 4) now)
      refine ⟨hsame.offer.trans hkept, hsame.senderAddr.trans hsender, fun j => ?_, .inr ?_⟩
      · rw [hsame.held, mem_keep]
      · exact ⟨hsame.held ▸ hlen, hsame.verified.trans hverified,
          hsame.completion.trans hcompletion, hsent⟩
    · cases h
      exact ⟨hkept, hsender, fun j => mem_keep, .inr ⟨hlen, hverified, hcompletion, by simp⟩⟩

/-! ## As soon as every chunk is there -/

/-- An OFFER for another file that has chunks; or one that finds a verdict; or one that finds a
chunk lacking and no index held beyond those it offers. -/
def OfferLeavesWork (r : DropReceiverCore) (o : OfferPayload) : Prop :=
  if r.namesOther o then o.totalChunks % 2 ^ 32 ≠ 0
  else r.verified.isSome ∨
    (∀ i ∈ r.held, i < o.totalChunks % 2 ^ 32) ∧ ∃ i < o.totalChunks % 2 ^ 32, i ∉ r.held

/-- Every OFFER is of this kind. -/
def LeavesWork (r : DropReceiverCore) : Input → Prop
  | .frame _ (.offer o) _ => r.OfferLeavesWork o
  | _ => True

/-- A verdict, or something left to ask for. -/
def Working (r : DropReceiverCore) : Prop :=
  r.offer.isSome → r.verified.isSome ∨ (∀ i ∈ r.held, i < r.total) ∧ ∃ i < r.total, i ∉ r.held

theorem SameFile.working (h : SameFile r r') (hr : r.Working) : r'.Working := by
  unfold Working total at hr ⊢
  rwa [h.offer, h.held, h.verified]

theorem Offered.working {source : SocketAddr} {o : OfferPayload}
    (h : Offered r source o out)
    (hok : r.OfferLeavesWork o) : out.1.Working := by
  intro _
  have htotal : out.1.total = o.totalChunks % 2 ^ 32 := by
    rw [total, h.offer]
    rfl
  rw [h.held, h.verified, htotal]
  unfold OfferLeavesWork at hok
  by_cases hother : r.namesOther o = true
  · rw [if_pos hother] at hok
    rw [if_pos hother, if_pos hother]
    refine .inr ⟨fun i hi => absurd hi (AList.notMem_empty i), 0, Nat.pos_of_ne_zero hok, ?_⟩
    exact AList.notMem_empty 0
  · rw [if_neg hother] at hok
    rwa [if_neg hother, if_neg hother]

theorem Chunked.working {index : Nat}
    (h : Chunked r index out) (hlt : index < r.total) (hr : r.Working) : out.1.Working := by
  intro hoffer
  have htotal : out.1.total = r.total := by rw [total, total, h.offer]
  rcases h.verdict with ⟨hverified, -⟩ | ⟨hlen, hverified, -⟩
  · exact .inl hverified
  · rw [hverified, htotal]
    refine (hr (h.offer ▸ hoffer)).imp id ?_
    rintro ⟨hbound, -⟩
    have hbound' : ∀ i ∈ out.1.held, i < r.total := by
      intro i hi
      rcases (h.mem_held i).mp hi with hi | rfl
      · exact hbound i hi
      · exact hlt
    refine ⟨hbound', ?_⟩
    by_contra hfull
    have hall : ∀ i < r.total, i ∈ out.1.held := by simpa using hfull
    rw [(length_entries_eq_iff hbound').mpr hall] at hlen
    exact hlen (Nat.mod_eq_of_lt (Nat.mod_lt _ (by decide)))

/-- What one input can do. -/
theorem answer_working {input : Input} (hr : r.Working)
    (hok : r.LeavesWork input) (h : r.answer sha256Hex input = some out) : out.1.Working := by
  cases input with
  | tick now =>
    cases h
    exact (r.tick_sameFile now).1.working hr
  | frame source frame now =>
    cases frame with
    | offer o =>
      cases h
      exact (r.onOffer_offered source o now).working hok
    | chunk body =>
      by_cases htakes : r.Takes body
      · exact (onChunk_chunked htakes h).working htakes.2.2 hr
      · obtain rfl := Option.some.inj ((onChunk_ignored htakes).symm.trans h)
        exact hr
    | request ranges =>
      cases h
      exact hr
    | done sha256 =>
      cases h
      exact hr

/-- In every run whose OFFERs leave something to ask for, a receiver that has an offer and holds
every chunk of it has a verdict, whatever it held in the beginning. -/
theorem verdict_when_full (held : AList fun _ : Nat => Bytes)
    (hrun : GuardedRun (step sha256Hex) LeavesWork (new held) r) (hoffer : r.offer.isSome)
    (hfull : ∀ i < r.total, i ∈ r.held) : r.verified.isSome := by
  have hworking : r.Working := by
    refine hrun.invariant (fun h => absurd h Bool.false_ne_true) ?_
    intro s input s' hs hok hstep
    obtain ⟨out, hout, rfl⟩ := Option.map_eq_some_iff.mp hstep
    exact answer_working hs hok hout
  rcases hworking hoffer with hverified | ⟨-, i, hi, hlack⟩
  · exact hverified
  · exact absurd (hfull i hi) hlack

def isChunk : Input → Bool
  | .frame _ (.chunk _) _ => true
  | _ => false

theorem leavesWork_of_isChunk (r : DropReceiverCore) (input : Input) (h : isChunk input = true) :
    LeavesWork r input := by
  cases input with
  | tick now => trivial
  | frame source frame now =>
    cases frame with
    | offer o => cases h
    | _ => trivial

/-- A receiver that has nothing, the OFFER, and the three chunks with the last one first. -/
theorem verdict_when_full_three :
    ∃ r, GuardedRun (step fun _ => "7") LeavesWork (new ∅) r ∧ r.total = 3 ∧
      (∀ i < r.total, i ∈ r.held) ∧ r.verified.isSome := by
  have hchunks : ∃ r, GuardedRun (step fun _ => "7") LeavesWork
      ((new ∅).onOffer ⟨1, 1⟩ ⟨"f", 2049, 1024, 3, "7"⟩ 0).1 r ∧
        (r.offer.isSome ∧ r.total = 3 ∧ ∀ i < r.total, i ∈ r.held) :=
    exists_guardedRun (fun _ input => isChunk input)
      ([2, 0, 1].map fun i _ => .frame ⟨1, 1⟩ (chunkFrame longSender.data i) 1) (by decide +kernel)
      leavesWork_of_isChunk
  obtain ⟨r, hchunks, hoffer, htotal, hfull⟩ := hchunks
  have hrun : GuardedRun (step fun _ => "7") LeavesWork (new ∅) r := by
    refine .head ⟨.frame ⟨1, 1⟩ (.offer ⟨"f", 2049, 1024, 3, "7"⟩) 0, ?_, rfl⟩ hchunks
    exact .inr ⟨fun i hi => absurd hi (AList.notMem_empty i), 0, by decide,
      AList.notMem_empty 0⟩
  exact ⟨r, hrun, htotal, hfull, verdict_when_full ∅ hrun hoffer hfull⟩

/-- A receiver that has the one chunk of the file when the OFFER comes: it has no verdict, sends
nothing, and a tick does not change that. -/
theorem full_without_verdict :
    ((new (AList.singleton 0 [7])).handleFrame (fun _ => "7") ⟨1, 1⟩ tinySender.offerFrame 0).any
      fun out => out.1.offer.isSome && decide (∀ i < out.1.total, i ∈ out.1.held) &&
        out.1.verified.isNone && out.2.isEmpty &&
        (out.1.tick 5000).1.verified.isNone && (out.1.tick 5000).2.isEmpty := by
  decide +kernel

end DropReceiverCore

/-! ## Once -/

def isDone : Frame → Bool
  | .done _ => true
  | _ => false

theorem countP_isDone_eq_zero {dest : SocketAddr} {frames : List Frame}
    (h : ∀ sha256, .done sha256 ∉ frames) :
    (frames.map fun frame => (dest, frame)).countP (fun out => isDone out.2) = 0 := by
  rw [List.countP_eq_zero]
  intro out hout
  obtain ⟨frame, hframe, rfl⟩ := List.mem_map.mp hout
  cases frame with
  | done sha256 => exact absurd hframe (h sha256)
  | offer o => exact Bool.false_ne_true
  | request ranges => exact Bool.false_ne_true
  | chunk body => exact Bool.false_ne_true

namespace ReceiverTask

variable {t t' : ReceiverTask} {out : DropReceiverCore × List Frame}

/-- No chunk that the receiver takes comes while there is a verdict. -/
def BeforeVerdict (t : ReceiverTask) : TaskEvent → Prop
  | .packet source sequence (.chunk body) _ =>
    t.replayStale source sequence = false → t.core.Takes body → t.core.verified = none
  | _ => True

/-- How many DONEs were sent. -/
def dones (t : ReceiverTask) : Nat := t.sent.countP fun out => isDone out.2

/-- One verdict at most was sent and reported, and none while there is none. -/
structure Once (t : ReceiverTask) : Prop where
  taken : t.core.completion = none
  unconfirmed : t.core.verified = none → t.dones = 0 ∧ t.reported = []
  dones_le : t.dones ≤ 1
  reported_le : t.reported.length ≤ 1

/-- A pass that comes to no verdict confirms nothing. -/
theorem Once.flush_quiet (h : t.Once) (hcompletion : out.1.completion = none)
    (hsent : ∀ sha256, .done sha256 ∉ out.2)
    (hverified : out.1.verified = none → t.dones = 0 ∧ t.reported = []) : (t.flush out).Once := by
  have hdones : (t.flush out).dones = t.dones := by
    show (t.sent ++ _).countP _ = _
    rw [List.countP_append]
    cases out.1.senderAddr with
    | none => rfl
    | some dest => exact congrArg (_ + ·) (countP_isDone_eq_zero hsent)
  have hreported : (t.flush out).reported = t.reported := by
    show t.reported ++ out.1.completion.toList = _
    rw [hcompletion]
    exact List.append_nil _
  refine ⟨rfl, ?_, hdones ▸ h.dones_le, hreported ▸ h.reported_le⟩
  rw [hdones, hreported]
  exact hverified

/-- The first verdict is sent and reported once. -/
theorem flush_verdict (hdones : t.dones = 0) (hreported : t.reported = [])
    (hverified : out.1.verified.isSome) {sha256 : String} (hsent : out.2 = [.done sha256]) :
    (t.flush out).Once := by
  refine ⟨rfl, fun hnone => ?_, ?_, ?_⟩
  · have hsome : (t.flush out).core.verified.isSome := hverified
    rw [hnone] at hsome
    exact absurd hsome Bool.false_ne_true
  · show (t.sent ++ _).countP _ ≤ 1
    rw [List.countP_append, hsent]
    show t.dones + _ ≤ 1
    rw [hdones, Nat.zero_add]
    cases out.1.senderAddr with
    | none => exact Nat.zero_le 1
    | some dest => exact Nat.le_refl 1
  · show (t.reported ++ out.1.completion.toList).length ≤ 1
    rw [hreported, List.nil_append]
    cases out.1.completion with
    | none => exact Nat.zero_le 1
    | some c => exact Nat.le_refl 1

/-- An OFFER: the history starts over when the verdict is forgotten. -/
theorem Once.offer {source : SocketAddr} {o : OfferPayload} (h : t.Once)
    (hoffered : DropReceiverCore.Offered t.core source o out) :
    ((t.startOver (.offer o)).flush out).Once := by
  have hcompletion := hoffered.completion.trans h.taken
  rw [startOver]
  by_cases hother : t.core.namesOther o = true
  · rw [if_pos hother]
    have hempty : ({ t with sent := [], reported := [] } : ReceiverTask).Once :=
      ⟨h.taken, fun _ => ⟨rfl, rfl⟩, Nat.zero_le 1, Nat.zero_le 1⟩
    exact hempty.flush_quiet hcompletion hoffered.sent fun _ => ⟨rfl, rfl⟩
  · rw [if_neg hother]
    refine h.flush_quiet hcompletion hoffered.sent fun hnone => h.unconfirmed ?_
    rwa [hoffered.verified, if_neg hother] at hnone

theorem Once.exec {e : TaskEvent} (h : t.Once) (hok : t.BeforeVerdict e)
    (he : t.exec sha256Hex e = some t') : t'.Once := by
  cases e with
  | rebase addr =>
    cases he
    exact { h with }
  | tick now =>
    cases he
    obtain ⟨hsame, hsent⟩ := t.core.tick_sameFile now
    exact h.flush_quiet (hsame.completion.trans h.taken) hsent
      fun hnone => h.unconfirmed (hsame.verified.symm.trans hnone)
  | packet source sequence frame now =>
    cases hstale : t.replayStale source sequence with
    | true =>
      rw [ReceiverTask.exec, if_pos hstale] at he
      cases he
      exact h
    | false =>
      rw [ReceiverTask.exec, if_neg (by rw [hstale]; exact Bool.false_ne_true)] at he
      obtain ⟨out, hout, rfl⟩ := Option.map_eq_some_iff.mp he
      have hmark : ({ t with watermark := t.watermark.insert source sequence } :
          ReceiverTask).Once := { h with }
      cases frame with
      | request ranges =>
        cases hout
        exact hmark.flush_quiet h.taken (by simp) h.unconfirmed
      | done sha256 =>
        cases hout
        exact hmark.flush_quiet h.taken (by simp) h.unconfirmed
      | chunk body =>
        by_cases htakes : t.core.Takes body
        · obtain ⟨hdones, hreported⟩ := h.unconfirmed (hok hstale htakes)
          rcases (DropReceiverCore.onChunk_chunked htakes hout).verdict with
            ⟨hverified, -, sha256, hsent⟩ | ⟨-, hverified, hcompletion, hsent⟩
          · exact flush_verdict hdones hreported hverified hsent
          · exact hmark.flush_quiet (hcompletion.trans h.taken) hsent
              fun _ => ⟨hdones, hreported⟩
        · obtain rfl :=
            Option.some.inj ((DropReceiverCore.onChunk_ignored htakes).symm.trans hout)
          exact hmark.flush_quiet h.taken (by simp) h.unconfirmed
      | offer o =>
        cases hout
        exact hmark.offer (t.core.onOffer_offered source o now)

/-- In every run in which no chunk that the receiver takes comes while it has a verdict, one DONE
at most was sent and one completion at most reported since the last OFFER for another file. -/
theorem one_verdict (held : AList fun _ : Nat => Bytes)
    (hrun : GuardedRun (exec sha256Hex) BeforeVerdict (init held) t) :
    t.dones ≤ 1 ∧ t.reported.length ≤ 1 := by
  have hinit : (init held).Once :=
    ⟨rfl, fun _ => ⟨rfl, rfl⟩, Nat.zero_le 1, Nat.zero_le 1⟩
  have honce : t.Once := hrun.invariant hinit fun _ _ _ hs hok he => hs.exec hok he
  exact ⟨honce.dones_le, honce.reported_le⟩

theorem beforeVerdict_of_isNone (t : ReceiverTask) (e : TaskEvent)
    (h : t.core.verified.isNone = true) : BeforeVerdict t e := by
  have hnone : t.core.verified = none := Option.isNone_iff_eq_none.mp h
  cases e with
  | packet source sequence frame now =>
    cases frame with
    | chunk body => exact fun _ _ => hnone
    | _ => trivial
  | _ => trivial

/-- The three chunks of a file, the last one first and the second one late. -/
theorem one_verdict_three :
    ∃ t, GuardedRun (exec fun _ => "7") BeforeVerdict (init ∅) t ∧
      (t.dones = 1 ∧ t.reported = [(longSender.data, true)]) ∧
      t.dones ≤ 1 ∧ t.reported.length ≤ 1 := by
  have hplayed : ∃ t, GuardedRun (exec fun _ => "7") BeforeVerdict (init ∅) t ∧
      (t.dones = 1 ∧ t.reported = [(longSender.data, true)]) :=
    exists_guardedRun (fun t _ => t.core.verified.isNone)
      [fun _ => .packet ⟨1, 1⟩ 1 longSender.offerFrame 0,
        fun _ => .packet ⟨1, 1⟩ 2 (chunkFrame longSender.data 2) 1,
        fun _ => .packet ⟨1, 1⟩ 3 (chunkFrame longSender.data 0) 2, fun _ => .tick 3000,
        fun _ => .packet ⟨1, 1⟩ 4 (chunkFrame longSender.data 1) 3001]
      (by decide +kernel) beforeVerdict_of_isNone
  obtain ⟨t, hrun, hverdict⟩ := hplayed
  exact ⟨t, hrun, hverdict, one_verdict ∅ hrun⟩

/-- The chunk is late, so the receiver asks twice, and the sender answers twice. -/
def askedTwice : Option ReceiverTask :=
  play (exec fun _ => "7") (fun _ _ => true) (init ∅)
    [fun _ => .packet ⟨1, 1⟩ 1 tinySender.offerFrame 0, fun _ => .tick 2000,
     fun _ => .packet ⟨1, 1⟩ 2 (chunkFrame [7] 0) 2001,
     fun _ => .packet ⟨1, 1⟩ 3 (chunkFrame [7] 0) 2002]

/-- The two chunks are the sender's answers to the two requests, and there are two DONEs and two
reports. -/
theorem two_verdicts :
    askedTwice.any (fun t =>
      t.sent.map Prod.snd == [.request [(0, 1)], .request [(0, 1)], .done "7", .done "7"] &&
      tinySender.answers ⟨2, 2⟩ ((t.sent.map Prod.snd).take 2) ==
        [chunkFrame [7] 0, chunkFrame [7] 0] &&
      t.dones == 2 && t.reported == [([7], true), ([7], true)]) = true := by
  decide +kernel

end ReceiverTask

end Telesthete.Drop
