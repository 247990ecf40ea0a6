import Telesthete.Channel.Log
import Telesthete.Lib.Assoc
import Telesthete.Python.Channel

/-!
# What a Python channel has said and heard

A Python channel relative to two logs, its own and its peer's, as `Half`
does it for a Rust core. Here a log has less of a shape. A channel that was
torn down and gets a SYN in turn says SYN+ACK once more, and a FIN in turn
is answered whatever was said before, so there may be a SYN behind data and
more than one FIN. What is kept of the shape is what a Rust peer relies on:
as long as a channel has taken in no more than one frame, no data comes
before a SYN in its log.

The receiving half needs nothing of the state: every frame is processed when
it is its turn, so what was handed to the reassembler are the chunks of the
part of the peer's log that was taken in.

The sending half says that the chunks in the log, followed by those still
queued, are the chunks ever queued, up to the first teardown. From then on
the queue holds no chunk, provided nothing is sent any more, and the chunks
in the log are a prefix of the ones queued.
-/

namespace Telesthete.Python

open Telesthete.Lib Telesthete.Wire Telesthete.Channel List Option

/-- The entry of the log a kept frame is a copy of. -/
def Pending.entry (p : Pending) : Unacked := ⟨p.flags, p.seq, p.data⟩

/-- The chunks among what is queued. -/
def chunksIn (queue : List Queued) : List Bytes :=
  queue.filterMap fun
    | .chunk data => some data
    | .fin => none

@[simp] theorem chunksIn_nil : chunksIn [] = [] := rfl

@[simp] theorem chunksIn_append (l₁ l₂ : List Queued) :
    chunksIn (l₁ ++ l₂) = chunksIn l₁ ++ chunksIn l₂ :=
  filterMap_append

@[simp] theorem chunksIn_chunk (data : Bytes) (rest : List Queued) :
    chunksIn (.chunk data :: rest) = data :: chunksIn rest := rfl

@[simp] theorem chunksIn_fin (rest : List Queued) : chunksIn (.fin :: rest) = chunksIn rest := rfl

@[simp] theorem chunksIn_map_chunk (chunks : List Bytes) :
    chunksIn (chunks.map Queued.chunk) = chunks := by
  induction chunks with
  | nil => rfl
  | cons chunk chunks ih =>
    rw [map_cons, chunksIn_chunk, ih]

/-! ## The two halves -/

/-- A frame that an end with this log and receive position can have transmitted. -/
def Sent (log : Log) (rcvNext : Nat) (b : Bytes) : Prop := ∃ w, WireOk log rcvNext w b

theorem Sent.mono {log ext : Log} {n m : Nat} {b : Bytes} (h : Sent log n b) (hnm : n ≤ m) :
    Sent (log ++ ext) m b := by
  obtain ⟨w, hw⟩ := h
  exact ⟨w, hw.mono hnm⟩

theorem Sent.mono_rcvNext {log : Log} {n m : Nat} {b : Bytes} (h : Sent log n b) (hnm : n ≤ m) :
    Sent log m b := by
  obtain ⟨w, hw⟩ := h
  exact ⟨w, hw.mono_rcvNext hnm⟩

/-- The numbers and the frames of an end agree with its log. -/
structure Said (log : Log) (sndNext rcvNext : Nat) (outbox : List Bytes) : Prop where
  numbered : Numbered Unacked.seq log
  kinds : Kinds log
  len : log.length = sndNext
  wire : ∀ b ∈ outbox, Sent log rcvNext b

/-- What an end has taken in of its peer's log. -/
structure Heard (peer : Log) (rcvNext : Nat) (fed : List Bytes) : Prop where
  le : rcvNext ≤ peer.length
  fed : fed = payloads (peer.take rcvNext)

section ends

variable {log peer ext : Log} {sndNext rcvNext n : Nat} {outbox fed : List Bytes}
variable {w : UInt16}

theorem Said.mono_rcvNext (h : Said log sndNext rcvNext outbox) (hle : rcvNext ≤ n) :
    Said log sndNext n outbox :=
  { h with wire := fun b hb => (h.wire b hb).mono_rcvNext hle }

/-- A frame without a number of its own, or one that was numbered before. -/
theorem Said.emit {f : ChannelFrame} (h : Said log sndNext rcvNext outbox)
    (hf : FrameOk log rcvNext f.window f) :
    Said log sndNext rcvNext (outbox ++ [f.serialize]) :=
  { h with wire := forall_mem_snoc h.wire ⟨f.window, f, rfl, hf⟩ }

theorem Said.pureAck (h : Said log sndNext rcvNext outbox) :
    Said log sndNext rcvNext
      (outbox ++ [(⟨flagAck, rcvNext, w, sndNext, []⟩ : ChannelFrame).serialize]) :=
  h.emit
    { ackNum := le_rfl
      seq := le_of_eq h.len.symm
      window := rfl
      kind := .inl ⟨rfl, rfl⟩ }

theorem Said.resend {u : Unacked} (h : Said log sndNext rcvNext outbox) (hu : u ∈ log) :
    Said log sndNext rcvNext
      (outbox ++ [(⟨u.flags, rcvNext, w, u.seq, u.data⟩ : ChannelFrame).serialize]) :=
  h.emit
    { ackNum := le_rfl
      seq := le_of_lt (h.numbered.seq_lt hu)
      window := rfl
      kind := .inr ⟨u, hu, rfl, rfl, rfl⟩ }

/-- A frame under the next number. -/
theorem Said.snoc {flags : UInt8} {data : Bytes} (h : Said log sndNext rcvNext outbox)
    (hkind : Unacked.IsSyn ⟨flags, sndNext, data⟩ ∨ Unacked.IsData ⟨flags, sndNext, data⟩ ∨
      Unacked.IsFin ⟨flags, sndNext, data⟩) :
    Said (log ++ [⟨flags, sndNext, data⟩]) (sndNext + 1) rcvNext
      (outbox ++ [(⟨flags, rcvNext, w, sndNext, data⟩ : ChannelFrame).serialize]) := by
  have hlog : Said (log ++ [⟨flags, sndNext, data⟩]) (sndNext + 1) rcvNext outbox := by
    refine ⟨h.numbered.snoc h.len.symm, forall_mem_snoc h.kinds hkind, ?_,
      fun b hb => (h.wire b hb).mono (le_rfl)⟩
    rw [length_append, length_singleton, h.len]
  exact hlog.resend (mem_append_right _ (mem_singleton_self _))

theorem Heard.extend (h : Heard peer rcvNext fed) : Heard (peer ++ ext) rcvNext fed where
  le := by
    have := h.le
    rw [length_append]
    omega
  fed := by rw [take_append_of_le_length h.le, h.fed]

/-- Taking in the next entry. -/
theorem Heard.next {u : Unacked} (h : Heard peer rcvNext fed) (hu : peer[rcvNext]? = some u) :
    Heard peer (rcvNext + 1) (fed ++ if u.data = [] then [] else [u.data]) where
  le := (List.getElem?_eq_some_iff.mp hu).1
  fed := by
    rw [take_add_one, hu, Option.toList_some, payloads_append, ← h.fed]
    simp [payloads, filter_cons]

end ends

/-! ## A Python channel -/

namespace Channel

variable {log peer : Log} {bound : Nat} {q : List Bytes} {c d : Channel}
variable {e : Channel} {u : Unacked} {f : ChannelFrame} {now : Nat}

/-- The sending half; `bound` is how far the peer has received. -/
structure Speaks (log : Log) (bound : Nat) (q : List Bytes) (c : Channel) : Prop where
  said : Said log c.sndNext c.rcvNext c.outbox
  buffer : ∀ p ∈ c.sendBuffer, p.entry ∈ log
  /-- Before a teardown, a frame is kept until the peer has received it. -/
  kept : c.closed = false → ∀ u ∈ log, u.seq < bound ∨ ∃ p ∈ c.sendBuffer, p.seq = u.seq
  nonempty : ∀ chunk ∈ q, chunk ≠ []
  sub : payloads log <+: q
  waiting : c.closed = false → payloads log ++ chunksIn c.sendQueue = q
  torn : c.closed = true → chunksIn c.sendQueue = []
  early : c.rcvNext = 0 → (∀ u ∈ log, u.IsSyn) ∧ (c.state = .closed ∨ c.state = .synSent)
  first : c.rcvNext ≤ 1 → SynFirst log

/-- The receiving half. -/
structure Hears (peer : Log) (c : Channel) : Prop where
  heard : Heard peer c.rcvNext c.fed
  buffered : ∀ k v, c.recvBuffer.lookup k = some v →
    ∃ u ∈ peer, u.seq = k ∧ v = (u.flags, u.data)

/-- Both, after the log may have grown and more was received. -/
def Advances (log : Log) (bound : Nat) (q : List Bytes) (peer : Log) (c d : Channel) : Prop :=
  ∃ ext, Speaks (log ++ ext) bound q d ∧ Hears peer d ∧ c.rcvNext ≤ d.rcvNext

theorem advances_same (hs : Speaks log bound q d) (hh : Hears peer d)
    (hle : c.rcvNext ≤ d.rcvNext) : Advances log bound q peer c d :=
  ⟨[], by rw [append_nil]; exact hs, hh, hle⟩

/-- What the sending operations leave alone. -/
structure SameRecv (c d : Channel) : Prop where
  rcvNext : d.rcvNext = c.rcvNext
  recvBuffer : d.recvBuffer = c.recvBuffer
  fed : d.fed = c.fed
  closed : d.closed = c.closed

theorem SameRecv.refl : SameRecv c c := ⟨rfl, rfl, rfl, rfl⟩

/-- What every call does that takes no frame in: the receiving half stays, numbers never go down,
a teardown is not undone, and a frame that goes out advertises the window there is. -/
structure Sends (c d : Channel) : Prop where
  rcvNext : d.rcvNext = c.rcvNext
  recvBuffer : d.recvBuffer = c.recvBuffer
  remoteWindow : d.remoteWindow = c.remoteWindow
  sndNext : c.sndNext ≤ d.sndNext
  closed : c.closed = true → d.closed = true
  outbox : ∀ b ∈ d.outbox, b ∈ c.outbox ∨
    ∃ f : ChannelFrame, b = f.serialize ∧ f.window = c.recvWindow

theorem Sends.refl : Sends c c := ⟨rfl, rfl, rfl, le_rfl, id, fun _ => .inl⟩

theorem Sends.trans (h : Sends c d) (h' : Sends d e) : Sends c e where
  rcvNext := h'.rcvNext.trans h.rcvNext
  recvBuffer := h'.recvBuffer.trans h.recvBuffer
  remoteWindow := h'.remoteWindow.trans h.remoteWindow
  sndNext := h.sndNext.trans h'.sndNext
  closed := fun hc => h'.closed (h.closed hc)
  outbox := by
    have hwindow : d.recvWindow = c.recvWindow := by rw [recvWindow, h.recvBuffer, recvWindow]
    intro b hb
    rcases h'.outbox b hb with hb | ⟨f, hf, hw⟩
    · exact h.outbox b hb
    · exact .inr ⟨f, hf, hw.trans hwindow⟩

theorem transmit_sends (c : Channel) (flags : UInt8) (seq : Nat) (data : Bytes) :
    Sends c (c.transmit flags seq data) := by
  refine { Sends.refl (c := c) with outbox := fun b hb => ?_ }
  exact (mem_append.mp hb).imp id fun hb => ⟨_, mem_singleton.mp hb, rfl⟩

theorem transmitConsuming_sends (now : Nat) (c : Channel) (flags : UInt8) (data : Bytes) :
    Sends c (c.transmitConsuming now flags data) :=
  { transmit_sends c flags c.sndNext data with sndNext := Nat.le_succ _ }

theorem Hears.congr (h : Hears peer c) (hs : SameRecv c d) : Hears peer d where
  heard := by rw [hs.rcvNext, hs.fed]; exact h.heard
  buffered := by rw [hs.recvBuffer]; exact h.buffered

theorem Speaks.mono {n : Nat} (h : Speaks log bound q c) (hle : bound ≤ n) : Speaks log n q c := by
  refine { h with kept := fun hopen u hu => ?_ }
  rcases h.kept hopen u hu with hlt | hkept
  · exact .inl (lt_of_lt_of_le hlt hle)
  · exact .inr hkept

theorem Hears.extend {ext : Log} (h : Hears peer c) : Hears (peer ++ ext) c where
  heard := h.heard.extend
  buffered := by
    intro k v hk
    obtain ⟨u, hu, hv⟩ := h.buffered k v hk
    exact ⟨u, mem_append_left _ hu, hv⟩

/-! ### Sending -/

theorem Speaks.sendAck (h : Speaks log bound q c) : Speaks log bound q c.sendAck :=
  { h with said := h.said.pureAck }

/-- A frame under the next number: its chunk, if it has one, leaves the queue. -/
theorem Speaks.consuming {flags : UInt8} {data : Bytes} (h : Speaks log bound q c) (now : Nat)
    (rest : List Queued)
    (hkind : Unacked.IsSyn ⟨flags, c.sndNext, data⟩ ∨ Unacked.IsData ⟨flags, c.sndNext, data⟩ ∨
      Unacked.IsFin ⟨flags, c.sndNext, data⟩)
    (hqueue : chunksIn c.sendQueue = payloads [⟨flags, c.sndNext, data⟩] ++ chunksIn rest)
    (hearly : c.rcvNext = 0 → Unacked.IsSyn ⟨flags, c.sndNext, data⟩)
    (hfirst : Unacked.IsSyn ⟨flags, c.sndNext, data⟩ → c.rcvNext ≤ 1 → ∀ v ∈ log, v.IsSyn) :
    Speaks (log ++ [⟨flags, c.sndNext, data⟩]) bound q
      ({ c with sendQueue := rest }.transmitConsuming now flags data) := by
  have hpayloads : c.closed = false →
      payloads (log ++ [⟨flags, c.sndNext, data⟩]) ++ chunksIn rest = q := by
    intro hopen
    rw [payloads_append, append_assoc, ← hqueue, h.waiting hopen]
  refine ⟨h.said.snoc hkind, ?_, ?_, h.nonempty, ?_, hpayloads, ?_, ?_, ?_⟩
  · exact forall_mem_snoc (fun p hp => mem_append_left _ (h.buffer p hp))
      (mem_append_right _ (mem_singleton_self _))
  · intro hopen
    refine forall_mem_snoc (fun u hu => ?_)
      (.inr ⟨_, mem_append_right _ (mem_singleton_self _), rfl⟩)
    rcases h.kept hopen u hu with hlt | ⟨p, hp, hseq⟩
    · exact .inl hlt
    · exact .inr ⟨p, mem_append_left _ hp, hseq⟩
  · cases hclosed : c.closed with
    | false => exact ⟨chunksIn rest, hpayloads hclosed⟩
    | true =>
      -- after a teardown there is no chunk left to send
      have hnil := h.torn hclosed
      rw [hqueue] at hnil
      rw [payloads_append, (append_eq_nil_iff.mp hnil).1, append_nil]
      exact h.sub
  · intro hclosed
    have hnil := h.torn hclosed
    rw [hqueue] at hnil
    exact (append_eq_nil_iff.mp hnil).2
  · intro hzero
    obtain ⟨hall, hstate⟩ := h.early hzero
    exact ⟨forall_mem_snoc hall (hearly hzero), hstate⟩
  · exact fun hle => (h.first hle).snoc fun hsyn => hfirst hsyn hle

/-- A channel that was established has taken something in. -/
theorem Speaks.rcvNext_ne_zero (h : Speaks log bound q c)
    (hstate : c.state = .established ∨ c.state = .finSent) : c.rcvNext ≠ 0 := by
  intro hzero
  rcases (h.early hzero).2 with he | he <;> rcases hstate with hs | hs <;>
    exact absurd (he.symm.trans hs) (by decide)

/-- Once something was taken in, the state is free. -/
theorem Speaks.setState (h : Speaks log bound q c) (hrcv : c.rcvNext ≠ 0) (state : ConnState) :
    Speaks log bound q { c with state := state } :=
  { h with early := fun hzero => absurd hzero hrcv }

theorem Speaks.teardown (h : Speaks log bound q c) : Speaks log bound q c.teardown :=
  { h with
    buffer := fun _ hp => by cases hp
    kept := fun hopen => by cases hopen
    waiting := fun hopen => by cases hopen
    torn := fun _ => rfl
    early := fun hzero => ⟨(h.early hzero).1, .inl rfl⟩ }

theorem pumpLoop_sends (now : Nat) : ∀ (fuel : Nat) (c : Channel),
    SameRecv c (pumpLoop now fuel c) ∧ Sends c (pumpLoop now fuel c) := by
  intro fuel
  induction fuel with
  | zero => exact fun c => ⟨.refl, .refl⟩
  | succ fuel ih =>
    intro c
    rw [pumpLoop]
    split
    · exact ⟨.refl, .refl⟩
    · next rest _ =>
      have hsends := transmitConsuming_sends now { c with sendQueue := rest }
      split
      · split
        · refine ⟨{ (ih _).1 with }, Sends.trans ?_ (ih _).2⟩
          exact { hsends (flagFin ||| flagAck) [] with }
        · refine ⟨{ (ih _).1 with }, Sends.trans ?_ (ih _).2⟩
          exact { hsends flagAck _ with }
      · exact ⟨.refl, .refl⟩

theorem pump_sends (now : Nat) (c : Channel) : SameRecv c (c.pump now) ∧ Sends c (c.pump now) := by
  rw [pump]
  split
  · exact ⟨.refl, .refl⟩
  · exact pumpLoop_sends now _ c

theorem Speaks.finFrame (h : Speaks log bound q c) (now : Nat) (rest : List Queued)
    (hrcv : c.rcvNext ≠ 0) (hqueue : chunksIn c.sendQueue = chunksIn rest) :
    Speaks (log ++ [⟨flagFin ||| flagAck, c.sndNext, []⟩]) bound q
      ({ c with sendQueue := rest }.transmitConsuming now (flagFin ||| flagAck) []) := by
  have hfin : Unacked.IsFin ⟨flagFin ||| flagAck, c.sndNext, []⟩ := ⟨rfl, rfl⟩
  exact h.consuming now rest (.inr (.inr hfin))
    (by rw [payloads_singleton_empty rfl]; exact hqueue)
    (fun hzero => absurd hzero hrcv) fun hsyn => absurd hsyn hfin.not_syn

theorem Speaks.pumpLoop (now : Nat) : ∀ (fuel : Nat) (log : Log) (c : Channel),
    Speaks log bound q c → c.rcvNext ≠ 0 →
      ∃ ext, Speaks (log ++ ext) bound q (Channel.pumpLoop now fuel c) := by
  intro fuel
  induction fuel with
  | zero =>
    intro log c h _
    exact ⟨[], by rw [append_nil]; exact h⟩
  | succ fuel ih =>
    intro log c h hrcv
    rw [Channel.pumpLoop]
    split
    · exact ⟨[], by rw [append_nil]; exact h⟩
    · next item rest hitems =>
      split
      · cases item with
        | fin =>
          have hfin := h.finFrame now rest hrcv (by rw [hitems]; rfl)
          obtain ⟨ext, hext⟩ := ih _ _ (hfin.setState hrcv .finSent) hrcv
          exact ⟨_ :: ext, by rw [append_cons]; exact hext⟩
        | chunk data =>
          have hdata : data ≠ [] := by
            cases hclosed : c.closed with
            | false =>
              refine h.nonempty data ?_
              rw [← h.waiting hclosed, hitems]
              simp
            | true =>
              have hnil := h.torn hclosed
              rw [hitems] at hnil
              cases hnil
          have hkind : Unacked.IsData ⟨flagAck, c.sndNext, data⟩ := ⟨rfl, hdata⟩
          have hchunk := h.consuming now rest (.inr (.inl hkind))
            (by rw [hitems, payloads_singleton_data hkind]; rfl)
            (fun hzero => absurd hzero hrcv) fun hsyn => absurd hsyn hkind.not_syn
          obtain ⟨ext, hext⟩ := ih _ _ hchunk hrcv
          exact ⟨_ :: ext, by rw [append_cons]; exact hext⟩
      · exact ⟨[], by rw [append_nil]; exact h⟩

theorem Speaks.pump (h : Speaks log bound q c) (now : Nat) :
    ∃ ext, Speaks (log ++ ext) bound q (c.pump now) := by
  rw [Channel.pump]
  split
  · exact ⟨[], by rw [append_nil]; exact h⟩
  · next hstate =>
    rw [not_and_or, not_not, not_not] at hstate
    exact Speaks.pumpLoop now _ log c h (h.rcvNext_ne_zero hstate)

theorem Speaks.handleAck (h : Speaks log bound q c) (now : Nat) {ackNum : Nat} (hack : ackNum ≤ bound) :
    ∃ ext, Speaks (log ++ ext) bound q (c.handleAck now ackNum) := by
  rw [Channel.handleAck]
  split
  · have hkept : c.closed = false → ∀ u ∈ log, u.seq < bound ∨
        ∃ p ∈ c.sendBuffer.filter fun p => min ackNum c.sndNext ≤ p.seq, p.seq = u.seq := by
      intro hopen u hu
      rcases h.kept hopen u hu with hlt | ⟨p, hp, hseq⟩
      · exact .inl hlt
      · by_cases hle : min ackNum c.sndNext ≤ p.seq
        · exact .inr ⟨p, mem_filter.mpr ⟨hp, decide_eq_true hle⟩, hseq⟩
        · exact .inl (by omega)
    have hacked : Speaks log bound q
        { c with sendBuffer := c.sendBuffer.filter fun p => min ackNum c.sndNext ≤ p.seq } :=
      { h with
        buffer := fun p hp => h.buffer p (mem_filter.mp hp).1
        kept := hkept }
    exact hacked.pump now
  · exact ⟨[], by rw [append_nil]; exact h⟩

theorem handleAck_sends (now : Nat) (c : Channel) (ackNum : Nat) :
    SameRecv c (c.handleAck now ackNum) ∧ Sends c (c.handleAck now ackNum) := by
  rw [Channel.handleAck]
  split
  · obtain ⟨hsame, hsends⟩ := pump_sends now
      { c with sendBuffer := c.sendBuffer.filter fun p => min ackNum c.sndNext ≤ p.seq }
    exact ⟨{ hsame with }, { hsends with }⟩
  · exact ⟨.refl, .refl⟩

/-! ### Receiving -/

theorem Advances.after (ext : Log)
    (h : Advances (log ++ ext) bound q peer d e) (hle : c.rcvNext ≤ d.rcvNext) :
    Advances log bound q peer c e := by
  obtain ⟨ext', hs, hh, hle'⟩ := h
  exact ⟨ext ++ ext', by rw [← append_assoc]; exact hs, hh, hle.trans hle'⟩

theorem Advances.sendAck (h : Advances log bound q peer c d) :
    Advances log bound q peer c d.sendAck := by
  obtain ⟨ext, hs, hh, hle⟩ := h
  exact ⟨ext, hs.sendAck, hh.congr ⟨rfl, rfl, rfl, rfl⟩, hle⟩

/-- The flags of an entry say of what kind it is. -/
theorem kind_of_flags (hkind : u.IsSyn ∨ u.IsData ∨ u.IsFin) :
    (hasFlag u.flags flagSyn = true → u.IsSyn) ∧
      (hasFlag u.flags flagSyn = false → hasFlag u.flags flagFin = true → u.IsFin) ∧
      (hasFlag u.flags flagSyn = false → hasFlag u.flags flagFin = false → u.IsData) := by
  rcases hkind with hsyn | hdata | hfin
  · have hflags : hasFlag u.flags flagSyn = true := by
      rcases hsyn.1 with hf | hf <;> rw [hf] <;> decide
    rw [hflags]
    exact ⟨fun _ => hsyn, by simp, by simp⟩
  · rw [hdata.1]
    exact ⟨fun h => absurd h (by decide), fun _ h => absurd h (by decide), fun _ _ => hdata⟩
  · rw [hfin.1]
    exact ⟨fun h => absurd h (by decide), fun _ _ => hfin, fun _ h => absurd h (by decide)⟩

theorem processFrame_sends (now : Nat) (c : Channel) (flags : UInt8) (data : Bytes) :
    Sends c (c.processFrame now flags data).1 := by
  have hconsuming := transmitConsuming_sends now
  rw [Channel.processFrame]
  split
  · split
    · exact Sends.trans { hconsuming { c with state := .established } _ _ with } (pump_sends now _).2
    · exact { (pump_sends now { c with state := .established }).2 with }
    · exact .refl
    · exact .refl
  · split
    · split
      · exact { Sends.refl (c := c) with closed := fun _ => rfl }
      · exact { hconsuming c (flagFin ||| flagAck) [] with closed := fun _ => rfl }
    · split
      · exact { Sends.refl (c := c) with }
      · exact .refl

/-- Whatever else it does, processing an entry hands its chunk to the reassembler. -/
theorem processFrame_fed (now : Nat) (c : Channel) (hkind : u.IsSyn ∨ u.IsData ∨ u.IsFin) :
    (c.processFrame now u.flags u.data).1.fed =
      c.fed ++ if u.data = [] then [] else [u.data] := by
  obtain ⟨hsyn, hfin, hdata⟩ := kind_of_flags hkind
  cases hs : hasFlag u.flags flagSyn with
  | true =>
    rw [if_pos (hsyn hs).2, append_nil]
    simp only [processFrame, hs, if_true]
    cases hstate : c.state with
    | closed => exact (pump_sends now _).1.fed
    | synSent => exact (pump_sends now _).1.fed
    | established => rfl
    | finSent => rfl
  | false =>
    cases hf : hasFlag u.flags flagFin with
    | true =>
      rw [if_pos (hfin hs hf).2, append_nil]
      simp only [processFrame, hs, hf, if_true, Bool.false_eq_true, if_false]
      split <;> rfl
    | false =>
      have hne := (hdata hs hf).2
      simp only [processFrame, hs, hf, Bool.false_eq_true, if_false, if_pos hne, if_neg hne]

/-- Processing an entry, once the receive position is past it. -/
theorem Speaks.processFrame (h : Speaks log bound q c) (now : Nat) (u : Unacked)
    (hrcv : c.rcvNext ≠ 0) (hall : c.rcvNext ≤ 1 → ∀ v ∈ log, v.IsSyn) :
    ∃ ext, Speaks (log ++ ext) bound q (c.processFrame now u.flags u.data).1 := by
  have hsame : ∃ ext, Speaks (log ++ ext) bound q c := ⟨[], by rw [append_nil]; exact h⟩
  unfold Channel.processFrame
  split
  · split
    · have hsyn : Unacked.IsSyn ⟨flagSyn ||| flagAck, c.sndNext, []⟩ := ⟨.inr rfl, rfl⟩
      have hanswer := (h.setState hrcv .established).consuming now c.sendQueue (.inl hsyn)
        (by rw [payloads_singleton_empty rfl]; rfl) (fun _ => hsyn) fun _ hle => hall hle
      obtain ⟨ext, hpump⟩ := hanswer.pump now
      exact ⟨_ :: ext, by rw [append_cons]; exact hpump⟩
    · exact (h.setState hrcv .established).pump now
    · exact hsame
    · exact hsame
  · split
    · split
      · exact ⟨[], by rw [append_nil]; exact h.teardown⟩
      · exact ⟨_, (h.finFrame now c.sendQueue hrcv rfl).teardown⟩
    · split
      · exact ⟨[], by rw [append_nil]; exact { h with }⟩
      · exact hsame

/-- The entry at the receive position is taken in. -/
theorem Speaks.takes (now : Nat) (buffer : AList fun _ : Nat => UInt8 × Bytes)
    (hs : Speaks log bound q c) (hh : Hears peer c) (hkinds : Kinds peer) (hu : peer[c.rcvNext]? = some u)
    (hbuffer : ∀ k v, buffer.lookup k = some v → c.recvBuffer.lookup k = some v) :
    Advances log bound q peer c
      ({ c with recvBuffer := buffer, rcvNext := c.rcvNext + 1 }.processFrame now u.flags
        u.data).1 := by
  have hnext : Speaks log bound q { c with recvBuffer := buffer, rcvNext := c.rcvNext + 1 } :=
    { hs with
      said := hs.said.mono_rcvNext (Nat.le_succ _)
      early := fun hzero => absurd hzero (Nat.succ_ne_zero _)
      first := fun hle => hs.first (Nat.le_of_succ_le hle) }
  have hall : c.rcvNext + 1 ≤ 1 → ∀ v ∈ log, v.IsSyn := fun hle => (hs.early (by omega)).1
  obtain ⟨ext, hspeaks⟩ := hnext.processFrame now u (Nat.succ_ne_zero _) hall
  have hfed := processFrame_fed now { c with recvBuffer := buffer, rcvNext := c.rcvNext + 1 }
    (hkinds u (mem_of_getElem? hu))
  have hsends := processFrame_sends now
    { c with recvBuffer := buffer, rcvNext := c.rcvNext + 1 } u.flags u.data
  refine ⟨ext, hspeaks, ⟨?_, ?_⟩, ?_⟩
  · rw [hsends.rcvNext, hfed]
    exact hh.heard.next hu
  · rw [hsends.recvBuffer]
    exact fun k v hk => hh.buffered k v (hbuffer k v hk)
  · rw [hsends.rcvNext]
    exact Nat.le_succ _

theorem Speaks.drain (hnum : Numbered Unacked.seq peer) (hkinds : Kinds peer) (now : Nat) :
    ∀ (fuel : Nat) (log : Log) (c : Channel) (acked : Bool), Speaks log bound q c → Hears peer c →
      Advances log bound q peer c (c.drain now fuel acked).1 := by
  intro fuel
  induction fuel with
  | zero => exact fun log c acked hs hh => advances_same hs hh (le_rfl)
  | succ fuel ih =>
    intro log c acked hs hh
    rw [Channel.drain]
    split
    · exact advances_same hs hh (le_rfl)
    · next flags data hdue =>
      obtain ⟨u, hu, hseq, hv⟩ := hh.buffered _ _ hdue
      obtain ⟨rfl, rfl⟩ := Prod.mk.inj hv
      have hget : peer[c.rcvNext]? = some u := by
        rw [← hseq]
        exact hnum.getElem?_seq hu
      have hrest : ∀ k v, (c.recvBuffer.erase c.rcvNext).lookup k = some v →
          c.recvBuffer.lookup k = some v := by
        intro k v hk
        rw [lookup_erase_ite] at hk
        exact (ite_none_left_eq_some.mp hk).2
      obtain ⟨ext, hs', hh', hle⟩ := hs.takes now _ hh hkinds hget hrest
      exact (ih _ _ _ hs' hh').after _ hle

theorem Speaks.accept (now : Nat) (hs : Speaks log bound q c)
    (hh : Hears peer c) (hnum : Numbered Unacked.seq peer) (hkinds : Kinds peer) (hu : u ∈ peer)
    (hc : f.Carries u) (hseq : f.seq = c.rcvNext) :
    Advances log bound q peer c (c.accept now f) := by
  have hget : peer[c.rcvNext]? = some u := by
    rw [← hseq, hc.2.1]
    exact hnum.getElem?_seq hu
  obtain ⟨ext, hs', hh', hle⟩ := hs.takes now c.recvBuffer hh hkinds hget fun _ _ hk => hk
  rw [← hc.1, ← hc.2.2] at hs' hh' hle
  rw [Channel.accept]
  generalize { c with rcvNext := c.rcvNext + 1 }.processFrame now f.flags f.data = r at hs' hh' hle
  have hdrain := (Speaks.drain hnum hkinds now r.1.recvBuffer.entries.length _ _ r.2 hs' hh').after
    _ hle
  split
  · exact hdrain
  · exact hdrain.sendAck

theorem Hears.keepEarly (hh : Hears peer c) (hu : u ∈ peer)
    (hc : f.Carries u) : Hears peer (c.keepEarly f) := by
  rw [Channel.keepEarly]
  split
  · refine ⟨hh.heard, fun k v hk => ?_⟩
    rw [lookup_insert_ite] at hk
    split at hk
    · next heq =>
      cases hk
      exact ⟨u, hu, hc.2.1.symm.trans heq.symm, by rw [hc.1, hc.2.2]⟩
    · exact hh.buffered k v hk
  · exact hh

theorem Speaks.keepEarly (hs : Speaks log bound q c) :
    Speaks log bound q (c.keepEarly f) := by
  rw [Channel.keepEarly]
  split
  · exact { hs with }
  · exact hs

theorem keepEarly_rcvNext : (c.keepEarly f).rcvNext = c.rcvNext := by
  rw [Channel.keepEarly]
  split <;> rfl

/-- A frame of the peer's. -/
theorem Speaks.handleFrame {w : UInt16} (now : Nat) (hs : Speaks log bound q c)
    (hh : Hears peer c) (hnum : Numbered Unacked.seq peer) (hkinds : Kinds peer)
    (hf : FrameOk peer bound w f) : Advances log bound q peer c (c.handleFrame now f) := by
  have hwindow : Speaks log bound q { c with remoteWindow := f.window } := { hs with }
  have hheard : Hears peer { c with remoteWindow := f.window } := ⟨hh.heard, hh.buffered⟩
  rw [Channel.handleFrame]
  rw [if_neg (by rw [hf.not_rst_of_kinds hkinds]; decide)]
  -- the acknowledgement first, whatever follows
  obtain ⟨ext, hacked, hsame⟩ : ∃ ext, Speaks (log ++ ext) bound q
      (if f.has flagAck then { c with remoteWindow := f.window }.handleAck now f.ackNum
        else { c with remoteWindow := f.window }) ∧
      SameRecv { c with remoteWindow := f.window }
        (if f.has flagAck then { c with remoteWindow := f.window }.handleAck now f.ackNum
          else { c with remoteWindow := f.window }) := by
    split
    · obtain ⟨ext, hext⟩ := hwindow.handleAck now hf.ackNum
      exact ⟨ext, hext, (handleAck_sends now _ _).1⟩
    · exact ⟨[], by rw [append_nil]; exact hwindow, .refl⟩
  generalize hd : (if f.has flagAck then { c with remoteWindow := f.window }.handleAck now f.ackNum
    else { c with remoteWindow := f.window }) = d at hacked hsame
  have hheard' : Hears peer d := hheard.congr hsame
  have hle : c.rcvNext ≤ d.rcvNext := le_of_eq hsame.rcvNext.symm
  refine Advances.after ext ?_ hle
  dsimp only
  split
  · exact advances_same hacked hheard' (le_rfl)
  · next hcons =>
    simp only [Bool.not_eq_true', Bool.not_eq_false] at hcons
    obtain ⟨u, hu, hc⟩ := hf.consumes hcons
    split
    · exact (advances_same hacked hheard' (le_rfl)).sendAck
    · split
      · refine Advances.sendAck (advances_same hacked.keepEarly (hheard'.keepEarly hu hc) ?_)
        exact le_of_eq keepEarly_rcvNext.symm
      · exact hacked.accept now hheard' hnum hkinds hu hc (by omega)

/-! ### The calls and the retransmit task -/

theorem Speaks.transmit_kept {p : Pending} (h : Speaks log bound q c) (hp : p.entry ∈ log) :
    Speaks log bound q (c.transmit p.flags p.seq p.data) :=
  { h with said := h.said.resend hp }

theorem Speaks.mark (h : Speaks log bound q c) (seq now : Nat) :
    Speaks log bound q (c.mark seq now) := by
  have hcopy : ∀ p ∈ (c.mark seq now).sendBuffer, ∃ p' ∈ c.sendBuffer, p.entry = p'.entry := by
    intro p hp
    obtain ⟨p', hp', rfl⟩ := mem_map.mp hp
    refine ⟨p', hp', ?_⟩
    split <;> rfl
  refine { h with buffer := fun p hp => ?_, kept := fun hopen u hu => ?_ }
  · obtain ⟨p', hp', heq⟩ := hcopy p hp
    rw [heq]
    exact h.buffer p' hp'
  · rcases h.kept hopen u hu with hlt | ⟨p, hp, hseq⟩
    · exact .inl hlt
    · refine .inr ⟨_, mem_map_of_mem hp, ?_⟩
      split <;> exact hseq

theorem Speaks.resend (now : Nat) : ∀ (kept : List Pending) (c : Channel),
    (∀ p ∈ kept, p.entry ∈ log) → Speaks log bound q c →
      Speaks log bound q (Channel.resend now kept c) := by
  intro kept
  induction kept with
  | nil => exact fun c _ h => h
  | cons p rest ih =>
    intro c hkept h
    have hrest : ∀ p ∈ rest, p.entry ∈ log := fun p hp => hkept p (mem_cons_of_mem _ hp)
    rw [Channel.resend]
    split
    · split
      · exact { h.teardown with }
      · exact ih _ hrest ((h.mark p.seq now).transmit_kept (hkept p mem_cons_self))
    · exact ih _ hrest h

theorem resend_sends (now : Nat) : ∀ (kept : List Pending) (c : Channel),
    Sends c (Channel.resend now kept c) ∧ (Channel.resend now kept c).fed = c.fed := by
  intro kept
  induction kept with
  | nil => exact fun c => ⟨.refl, rfl⟩
  | cons p rest ih =>
    intro c
    rw [Channel.resend]
    split
    · split
      · exact ⟨{ Sends.refl (c := c) with closed := fun _ => rfl }, rfl⟩
      · refine ⟨Sends.trans ?_ (ih _).1, (ih _).2⟩
        exact { transmit_sends (c.mark p.seq now) p.flags p.seq p.data with }
    · exact ih c

theorem retransmit_sends (h : c.retransmit now = some d) :
    Sends c d ∧ d.fed = c.fed := by
  obtain ⟨-, h⟩ := ite_none_left_eq_some.mp h
  split at h
  · cases h
    exact ⟨{ Sends.refl (c := c) with }, rfl⟩
  · cases h
    exact resend_sends now _ c

theorem Speaks.retransmit (now : Nat) (hs : Speaks log bound q c) (hh : Hears peer c)
    (h : c.retransmit now = some d) : Advances log bound q peer c d := by
  obtain ⟨hsends, hfed⟩ := retransmit_sends h
  have hheard : Hears peer d := by
    refine ⟨?_, ?_⟩
    · rw [hsends.rcvNext, hfed]
      exact hh.heard
    · rw [hsends.recvBuffer]
      exact hh.buffered
  refine advances_same ?_ hheard (le_of_eq hsends.rcvNext.symm)
  obtain ⟨-, h⟩ := ite_none_left_eq_some.mp h
  split at h
  · cases h
    exact { hs with }
  · cases h
    exact hs.resend now _ _ hs.buffer

/-- `open`, on a channel that has not spoken. -/
theorem Speaks.connect (now : Nat) (hs : Speaks log bound q c) (hh : Hears peer c)
    (hnew : c.sndNext = 0) (h : c.connect now = some d) : Advances log bound q peer c d := by
  obtain ⟨hstate, h⟩ := ite_none_left_eq_some.mp h
  cases h
  have hempty : log = [] := eq_nil_of_length_eq_zero (hs.said.len.trans hnew)
  have hsyn : Unacked.IsSyn ⟨flagSyn, c.sndNext, []⟩ := ⟨.inl rfl, rfl⟩
  have hready : Speaks log bound q { c with state := .synSent } :=
    { hs with early := fun hzero => ⟨(hs.early hzero).1, .inr rfl⟩ }
  refine ⟨_, hready.consuming now c.sendQueue (.inl hsyn) (by rw [payloads_singleton_empty rfl]; rfl)
    (fun _ => hsyn) (fun _ _ v hv => ?_), hh.congr ⟨rfl, rfl, rfl, rfl⟩, le_rfl⟩
  rw [hempty] at hv
  cases hv

/-- `send_message`, on a channel that was not torn down. -/
theorem Speaks.sendMessage (now : Nat) {msg : Bytes} {fid : FragmentId}
    (hs : Speaks log bound q c) (hh : Hears peer c) (hopen : c.closed = false)
    (h : c.sendMessage now msg fid = some d) :
    Advances log bound (q ++ chunksOf (fid, msg)) peer c d := by
  obtain ⟨-, h⟩ := ite_none_left_eq_some.mp h
  obtain ⟨chunks, hchunks, rfl⟩ := map_eq_some_iff.mp h
  have hof : chunksOf (fid, msg) = chunks := by simp [chunksOf, hchunks]
  have hqueued : Speaks log bound (q ++ chunks)
      { c with sendQueue := c.sendQueue ++ chunks.map Queued.chunk } := by
    refine { hs with nonempty := ?_, sub := ?_, waiting := ?_, torn := ?_ }
    · intro chunk hchunk
      rcases mem_append.mp hchunk with hold | hnew
      · exact hs.nonempty chunk hold
      · exact fragment_ne_nil hchunks chunk hnew
    · exact hs.sub.trans (prefix_append _ _)
    · intro _
      rw [chunksIn_append, chunksIn_map_chunk, ← append_assoc, hs.waiting hopen]
    · intro hclosed
      cases hopen.symm.trans hclosed
  obtain ⟨ext, hpump⟩ := hqueued.pump now
  have hheard : Hears peer { c with sendQueue := c.sendQueue ++ chunks.map Queued.chunk } :=
    ⟨hh.heard, hh.buffered⟩
  have hsame := (pump_sends now { c with sendQueue := c.sendQueue ++ chunks.map Queued.chunk }).1
  rw [hof]
  exact ⟨ext, hpump, hheard.congr hsame, le_of_eq hsame.rcvNext.symm⟩

theorem Speaks.close (now : Nat) (hs : Speaks log bound q c) (hh : Hears peer c) :
    Advances log bound q peer c (c.close now) := by
  rw [Channel.close]
  split
  · exact advances_same hs hh (le_rfl)
  · have hqueued : Speaks log bound q
        { c with closing := true, sendQueue := c.sendQueue ++ [Queued.fin] } := by
      refine { hs with waiting := ?_, torn := ?_ }
      · intro hopen
        rw [chunksIn_append, chunksIn_fin, chunksIn_nil, append_nil, hs.waiting hopen]
      · intro hclosed
        rw [chunksIn_append, chunksIn_fin, chunksIn_nil, append_nil, hs.torn hclosed]
    have hheard : Hears peer { c with closing := true, sendQueue := c.sendQueue ++ [Queued.fin] } :=
      ⟨hh.heard, hh.buffered⟩
    obtain ⟨ext, hpump⟩ := hqueued.pump now
    have hsame := (pump_sends now
      { c with closing := true, sendQueue := c.sendQueue ++ [Queued.fin] }).1
    exact ⟨ext, hpump, hheard.congr hsame, le_of_eq hsame.rcvNext.symm⟩

theorem Speaks.closeReturn (hs : Speaks log bound q c) : Speaks log bound q c.closeReturn :=
  { hs with early := fun hzero => ⟨(hs.early hzero).1, .inl rfl⟩ }

/-! ### What never goes back -/

/-- Sequence numbers never go down, and a channel that was torn down stays marked so. -/
structure Later (c d : Channel) : Prop where
  sndNext : c.sndNext ≤ d.sndNext
  closed : c.closed = true → d.closed = true

theorem Later.refl : Later c c := ⟨le_rfl, id⟩

theorem Later.trans (h : Later c d) (h' : Later d e) : Later c e :=
  ⟨le_trans h.sndNext h'.sndNext, fun hc => h'.closed (h.closed hc)⟩

theorem Sends.later (h : Sends c d) : Later c d := ⟨h.sndNext, h.closed⟩

theorem drain_later (now : Nat) : ∀ (fuel : Nat) (c : Channel) (acked : Bool),
    Later c (c.drain now fuel acked).1 := by
  intro fuel
  induction fuel with
  | zero => exact fun c _ => .refl
  | succ fuel ih =>
    intro c acked
    rw [Channel.drain]
    split
    · exact .refl
    · refine Later.trans ?_ (ih _ _)
      refine Later.trans ?_ (processFrame_sends now _ _ _).later
      exact ⟨le_rfl, id⟩

theorem accept_later (now : Nat) (c : Channel) (f : ChannelFrame) : Later c (c.accept now f) := by
  have hprocess : Later c ({ c with rcvNext := c.rcvNext + 1 }.processFrame now f.flags f.data).1 :=
    { (processFrame_sends now { c with rcvNext := c.rcvNext + 1 } f.flags f.data).later with }
  rw [Channel.accept]
  split
  · exact hprocess.trans (drain_later now _ _ _)
  · exact { hprocess.trans (drain_later now _ _ _) with }

theorem handleFrame_later (now : Nat) (c : Channel) (f : ChannelFrame) :
    Later c (c.handleFrame now f) := by
  rw [Channel.handleFrame]
  dsimp only
  split
  · exact ⟨le_rfl, fun _ => rfl⟩
  · have hacked : Later c (if f.has flagAck then
        { c with remoteWindow := f.window }.handleAck now f.ackNum
        else { c with remoteWindow := f.window }) := by
      split
      · exact { (handleAck_sends now { c with remoteWindow := f.window } _).2.later with }
      · exact ⟨le_rfl, id⟩
    refine hacked.trans ?_
    generalize (if f.has flagAck then { c with remoteWindow := f.window }.handleAck now f.ackNum
      else { c with remoteWindow := f.window }) = d
    split
    · exact .refl
    · split
      · exact ⟨le_rfl, id⟩
      · split
        · rw [Channel.keepEarly]
          split <;> exact ⟨le_rfl, id⟩
        · exact accept_later now d f

/-! ### The calls of the application -/

theorem connect_sends (h : c.connect now = some d) : Sends c d := by
  obtain ⟨-, h⟩ := ite_none_left_eq_some.mp h
  cases h
  exact { transmitConsuming_sends now { c with state := .synSent } flagSyn [] with }

theorem sendMessage_sends {msg : Bytes} {fid : FragmentId}
    (h : c.sendMessage now msg fid = some d) : Sends c d := by
  obtain ⟨-, h⟩ := ite_none_left_eq_some.mp h
  obtain ⟨chunks, -, rfl⟩ := map_eq_some_iff.mp h
  exact { (pump_sends now { c with sendQueue := c.sendQueue ++ chunks.map Queued.chunk }).2 with }

theorem close_sends (now : Nat) (c : Channel) : Sends c (c.close now) := by
  rw [Channel.close]
  split
  · exact .refl
  · exact { (pump_sends now
      { c with closing := true, sendQueue := c.sendQueue ++ [Queued.fin] }).2 with }

theorem speaks_new : Speaks [] bound [] Channel.new where
  said := ⟨numbered_nil, fun _ h => (by cases h), rfl, fun _ h => (by cases h)⟩
  buffer := fun _ h => by cases h
  kept := fun _ _ h => by cases h
  nonempty := fun _ h => by cases h
  sub := prefix_rfl
  waiting := fun _ => rfl
  torn := fun h => by cases h
  early := fun _ => ⟨fun _ h => (by cases h), .inl rfl⟩
  first := fun _ => synFirst_of_forall fun _ h => (by cases h)

theorem hears_new : Hears [] Channel.new where
  heard := ⟨le_rfl, rfl⟩
  buffered := fun _ _ h => by cases h

end Channel

end Telesthete.Python
