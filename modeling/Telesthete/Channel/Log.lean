import Telesthete.Channel.Core
import Telesthete.Lib.NumberedLog

/-!
# What a side of a connection has ever said

The abstract layer under the reliability results. A core forgets the frames
its peer acknowledged, so no field of it lists what it sent; the `Log` does:
every sequenced frame in the order of its sequence number. A log has a
shape. First come the SYN frames, one or two of them, which carry no data;
then the data frames, one chunk each; and at most one FIN, which is last.
`LogOk` states it, and the three `snoc` lemmas are the three ways a core
extends its log.

`payloads` is what a receiver that has consumed a prefix of the log has
handed to its reassembler. `FrameOk` says what a frame on the network can be
relative to the log of its sender: a pure ACK, or a copy of a log entry, in
either case with an acknowledgement the sender really meant.
-/

namespace Telesthete.Channel

open Telesthete.Lib List

variable {log : Log} {u : Unacked} {n m : Nat} {w : UInt16}

/-- The sequenced frames a core ever emitted, by sequence number. -/
abbrev Log := List Unacked

namespace Unacked

variable {u : Unacked}

/-- A SYN or SYN+ACK frame. -/
def IsSyn (u : Unacked) : Prop :=
  (u.flags = flagSyn ∨ u.flags = flagSyn ||| flagAck) ∧ u.data = []

/-- A data frame: one chunk, never empty. -/
def IsData (u : Unacked) : Prop := u.flags = flagAck ∧ u.data ≠ []

/-- A FIN frame. -/
def IsFin (u : Unacked) : Prop := u.flags = flagFin ||| flagAck ∧ u.data = []

theorem IsData.not_syn (h : u.IsData) : ¬ u.IsSyn := fun hs => h.2 hs.2

theorem IsData.not_fin (h : u.IsData) : ¬ u.IsFin := fun hf => h.2 hf.2

theorem IsFin.not_syn (h : u.IsFin) : ¬ u.IsSyn := by
  rintro ⟨hs | hs, -⟩ <;> rw [h.1] at hs <;> exact absurd hs (by decide)

theorem IsSyn.not_fin (h : u.IsSyn) : ¬ u.IsFin := fun hf => hf.not_syn h

end Unacked

/-- The shape of a log: numbered, SYN frames first, FIN last. -/
structure LogOk (log : Log) : Prop where
  numbered : Numbered Unacked.seq log
  kind : ∀ u ∈ log, u.IsSyn ∨ u.IsData ∨ u.IsFin
  synFirst : ∀ (i j : Nat) (u v : Unacked),
    log[i]? = some u → log[j]? = some v → i ≤ j → v.IsSyn → u.IsSyn
  finLast : ∀ u ∈ log, u.IsFin → u.seq + 1 = log.length

theorem logOk_nil : LogOk [] where
  numbered := numbered_nil
  kind := by simp
  synFirst := by simp
  finLast := by simp

/-- An entry appended to a log without FIN: it must be well formed, and a SYN
may only follow SYNs. -/
theorem LogOk.snoc (h : LogOk log) (hseq : u.seq = log.length)
    (hkind : u.IsSyn ∨ u.IsData ∨ u.IsFin) (hsyn : u.IsSyn → ∀ v ∈ log, v.IsSyn)
    (hfin : ∀ v ∈ log, ¬ v.IsFin) : LogOk (log ++ [u]) where
  numbered := h.numbered.snoc hseq
  kind := forall_mem_snoc h.kind hkind
  synFirst := by
    intro i j v w hv hw hij hws
    rcases lt_or_ge j log.length with hj | hj
    · rw [getElem?_append_left hj] at hw
      rw [getElem?_append_left (by omega)] at hv
      exact h.synFirst i j v w hv hw hij hws
    · have hwu : w = u := by
        have hmem : w ∈ [u] := by
          rw [getElem?_append_right hj] at hw
          exact mem_of_getElem? hw
        exact mem_singleton.mp hmem
      subst hwu
      exact forall_mem_snoc (hsyn hws) hws v (mem_of_getElem? hv)
  finLast := by
    intro v hv hvf
    rcases mem_append.mp hv with hv | hv
    · exact absurd hvf (hfin v hv)
    · rw [mem_singleton.mp hv, hseq]
      simp

/-- The chunks a stretch of log carries. -/
def payloads (log : Log) : List Bytes := (log.map Unacked.data).filter (· ≠ [])

@[simp] theorem payloads_append (l₁ l₂ : Log) :
    payloads (l₁ ++ l₂) = payloads l₁ ++ payloads l₂ := by
  simp [payloads]

theorem payloads_singleton_data (h : u.IsData) : payloads [u] = [u.data] := by
  simp [payloads, h.2]

theorem payloads_singleton_empty (h : u.data = []) : payloads [u] = [] := by
  simp [payloads, h]

theorem payloads_eq_nil (h : ∀ u ∈ log, u.data = []) : payloads log = [] := by
  simp only [payloads, filter_eq_nil_iff, mem_map, forall_exists_index, and_imp]
  rintro d u hu rfl
  simp [h u hu]

/-- Nothing but SYNs comes before a SYN. -/
def SynFirst (log : Log) : Prop :=
  ∀ (i j : Nat) (u v : Unacked),
    log[i]? = some u → log[j]? = some v → i ≤ j → v.IsSyn → u.IsSyn

theorem SynFirst.snoc (h : SynFirst log)
    (hu : u.IsSyn → ∀ v ∈ log, v.IsSyn) : SynFirst (log ++ [u]) := by
  intro i j v w hv hw hij hsyn
  rcases lt_or_ge j log.length with hj | hj
  · rw [getElem?_append_left hj] at hw
    rw [getElem?_append_left (by omega)] at hv
    exact h i j v w hv hw hij hsyn
  · have hwu : w = u := by
      rw [getElem?_append_right hj] at hw
      exact mem_singleton.mp (mem_of_getElem? hw)
    subst hwu
    exact forall_mem_snoc (hu hsyn) hsyn v (mem_of_getElem? hv)

theorem synFirst_of_forall (h : ∀ u ∈ log, u.IsSyn) : SynFirst log :=
  fun _ _ _ _ hu _ _ _ => h _ (mem_of_getElem? hu)

/-- A SYN ends a stretch of log that carries no chunk. -/
theorem SynFirst.payloads_take (h : SynFirst log)
    (hnum : Numbered Unacked.seq log) (hu : u ∈ log) (hs : u.IsSyn) :
    payloads (log.take (u.seq + 1)) = [] := by
  apply payloads_eq_nil
  intro v hv
  obtain ⟨i, hi, rfl⟩ := getElem_of_mem hv
  simp only [length_take] at hi
  have hget : log[i]? = some log[i] := getElem?_eq_getElem (by omega)
  rw [getElem_take]
  exact (h i u.seq _ u hget (hnum.getElem?_seq hu) (by omega) hs).2

theorem LogOk.payloads_take_syn (h : LogOk log) (hu : u ∈ log)
    (hs : u.IsSyn) : payloads (log.take (u.seq + 1)) = [] :=
  SynFirst.payloads_take h.synFirst h.numbered hu hs

/-- A frame carries a log entry: same flags, number and data. -/
def ChannelFrame.Carries (f : ChannelFrame) (u : Unacked) : Prop :=
  f.flags = u.flags ∧ f.seq = u.seq ∧ f.data = u.data

/-- A frame without sequence number of its own. -/
def ChannelFrame.IsPureAck (f : ChannelFrame) : Prop := f.flags = flagAck ∧ f.data = []

/-- What a core with this log, receive position and window can have put on
the network. -/
structure FrameOk (log : Log) (rcvNext : Nat) (window : UInt16) (f : ChannelFrame) : Prop where
  ackNum : f.ackNum ≤ rcvNext
  seq : f.seq ≤ log.length
  window : f.window = window
  kind : f.IsPureAck ∨ ∃ u ∈ log, f.Carries u

/-- The same, of a serialized frame. -/
def WireOk (log : Log) (rcvNext : Nat) (window : UInt16) (b : Bytes) : Prop :=
  ∃ f : ChannelFrame, b = f.serialize ∧ FrameOk log rcvNext window f

theorem FrameOk.mono {log ext : Log} {f : ChannelFrame}
    (h : FrameOk log n w f) (hnm : n ≤ m) : FrameOk (log ++ ext) m w f where
  ackNum := le_trans h.ackNum hnm
  seq := by
    have := h.seq
    simp only [length_append]
    omega
  window := h.window
  kind := by
    rcases h.kind with hp | ⟨u, hu, hc⟩
    · exact .inl hp
    · exact .inr ⟨u, mem_append_left _ hu, hc⟩

theorem WireOk.mono {log ext : Log} {b : Bytes}
    (h : WireOk log n w b) (hnm : n ≤ m) : WireOk (log ++ ext) m w b := by
  obtain ⟨f, hb, hf⟩ := h
  exact ⟨f, hb, hf.mono hnm⟩

theorem WireOk.mono_rcvNext {b : Bytes}
    (h : WireOk log n w b) (hnm : n ≤ m) : WireOk log m w b := by
  have hw : WireOk (log ++ []) m w b := h.mono hnm
  rwa [append_nil] at hw

section flags

variable {f : ChannelFrame} {u : Unacked}
variable {log : Log} {n : Nat} {w : UInt16}

theorem ChannelFrame.has_congr (h : f.Carries u) (flag : UInt8) :
    f.has flag = decide (u.flags &&& flag ≠ 0) := by
  rw [ChannelFrame.has, h.1]

theorem ChannelFrame.IsPureAck.not_consumes (h : f.IsPureAck) : f.consumesSeq = false := by
  simp only [ChannelFrame.consumesSeq, ChannelFrame.has, h.1, h.2]
  decide

theorem ChannelFrame.IsPureAck.not_syn (h : f.IsPureAck) : f.has flagSyn = false := by
  simp only [ChannelFrame.has, h.1]
  decide

/-- Every entry is of one of the three kinds. -/
def Kinds (log : Log) : Prop := ∀ u ∈ log, u.IsSyn ∨ u.IsData ∨ u.IsFin

theorem FrameOk.flags_of_kinds (hlog : Kinds log)
    (h : FrameOk log n w f) : f.flags = flagAck ∨ f.flags = flagSyn ∨
      f.flags = flagSyn ||| flagAck ∨ f.flags = flagFin ||| flagAck := by
  rcases h.kind with hp | ⟨u, hu, hc⟩
  · exact .inl hp.1
  · rw [hc.1]
    rcases hlog u hu with ⟨hs | hs, -⟩ | hd | hf
    · exact .inr (.inl hs)
    · exact .inr (.inr (.inl hs))
    · exact .inl hd.1
    · exact .inr (.inr (.inr hf.1))

theorem FrameOk.reserved_of_kinds (hlog : Kinds log)
    (h : FrameOk log n w f) : f.flags &&& reservedMask = 0 := by
  rcases h.flags_of_kinds hlog with hf | hf | hf | hf <;> rw [hf] <;> decide

theorem FrameOk.not_rst_of_kinds (hlog : Kinds log)
    (h : FrameOk log n w f) : f.has flagRst = false := by
  rcases h.flags_of_kinds hlog with hf | hf | hf | hf <;> rw [ChannelFrame.has, hf] <;> decide

/-- A frame with the SYN bit is a copy of a SYN entry. -/
theorem FrameOk.syn_of_kinds (hlog : Kinds log)
    (h : FrameOk log n w f) (hs : f.has flagSyn = true) :
    ∃ u ∈ log, u.IsSyn ∧ f.Carries u := by
  rcases h.kind with hp | ⟨u, hu, hc⟩
  · rw [hp.not_syn] at hs
    exact absurd hs (by simp)
  · refine ⟨u, hu, ?_, hc⟩
    rw [ChannelFrame.has_congr hc] at hs
    rcases hlog u hu with hsyn | hd | hf
    · exact hsyn
    · rw [hd.1] at hs; exact absurd hs (by decide)
    · rw [hf.1] at hs; exact absurd hs (by decide)

theorem FrameOk.reserved (hlog : LogOk log)
    (h : FrameOk log n w f) : f.flags &&& reservedMask = 0 :=
  h.reserved_of_kinds hlog.kind

theorem FrameOk.not_rst (hlog : LogOk log) (h : FrameOk log n w f) : f.has flagRst = false :=
  h.not_rst_of_kinds hlog.kind

theorem FrameOk.syn (hlog : LogOk log) (h : FrameOk log n w f) (hs : f.has flagSyn = true) :
    ∃ u ∈ log, u.IsSyn ∧ f.Carries u :=
  h.syn_of_kinds hlog.kind hs

/-- A frame that consumes a sequence number is a copy of an entry. -/
theorem FrameOk.consumes
    (h : FrameOk log n w f) (hs : f.consumesSeq = true) : ∃ u ∈ log, f.Carries u := by
  rcases h.kind with hp | hu
  · rw [hp.not_consumes] at hs
    exact absurd hs (by simp)
  · exact hu

/-- A frame that carries an entry consumes its sequence number. -/
theorem LogOk.consumes (hlog : LogOk log) (hu : u ∈ log) (hc : f.Carries u) :
    f.consumesSeq = true := by
  simp only [ChannelFrame.consumesSeq, ChannelFrame.has_congr hc, hc.2.2]
  rcases hlog.kind u hu with ⟨hs | hs, -⟩ | hd | hf
  · rw [hs]; simp only [Bool.or_eq_true]; exact .inl (.inl (by decide))
  · rw [hs]; simp only [Bool.or_eq_true]; exact .inl (.inl (by decide))
  · simp [hd.2]
  · rw [hf.1]; simp only [Bool.or_eq_true]; exact .inl (.inr (by decide))

/-- A frame with the FIN bit carries a FIN entry. -/
theorem Kinds.isFin (hlog : Kinds log) (hu : u ∈ log) (hc : f.Carries u)
    (h : f.has flagFin = true) : u.IsFin := by
  rw [ChannelFrame.has_congr hc] at h
  rcases hlog u hu with ⟨hs | hs, -⟩ | hd | hf
  · rw [hs] at h; exact absurd h (by decide)
  · rw [hs] at h; exact absurd h (by decide)
  · rw [hd.1] at h; exact absurd h (by decide)
  · exact hf

/-- The FIN bit of a carrying frame is that of a FIN entry. -/
theorem LogOk.has_fin (hlog : LogOk log) (hu : u ∈ log) (hc : f.Carries u) :
    f.has flagFin = true ↔ u.IsFin := by
  refine ⟨Kinds.isFin hlog.kind hu hc, fun hf => ?_⟩
  rw [ChannelFrame.has_congr hc, hf.1]
  decide

end flags

end Telesthete.Channel
