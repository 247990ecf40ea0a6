import Telesthete.Channel.Action
import Telesthete.Channel.Log

/-!
# The joint invariant of a connection

One side is described relative to two logs: its own, `log`, which its
actions extend, and its peer's, `peer`, which it consumes. `Half` is that
description, in five pieces:

* `Snd`: the sequence numbers, the retransmit queue and the outbox agree
  with the log. `acked` is how much of the log the peer has acknowledged;
  `unacked` is the rest of it.
* `Phase`: the connection state bounds the log. Before the handshake there
  is nothing but SYNs in it, and a FIN only once it was sent.
* `Queue`: the chunks in the log, followed by those still queued, are the
  chunks ever queued.
* `Rcv`: the receive position, the reorder buffer and what was handed to the
  reassembler agree with the peer's log.
* `Idle`: before the handshake nothing was received.

`Half.action` takes a side through one action, extending its log. `LinkInv`
puts the two sides together with the network between them: every frame ever
emitted is one its sender's log explains, and nobody was told of more than
the other side has received. That last bound is what makes a cumulative
acknowledgement safe to believe.
-/

namespace Telesthete.Channel

open Telesthete.Lib Telesthete.Wire List

section side

variable {log peer : Log} {acked bound : Nat} {q : List Bytes} {c d : ChannelCore}
variable {flags : UInt8} {data : Bytes} {u : Unacked} {fr f : ChannelFrame} {now : Nat → Nat}

/-- The sending half agrees with the log. -/
structure Snd (log : Log) (acked : Nat) (c : ChannelCore) : Prop where
  logOk : LogOk log
  len : log.length = c.sendNext
  ackedLe : acked ≤ log.length
  unacked : c.dead = false → c.unacked = log.drop acked
  wire : ∀ b ∈ c.outbox, WireOk log c.rcvNext c.window b

/-- What the connection state says about the log. -/
structure Phase (log : Log) (c : ChannelCore) : Prop where
  early : c.dead = false → c.state = .closed ∨ c.state = .synSent → ∀ u ∈ log, u.IsSyn
  noFin : c.dead = false → c.state ≠ .finSent → ∀ u ∈ log, ¬ u.IsFin
  hasFin : c.dead = false → c.state = .finSent → ∃ u ∈ log, u.IsFin

/-- The chunks sent and the chunks waiting are the chunks queued. -/
structure Queue (log : Log) (q : List Bytes) (c : ChannelCore) : Prop where
  nonempty : ∀ chunk ∈ q, chunk ≠ []
  sub : payloads log <+: q
  eq : c.dead = false → payloads log ++ c.sendQueue = q

/-- The receiving half agrees with the peer's log. -/
structure Rcv (peer : Log) (c : ChannelCore) : Prop where
  logOk : LogOk peer
  le : c.rcvNext ≤ peer.length
  fed : c.fed = payloads (peer.take c.rcvNext)
  buf : ∀ k f, c.recvBuffer.lookup k = some f →
    c.rcvNext ≤ k ∧ k < c.rcvNext + c.window.toNat ∧ ∃ u ∈ peer, u.seq = k ∧ f.Carries u
  closed : c.peerClosed = true → ∃ u ∈ peer, u.IsFin ∧ u.seq < c.rcvNext

/-- Before the handshake nothing was received. -/
def Idle (c : ChannelCore) : Prop :=
  c.dead = false → c.state = .closed ∨ c.state = .synSent →
    c.rcvNext = 0 ∧ c.recvBuffer = ∅

/-- One side of a connection, relative to what both sides have said. `bound`
is how far the peer has really received. -/
structure Half (log : Log) (acked bound : Nat) (q : List Bytes) (peer : Log)
    (c : ChannelCore) : Prop where
  snd : Snd log acked c
  ackedBound : acked ≤ bound
  phase : Phase log c
  queue : Queue log q c
  rcv : Rcv peer c
  idle : Idle c

/-! ## Pieces that an action leaves alone -/

/-- `Snd` reads six fields, and the receive position may have moved on. -/
theorem Snd.congr (h : Snd log acked c) (hnext : d.sendNext = c.sendNext)
    (hun : d.unacked = c.unacked) (hout : d.outbox = c.outbox)
    (hrcv : c.rcvNext ≤ d.rcvNext) (hwin : d.window = c.window) (hdead : d.dead = c.dead) :
    Snd log acked d where
  logOk := h.logOk
  len := by rw [hnext]; exact h.len
  ackedLe := h.ackedLe
  unacked := by rw [hun, hdead]; exact h.unacked
  wire := by
    intro b hb
    rw [hout] at hb
    rw [hwin]
    exact (h.wire b hb).mono_rcvNext hrcv

theorem Phase.congr (h : Phase log c) (hstate : d.state = c.state) (hdead : d.dead = c.dead) :
    Phase log d := by
  refine ⟨?_, ?_, ?_⟩
  · rw [hstate, hdead]; exact h.early
  · rw [hstate, hdead]; exact h.noFin
  · rw [hstate, hdead]; exact h.hasFin

theorem Queue.congr (h : Queue log q c) (hqueue : d.sendQueue = c.sendQueue)
    (hdead : d.dead = c.dead) : Queue log q d where
  nonempty := h.nonempty
  sub := h.sub
  eq := by rw [hqueue, hdead]; exact h.eq

/-- The fields the receiving half owns are the same. -/
structure SameRecv (c d : ChannelCore) : Prop where
  rcvNext : d.rcvNext = c.rcvNext
  recvBuffer : d.recvBuffer = c.recvBuffer
  fed : d.fed = c.fed
  window : d.window = c.window
  peerClosed : d.peerClosed = c.peerClosed

theorem Rcv.congr (h : Rcv peer c) (hs : SameRecv c d) : Rcv peer d where
  logOk := h.logOk
  le := by rw [hs.rcvNext]; exact h.le
  fed := by rw [hs.fed, hs.rcvNext]; exact h.fed
  buf := by rw [hs.recvBuffer, hs.rcvNext, hs.window]; exact h.buf
  closed := by rw [hs.peerClosed, hs.rcvNext]; exact h.closed

/-- Past the handshake `Idle` has nothing to say. -/
theorem idle_of_open (h : c.state = .established ∨ c.state = .finSent) : Idle c := by
  intro _ he
  rcases h with h | h <;> rcases he with he | he <;> exact absurd (h.symm.trans he) (by decide)

/-- A longer peer log changes nothing for what was received. -/
theorem Rcv.extend {ext : Log} (h : Rcv peer c) (hlog : LogOk (peer ++ ext)) :
    Rcv (peer ++ ext) c where
  logOk := hlog
  le := by
    have := h.le
    simp only [length_append]
    omega
  fed := by rw [take_append_of_le_length h.le]; exact h.fed
  buf := by
    intro k f hk
    obtain ⟨hle, hlt, u, hu, huk, hc⟩ := h.buf k f hk
    exact ⟨hle, hlt, u, mem_append_left _ hu, huk, hc⟩
  closed := by
    intro hc
    obtain ⟨u, hu, hf, hlt⟩ := h.closed hc
    exact ⟨u, mem_append_left _ hu, hf, hlt⟩

/-! ## Emitting -/

theorem Snd.emit {seq : Nat} (h : Snd log acked c)
    (hf : FrameOk log c.rcvNext c.window ⟨flags, c.rcvNext, c.window, seq, data⟩) :
    Snd log acked (c.emit flags seq data) :=
  { h with wire := forall_mem_snoc h.wire ⟨_, rfl, hf⟩ }

theorem Snd.emitPureAck (h : Snd log acked c) : Snd log acked c.emitPureAck :=
  h.emit
    { ackNum := le_rfl
      seq := le_of_eq h.len.symm
      window := rfl
      kind := .inl ⟨rfl, rfl⟩ }

theorem Snd.resend (h : Snd log acked c) (halive : c.dead = false)
    (hu : u ∈ c.unacked) : Snd log acked (c.emit u.flags u.seq u.data) := by
  rw [h.unacked halive] at hu
  have hmem : u ∈ log := mem_of_mem_drop hu
  exact h.emit
    { ackNum := le_rfl
      seq := le_of_lt (h.logOk.numbered.seq_lt hmem)
      window := rfl
      kind := .inr ⟨u, hmem, rfl, rfl, rfl⟩ }

/-- Emitting under the next sequence number appends to the log. -/
theorem Snd.emitNext (h : Snd log acked c) (hlog : LogOk (log ++ [⟨flags, c.sendNext, data⟩])) :
    Snd (log ++ [⟨flags, c.sendNext, data⟩]) acked (c.emitNext flags data) where
  logOk := hlog
  len := by
    have := h.len
    simp only [length_append, length_singleton]
    show _ = c.sendNext + 1
    omega
  ackedLe := by
    have := h.ackedLe
    simp only [length_append]
    omega
  unacked := by
    intro halive
    show c.unacked ++ [_] = _
    rw [drop_append_of_le_length h.ackedLe, h.unacked halive]
  wire := by
    intro b hb
    rcases mem_append.mp hb with hb | hb
    · exact (h.wire b hb).mono (le_rfl)
    · refine ⟨_, mem_singleton.mp hb, ?_⟩
      exact
        { ackNum := le_rfl
          seq := by
            have := h.len
            simp only [length_append]
            omega
          window := rfl
          kind := .inr ⟨_, mem_append_right _ (mem_singleton.mpr rfl),
            rfl, rfl, rfl⟩ }

/-- Handshake frames and FINs carry no chunk. -/
theorem Queue.snoc_empty (h : Queue log q c) (hu : u.data = []) :
    Queue (log ++ [u]) q c := by
  have hpay : payloads (log ++ [u]) = payloads log := by
    rw [payloads_append, payloads_singleton_empty hu, append_nil]
  refine ⟨h.nonempty, ?_, ?_⟩
  · rw [hpay]; exact h.sub
  · rw [hpay]; exact h.eq

/-! ## Acknowledging and receiving -/

/-- An acknowledgement the peer meant moves `acked` up to it. -/
theorem Snd.ack {n : Nat} (h : Snd log acked c) :
    Snd log (max acked (min n c.sendNext)) (c.ack n) where
  logOk := h.logOk
  len := h.len
  ackedLe := by
    have := h.ackedLe
    have := h.len
    omega
  unacked := by
    intro halive
    show c.unacked.dropWhile (fun u => decide (u.seq < min n c.sendNext)) = _
    rw [h.unacked halive, h.logOk.numbered.dropWhile_drop _ _ h.ackedLe, h.len]
    congr 1
    omega
  wire := h.wire

/-- The frame due next is a copy of the peer's entry of that number. -/
theorem Rcv.due (h : Rcv peer c) (hdue : c.recvBuffer.lookup c.rcvNext = some fr) :
    ∃ u ∈ peer, fr.Carries u ∧ c.rcvNext < peer.length ∧
      peer.take (c.rcvNext + 1) = peer.take c.rcvNext ++ [u] ∧ u.seq = c.rcvNext := by
  obtain ⟨-, -, u, hu, hseq, hc⟩ := h.buf _ _ hdue
  have hget : peer[c.rcvNext]? = some u := by
    rw [← hseq]
    exact h.logOk.numbered.getElem?_seq hu
  refine ⟨u, hu, hc, ?_, ?_, hseq⟩
  · rw [← hseq]
    exact h.logOk.numbered.seq_lt hu
  · rw [take_add_one, hget, Option.toList_some]

/-- Taking the due frame out of the buffer. What it fed, if anything, is the
payload of the entry it copies. -/
theorem Rcv.consumed (h : Rcv peer c) (hdue : c.recvBuffer.lookup c.rcvNext = some fr)
    (hrcv : d.rcvNext = c.rcvNext + 1) (hbuf : d.recvBuffer = c.recvBuffer.erase c.rcvNext)
    (hwin : d.window = c.window)
    (hfed : d.fed = c.fed ++ (if fr.data = [] then [] else [fr.data]))
    (hclosed : d.peerClosed = (c.peerClosed || fr.has flagFin)) : Rcv peer d := by
  obtain ⟨u, hu, hc, hlt, htake, hseq⟩ := h.due hdue
  refine ⟨h.logOk, ?_, ?_, ?_, ?_⟩
  · rw [hrcv]
    exact hlt
  · rw [hfed, hrcv, htake, payloads_append, h.fed, hc.2.2]
    congr 1
    simp [payloads, filter_cons]
  · rw [hbuf, hrcv, hwin]
    intro k f hk
    rcases lt_or_ge c.rcvNext k with hlt' | hge
    · rw [AList.lookup_erase_ne (by omega)] at hk
      obtain ⟨_, hlt, hex⟩ := h.buf k f hk
      exact ⟨by omega, by omega, hex⟩
    · rcases lt_or_ge k c.rcvNext with hlt' | hge'
      · rw [AList.lookup_erase_ne (by omega)] at hk
        have := (h.buf k f hk).1
        omega
      · have hkeq : k = c.rcvNext := by omega
        rw [hkeq, AList.lookup_erase] at hk
        exact absurd hk (by simp)
  · rw [hclosed, hrcv, Bool.or_eq_true]
    rintro (hold | hfin)
    · obtain ⟨v, hv, hvf, hvlt⟩ := h.closed hold
      exact ⟨v, hv, hvf, Nat.lt_succ_of_lt hvlt⟩
    · exact ⟨u, hu, (h.logOk.has_fin hu hc).mp hfin, by omega⟩

/-- An insertion into the reorder buffer of a copy of a peer entry in the
window. -/
theorem Rcv.buffer (h : Rcv peer c) (hu : u ∈ peer)
    (hc : f.Carries u) (hge : c.rcvNext ≤ f.seq) (hlt : f.seq < c.rcvNext + c.window.toNat) :
    Rcv peer { c with recvBuffer := c.recvBuffer.insert f.seq f } := by
  refine { h with buf := fun k g hk => ?_ }
  by_cases hkf : k = f.seq
  · subst hkf
    rw [AList.lookup_insert] at hk
    cases hk
    exact ⟨hge, hlt, u, hu, hc.2.1.symm, hc⟩
  · rw [AList.lookup_insert_ne hkf] at hk
    exact h.buf k g hk

/-- Learning the peer's first sequence number from its SYN. -/
theorem Rcv.synced (h : Rcv peer c) (hidle : c.rcvNext = 0)
    (hempty : c.recvBuffer = ∅) (hu : u ∈ peer) (hsyn : u.IsSyn) (hc : f.Carries u)
    (hrcv : d.rcvNext = f.seq + 1) (hbuf : d.recvBuffer = c.recvBuffer) (hfed : d.fed = c.fed)
    (hclosed : d.peerClosed = c.peerClosed) : Rcv peer d where
  logOk := h.logOk
  le := by
    rw [hrcv, hc.2.1]
    exact h.logOk.numbered.seq_lt hu
  fed := by
    rw [hfed, h.fed, hidle, hrcv, hc.2.1, h.logOk.payloads_take_syn hu hsyn]
    rfl
  buf := by
    intro k g hk
    rw [hbuf, hempty, AList.lookup_empty] at hk
    exact absurd hk (by simp)
  closed := by
    rw [hclosed]
    intro hc
    obtain ⟨v, -, -, hlt⟩ := h.closed hc
    omega

/-! ## One action of one side -/

/-- Where `Half` goes in one or more actions: the log may have grown, and the
receive position only moves forward. -/
def Advanced (log : Log) (bound : Nat) (q : List Bytes) (peer : Log) (c d : ChannelCore) : Prop :=
  ∃ ext acked, Half (log ++ ext) acked bound q peer d ∧ c.rcvNext ≤ d.rcvNext

theorem advanced_same (acked : Nat) (h : Half log acked bound q peer d)
    (hrcv : c.rcvNext ≤ d.rcvNext) : Advanced log bound q peer c d := by
  refine ⟨[], acked, ?_, hrcv⟩
  rw [append_nil]
  exact h

/-- A SYN may follow SYNs. -/
theorem LogOk.snoc_syn (h : LogOk log)
    (hflags : flags = flagSyn ∨ flags = flagSyn ||| flagAck) (hall : ∀ u ∈ log, u.IsSyn) :
    LogOk (log ++ [⟨flags, log.length, []⟩]) :=
  h.snoc rfl (.inl ⟨hflags, rfl⟩) (fun _ => hall) (fun u hu => (hall u hu).not_fin)

/-- Data and a FIN may follow anything but a FIN. -/
theorem LogOk.snoc_data (h : LogOk log) (hdata : data ≠ [])
    (hfin : ∀ u ∈ log, ¬ u.IsFin) : LogOk (log ++ [⟨flagAck, log.length, data⟩]) :=
  h.snoc rfl (.inr (.inl ⟨rfl, hdata⟩)) (fun hs => absurd hs.2 hdata) hfin

theorem LogOk.snoc_fin (h : LogOk log) (hfin : ∀ u ∈ log, ¬ u.IsFin) :
    LogOk (log ++ [⟨flagFin ||| flagAck, log.length, []⟩]) := by
  have hf : Unacked.IsFin ⟨flagFin ||| flagAck, log.length, []⟩ := ⟨rfl, rfl⟩
  exact h.snoc rfl (.inr (.inr hf)) (fun hs => absurd hs hf.not_syn) hfin

/-- Established and FIN-sent sides are past every early clause. -/
theorem phase_of_established (hstate : d.state = .established) (hfin : ∀ u ∈ log, ¬ u.IsFin) :
    Phase log d := by
  refine ⟨fun _ he => ?_, fun _ _ => hfin, fun _ he => absurd (hstate.symm.trans he) (by decide)⟩
  rcases he with he | he <;> exact absurd (hstate.symm.trans he) (by decide)

theorem phase_of_finSent (hstate : d.state = .finSent) (hfin : ∃ u ∈ log, u.IsFin) :
    Phase log d := by
  refine ⟨fun _ he => ?_, fun _ hn => absurd hstate hn, fun _ _ => hfin⟩
  rcases he with he | he <;> exact absurd (hstate.symm.trans he) (by decide)

/-- The three pieces about what a side says. They do not look at the peer's log. -/
structure Sender (log : Log) (acked : Nat) (q : List Bytes) (c : ChannelCore) : Prop where
  snd : Snd log acked c
  phase : Phase log c
  queue : Queue log q c

/-- Our SYN, numbered next. -/
theorem Sender.syn (h : Sender log acked q c) (halive : c.dead = false)
    (hstate : c.state = .closed) :
    Sender (log ++ [⟨flagSyn, c.sendNext, []⟩]) acked q
      ({ c with state := .synSent }.emitNext flagSyn []) := by
  have hall := h.phase.early halive (.inl hstate)
  have hlog : LogOk (log ++ [⟨flagSyn, c.sendNext, []⟩]) := by
    rw [← h.snd.len]
    exact h.snd.logOk.snoc_syn (.inl rfl) hall
  have hs : Unacked.IsSyn ⟨flagSyn, c.sendNext, []⟩ := ⟨.inl rfl, rfl⟩
  have hmid : Snd log acked { c with state := .synSent } :=
    h.snd.congr rfl rfl rfl (le_rfl) rfl rfl
  exact
    { snd := hmid.emitNext hlog
      phase :=
        { early := fun _ _ => forall_mem_snoc hall hs
          noFin := fun _ _ => forall_mem_snoc (fun v hv => (hall v hv).not_fin) hs.not_fin
          hasFin := fun _ he => (by cases he) }
      queue := (h.queue.snoc_empty rfl).congr rfl rfl }

/-- One pass of the send loop moves the head of the queue to the log. -/
theorem Sender.chunk {rest : List Bytes} (h : Sender log acked q c)
    (halive : c.dead = false) (hstate : c.state = .established)
    (hqueue : c.sendQueue = data :: rest) :
    Sender (log ++ [⟨flagAck, c.sendNext, data⟩]) acked q
      ({ c with sendQueue := rest }.emitNext flagAck data) := by
  have hq := h.queue.eq halive
  rw [hqueue] at hq
  have hdata : data ≠ [] := h.queue.nonempty data (by rw [← hq]; simp)
  have hfin := h.phase.noFin halive (by rw [hstate]; decide)
  have hlog : LogOk (log ++ [⟨flagAck, c.sendNext, data⟩]) := by
    rw [← h.snd.len]
    exact h.snd.logOk.snoc_data hdata hfin
  have hd : Unacked.IsData ⟨flagAck, c.sendNext, data⟩ := ⟨rfl, hdata⟩
  have hpay : payloads (log ++ [⟨flagAck, c.sendNext, data⟩]) ++ rest = q := by
    rw [payloads_append, payloads_singleton_data hd, append_assoc]
    exact hq
  have hmid : Snd log acked { c with sendQueue := rest } :=
    h.snd.congr rfl rfl rfl (le_rfl) rfl rfl
  exact ⟨hmid.emitNext hlog, phase_of_established hstate (forall_mem_snoc hfin hd.not_fin),
    h.queue.nonempty, ⟨rest, hpay⟩, fun _ => hpay⟩

/-- Our FIN, as `pump` sends it for a pending close and `consume` to answer the peer's. -/
theorem Sender.sendFin (h : Sender log acked q c) (halive : c.dead = false)
    (hstate : c.state = .established) (closing : Bool) :
    Sender (log ++ [⟨flagFin ||| flagAck, c.sendNext, []⟩]) acked q
      { c.emitNext (flagFin ||| flagAck) [] with state := .finSent, closing := closing } := by
  have hlog : LogOk (log ++ [⟨flagFin ||| flagAck, c.sendNext, []⟩]) := by
    rw [← h.snd.len]
    exact h.snd.logOk.snoc_fin (h.phase.noFin halive (by rw [hstate]; decide))
  refine ⟨(h.snd.emitNext hlog).congr rfl rfl rfl (le_rfl) rfl rfl, ?_,
    (h.queue.snoc_empty rfl).congr rfl rfl⟩
  exact phase_of_finSent rfl ⟨_, mem_append_right _ (mem_singleton.mpr rfl), rfl, rfl⟩

/-- Answering a SYN with our own, numbered next. -/
theorem Sender.respond (h : Sender log acked q c) (halive : c.dead = false)
    (hstate : c.state = .closed ∨ c.state = .synSent) (hrcv : c.rcvNext = 0) :
    Sender (log ++ [⟨flagSyn ||| flagAck, c.sendNext, []⟩]) acked q
      ({ c with rcvNext := f.seq + 1, state := .established, justEstablished := true }.emitNext
        (flagSyn ||| flagAck) []) := by
  have hall := h.phase.early halive hstate
  have hlog : LogOk (log ++ [⟨flagSyn ||| flagAck, c.sendNext, []⟩]) := by
    rw [← h.snd.len]
    exact h.snd.logOk.snoc_syn (.inr rfl) hall
  have hs : Unacked.IsSyn ⟨flagSyn ||| flagAck, c.sendNext, []⟩ := ⟨.inr rfl, rfl⟩
  have hmid : Snd log acked
      { c with rcvNext := f.seq + 1, state := .established, justEstablished := true } :=
    h.snd.congr rfl rfl rfl (by omega) rfl rfl
  refine ⟨hmid.emitNext hlog, ?_, (h.queue.snoc_empty rfl).congr rfl rfl⟩
  exact phase_of_established rfl (forall_mem_snoc (fun v hv => (hall v hv).not_fin) hs.not_fin)

/-- Our SYN was answered: the handshake is complete on this side. -/
theorem Sender.opened (h : Sender log acked q c) (halive : c.dead = false)
    (hstate : c.state = .synSent) (hrcv : c.rcvNext = 0) :
    Sender log acked q
      { c with rcvNext := f.seq + 1, state := .established,
               justEstablished := true }.emitPureAck := by
  have hall := h.phase.early halive (.inr hstate)
  have hmid : Snd log acked
      { c with rcvNext := f.seq + 1, state := .established, justEstablished := true } :=
    h.snd.congr rfl rfl rfl (by omega) rfl rfl
  exact ⟨hmid.emitPureAck, phase_of_established rfl fun v hv => (hall v hv).not_fin,
    h.queue.congr rfl rfl⟩

/-- A dead core promises nothing but what it already said. -/
theorem Sender.teardown (h : Sender log acked q c) : Sender log acked q c.teardown where
  snd := ⟨h.snd.logOk, h.snd.len, h.snd.ackedLe, fun hd => (by cases hd), h.snd.wire⟩
  phase := ⟨fun hd => (by cases hd), fun hd => (by cases hd), fun hd => (by cases hd)⟩
  queue := ⟨h.queue.nonempty, h.queue.sub, fun hd => (by cases hd)⟩

theorem Half.sender (h : Half log acked bound q peer c) : Sender log acked q c :=
  ⟨h.snd, h.phase, h.queue⟩

theorem Sender.half (h : Sender log acked q c) (hbound : acked ≤ bound) (hrcv : Rcv peer c)
    (hidle : Idle c) : Half log acked bound q peer c :=
  ⟨h.snd, hbound, h.phase, h.queue, hrcv, hidle⟩

theorem Half.sendFin (h : Half log acked bound q peer c) (halive : c.dead = false)
    (hstate : c.state = .established) (closing : Bool) :
    Advanced log bound q peer c
      { c.emitNext (flagFin ||| flagAck) [] with state := .finSent, closing := closing } :=
  ⟨_, acked, (h.sender.sendFin halive hstate closing).half h.ackedBound
    (h.rcv.congr ⟨rfl, rfl, rfl, rfl, rfl⟩) (idle_of_open (.inr rfl)), le_rfl⟩

/-- Draining one frame. -/
theorem Half.consume (h : Half log acked bound q peer c)
    (halive : c.dead = false) (hstate : c.state = .established ∨ c.state = .finSent)
    (hdue : c.recvBuffer.lookup c.rcvNext = some fr) :
    Advanced log bound q peer c (c.consume now fr) := by
  obtain ⟨u, hu, hc, -, -, -⟩ := h.rcv.due hdue
  -- every branch starts by stepping over the due frame
  have hstep : ∀ (d : ChannelCore), d.rcvNext = c.rcvNext + 1 →
      d.recvBuffer = c.recvBuffer.erase c.rcvNext → d.window = c.window →
      d.fed = c.fed ++ (if fr.data = [] then [] else [fr.data]) →
      d.peerClosed = (c.peerClosed || fr.has flagFin) → d.sendNext = c.sendNext →
      d.unacked = c.unacked → d.outbox = c.outbox → d.dead = c.dead → d.state = c.state →
      d.sendQueue = c.sendQueue → Half log acked bound q peer d := by
    intro d h1 h2 h3 h4 h4' h5 h6 h7 h8 h9 h10
    exact
      { snd := h.snd.congr h5 h6 h7 (by omega) h3 h8
        ackedBound := h.ackedBound
        phase := h.phase.congr h9 h8
        queue := h.queue.congr h10 h8
        rcv := h.rcv.consumed hdue h1 h2 h3 h4 h4'
        idle := idle_of_open (by rw [h9]; exact hstate) }
  rw [ChannelCore.consume]
  simp only
  split
  · rename_i hfin
    have hdata : fr.data = [] := by
      rw [hc.2.2]
      exact ((h.rcv.logOk.has_fin hu hc).mp hfin).2
    have hmid := hstep
      { c with recvBuffer := c.recvBuffer.erase c.rcvNext, rcvNext := c.rcvNext + 1,
               peerClosed := true }
      rfl rfl rfl (by simp [hdata]) (by simp [hfin]) rfl rfl rfl rfl rfl rfl
    split
    · rename_i hest
      obtain ⟨ext, acked', h', hrcv⟩ := hmid.sendFin halive hest c.closing
      exact ⟨ext, acked', h', le_trans (Nat.le_succ _) hrcv⟩
    · exact advanced_same acked hmid (Nat.le_succ _)
  · rename_i hfin
    rw [Bool.not_eq_true] at hfin
    split
    · rename_i hdata
      refine advanced_same acked (hstep _ rfl rfl rfl ?_ (by simp [hfin]) rfl rfl rfl rfl rfl rfl)
        (Nat.le_succ _)
      simp [hdata]
    · rename_i hdata
      refine advanced_same acked (hstep _ rfl rfl rfl ?_ (by simp [hfin]) rfl rfl rfl rfl rfl rfl)
        (Nat.le_succ _)
      simp [not_not.mp hdata]

/-- The peer's SYN, on the first of the two ways through the handshake. -/
theorem Half.respond (h : Half log acked bound q peer c)
    (halive : c.dead = false) (hstate : c.state = .closed ∨ c.state = .synSent)
    (hu : u ∈ peer) (hsyn : u.IsSyn) (hc : f.Carries u) :
    Advanced log bound q peer c
      ({ c with rcvNext := f.seq + 1, state := .established, justEstablished := true }.emitNext
        (flagSyn ||| flagAck) []) := by
  obtain ⟨hrcv, hbuf⟩ := h.idle halive hstate
  refine ⟨_, acked, (h.sender.respond halive hstate hrcv).half h.ackedBound ?_
    (idle_of_open (.inl rfl)), by rw [hrcv]; exact Nat.zero_le _⟩
  exact h.rcv.synced hrcv hbuf hu hsyn hc rfl rfl rfl rfl

/-- And on the second. -/
theorem Half.opened (h : Half log acked bound q peer c)
    (halive : c.dead = false) (hstate : c.state = .synSent)
    (hu : u ∈ peer) (hsyn : u.IsSyn) (hc : f.Carries u) :
    Advanced log bound q peer c
      { c with rcvNext := f.seq + 1, state := .established,
               justEstablished := true }.emitPureAck := by
  obtain ⟨hrcv, hbuf⟩ := h.idle halive (.inr hstate)
  refine advanced_same acked ((h.sender.opened halive hstate hrcv).half h.ackedBound ?_
    (idle_of_open (.inl rfl))) (by rw [hrcv]; exact Nat.zero_le _)
  exact h.rcv.synced hrcv hbuf hu hsyn hc rfl rfl rfl rfl

theorem Half.ack (h : Half log acked bound q peer c) (hack : f.ackNum ≤ bound) :
    Advanced log bound q peer c { c.ack f.ackNum with peerWindow := f.window } := by
  have hb := h.ackedBound
  refine ⟨[], max acked (min f.ackNum c.sendNext), ?_, le_rfl⟩
  rw [append_nil]
  exact
    { snd := h.snd.ack.congr rfl rfl rfl (le_rfl) rfl rfl
      ackedBound := by omega
      phase := h.phase.congr rfl rfl
      queue := h.queue.congr rfl rfl
      rcv := h.rcv.congr ⟨rfl, rfl, rfl, rfl, rfl⟩
      idle := h.idle }

/-- One action takes a side to a side. -/
theorem Half.action {inp : Option ChannelFrame} {w : UInt16}
    (h : Half log acked bound q peer c) (halive : c.dead = false)
    (hinput : ∀ f, inp = some f → FrameOk peer bound w f) (hact : Action now inp c d) :
    Advanced log bound q peer c d := by
  cases hact with
  | syn hstate =>
    exact ⟨_, acked, (h.sender.syn halive hstate).half h.ackedBound
      (h.rcv.congr ⟨rfl, rfl, rfl, rfl, rfl⟩) fun _ _ => h.idle halive (.inl hstate),
      le_rfl⟩
  | chunk hstate hqueue =>
    exact ⟨_, acked, (h.sender.chunk halive hstate hqueue).half h.ackedBound
      (h.rcv.congr ⟨rfl, rfl, rfl, rfl, rfl⟩) (idle_of_open (.inl hstate)), le_rfl⟩
  | fin hstate _ _ => exact h.sendFin halive hstate false
  | closing =>
    refine advanced_same acked ?_ (le_rfl)
    exact ⟨h.snd.congr rfl rfl rfl (le_rfl) rfl rfl, h.ackedBound, h.phase.congr rfl rfl,
      h.queue.congr rfl rfl, h.rcv.congr ⟨rfl, rfl, rfl, rfl, rfl⟩, h.idle⟩
  | retry _ =>
    refine advanced_same acked ?_ (le_rfl)
    exact ⟨h.snd.congr rfl rfl rfl (le_rfl) rfl rfl, h.ackedBound, h.phase.congr rfl rfl,
      h.queue.congr rfl rfl, h.rcv.congr ⟨rfl, rfl, rfl, rfl, rfl⟩, h.idle⟩
  | resend hu =>
    refine advanced_same acked ?_ (le_rfl)
    exact ⟨h.snd.resend halive hu, h.ackedBound, h.phase.congr rfl rfl,
      h.queue.congr rfl rfl, h.rcv.congr ⟨rfl, rfl, rfl, rfl, rfl⟩, h.idle⟩
  | exhausted _ _ =>
    exact advanced_same acked (h.sender.teardown.half h.ackedBound
      (h.rcv.congr ⟨rfl, rfl, rfl, rfl, rfl⟩) fun hd => (by cases hd)) (le_rfl)
  | ack hinp => exact h.ack (hinput _ hinp).ackNum
  | rst hinp hrst =>
    rw [(hinput _ hinp).not_rst h.rcv.logOk] at hrst
    exact absurd hrst (by decide)
  | respond hinp hstate hsyn =>
    obtain ⟨u, hu, hus, hc⟩ := (hinput _ hinp).syn h.rcv.logOk hsyn
    exact h.respond halive hstate hu hus hc
  | opened hinp hstate hsyn =>
    obtain ⟨u, hu, hus, hc⟩ := (hinput _ hinp).syn h.rcv.logOk hsyn
    exact h.opened halive hstate hu hus hc
  | pureAck _ =>
    refine advanced_same acked ?_ (le_rfl)
    exact ⟨h.snd.emitPureAck, h.ackedBound, h.phase.congr rfl rfl,
      h.queue.congr rfl rfl, h.rcv.congr ⟨rfl, rfl, rfl, rfl, rfl⟩, h.idle⟩
  | buffer hinp hstate hcons hge hlt =>
    obtain ⟨u, hu, hc⟩ := (hinput _ hinp).consumes hcons
    refine advanced_same acked ?_ (le_rfl)
    exact ⟨h.snd.congr rfl rfl rfl (le_rfl) rfl rfl, h.ackedBound, h.phase.congr rfl rfl,
      h.queue.congr rfl rfl, h.rcv.buffer hu hc hge hlt, idle_of_open hstate⟩
  | consume hstate hdue => exact h.consume halive hstate hdue

/-- And so does a sequence of them. -/
theorem Half.actions {inp : Option ChannelFrame} {w : UInt16} (h : Half log acked bound q peer c)
    (hinput : ∀ f, inp = some f → FrameOk peer bound w f) (hacts : Actions now inp c d) :
    Advanced log bound q peer c d := by
  induction hacts with
  | refl => exact advanced_same acked h (le_rfl)
  | tail _ hlast ih =>
    obtain ⟨ext, acked', h', hrcv⟩ := ih
    obtain ⟨ext', acked'', h'', hrcv'⟩ := h'.action hlast.1 hinput hlast.2
    rw [append_assoc] at h''
    exact ⟨ext ++ ext', acked'', h'', le_trans hrcv hrcv'⟩

end side

end Telesthete.Channel
