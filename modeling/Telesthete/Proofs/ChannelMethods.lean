import Telesthete.Channel.Action
import Telesthete.Channel.Log
import Telesthete.Lib.Assoc

/-!
# What the loops of an open core achieve

Cutting the methods into actions is enough for safety, and loses what makes
a core make progress: that its loops run to their end and how much they emit
on the way. This file says that of the methods themselves.

`Pumps` is the send loop: every chunk that leaves the queue is a frame in
the outbox and in flight. `Drains` is the drain loop over a buffer without a
FIN: it only moves the receive position. `Hears` is `onFrame` on an open
core: it acknowledges, answers a sequenced frame with exactly one pure ACK,
and pumps.

`Tight` and `Pumped` are the two ends a loop runs to: nothing that is due is
left in the reorder buffer, and a queue is only left waiting behind frames
in flight.
-/

namespace Telesthete.Channel

open Telesthete.Lib List

variable {now : Nat → Nat} {c d e : ChannelCore} {f : ChannelFrame}

/-- Nothing in the reorder buffer is due. -/
def Tight (c : ChannelCore) : Prop := c.recvBuffer.lookup c.rcvNext = none

/-- A side with queued chunks has something in flight. -/
def Pumped (c : ChannelCore) : Prop :=
  c.state = .established → c.sendQueue ≠ [] → c.unacked ≠ []

/-! ## The send loop -/

/-- Chunks moved from the queue to the outbox, and nothing else happened. -/
structure Pumps (c d : ChannelCore) : Prop where
  out : ∃ frames, d.outbox = c.outbox ++ frames ∧
    frames.length + d.sendQueue.length = c.sendQueue.length
  pending : d.unacked.length + d.sendQueue.length = c.unacked.length + c.sendQueue.length
  total : d.sendNext + d.sendQueue.length = c.sendNext + c.sendQueue.length
  state : d.state = c.state
  closing : d.closing = c.closing
  dead : d.dead = c.dead
  retries : d.retries = c.retries
  rcvNext : d.rcvNext = c.rcvNext
  recvBuffer : d.recvBuffer = c.recvBuffer

theorem Pumps.refl (c : ChannelCore) : Pumps c c :=
  ⟨⟨[], by simp, by simp⟩, rfl, rfl, rfl, rfl, rfl, rfl, rfl, rfl⟩

theorem Pumps.trans (h₁ : Pumps c d) (h₂ : Pumps d e) : Pumps c e where
  out := by
    obtain ⟨l₁, ho₁, hn₁⟩ := h₁.out
    obtain ⟨l₂, ho₂, hn₂⟩ := h₂.out
    refine ⟨l₁ ++ l₂, ?_, ?_⟩
    · rw [ho₂, ho₁, append_assoc]
    · rw [length_append]
      omega
  pending := h₂.pending.trans h₁.pending
  total := h₂.total.trans h₁.total
  state := h₂.state.trans h₁.state
  closing := h₂.closing.trans h₁.closing
  dead := h₂.dead.trans h₁.dead
  retries := h₂.retries.trans h₁.retries
  rcvNext := h₂.rcvNext.trans h₁.rcvNext
  recvBuffer := h₂.recvBuffer.trans h₁.recvBuffer

/-- One pass of the loop. -/
theorem pumps_chunk {data : Bytes} {rest : List Bytes} (hqueue : c.sendQueue = data :: rest) :
    Pumps c ({ c with sendQueue := rest }.emitNext flagAck data) where
  out := ⟨_, rfl, by
    rw [hqueue, length_singleton, length_cons]
    exact Nat.add_comm 1 rest.length⟩
  pending := by
    rw [hqueue]
    show (c.unacked ++ [_]).length + rest.length = _
    simp only [length_append, length_cons, length_nil]
    omega
  total := by
    rw [hqueue]
    show c.sendNext + 1 + rest.length = _
    rw [length_cons]
    omega
  state := rfl
  closing := rfl
  dead := rfl
  retries := rfl
  rcvNext := rfl
  recvBuffer := rfl

theorem pumpData_pumps (limit fuel : Nat) (c : ChannelCore) :
    Pumps c (ChannelCore.pumpData limit fuel c) :=
  pumpData_rule (P := Pumps c) (fun _ _ _ h hqueue _ => h.trans (pumps_chunk hqueue)) fuel c (.refl c)

/-- The loop ends with an empty queue or a full window. -/
theorem pumpData_full (limit : Nat) : ∀ (fuel : Nat) (c : ChannelCore),
    c.sendQueue.length ≤ fuel →
    (ChannelCore.pumpData limit fuel c).sendQueue = [] ∨
      limit ≤ (ChannelCore.pumpData limit fuel c).unacked.length := by
  intro fuel
  induction fuel with
  | zero =>
    intro c hc
    exact .inl (eq_nil_of_length_eq_zero (Nat.le_zero.mp hc))
  | succ n ih =>
    intro c hc
    rw [ChannelCore.pumpData]
    split
    · rename_i hnil
      exact .inl hnil
    · rename_i data rest hcons
      rw [hcons, length_cons] at hc
      split
      · exact ih _ (Nat.le_of_succ_le_succ hc)
      · exact .inr (by omega)

theorem pump_pumps (hclosing : c.closing = false) : Pumps c c.pump := by
  rw [ChannelCore.pump]
  split
  · exact .refl c
  · have h := pumpData_pumps (max c.peerWindow.toNat 1) c.sendQueue.length c
    simp only [h.closing, hclosing, Bool.false_and, Bool.false_eq_true, if_false]
    exact h

/-- Whatever the core was, after `pump` it is pumped. -/
theorem pumped_pump (c : ChannelCore) : Pumped c.pump := by
  intro hstate hqueue
  rw [ChannelCore.pump] at hstate hqueue ⊢
  split at hstate
  · rename_i hclosed
    exact absurd hstate hclosed
  · rename_i hopen
    rw [if_neg hopen] at hqueue ⊢
    simp only at hstate hqueue ⊢
    split at hstate
    · exact absurd hstate (by simp)
    · rename_i hfin
      rw [if_neg hfin] at hqueue ⊢
      rcases pumpData_full (max c.peerWindow.toNat 1) c.sendQueue.length c (le_rfl) with h | h
      · exact absurd h hqueue
      · exact ne_nil_of_length_pos (by omega)

/-- `pump` does not touch the receiving half. -/
theorem pump_recv (c : ChannelCore) :
    c.pump.rcvNext = c.rcvNext ∧ c.pump.recvBuffer = c.recvBuffer := by
  rw [ChannelCore.pump]
  split
  · exact ⟨rfl, rfl⟩
  · have h := pumpData_pumps (max c.peerWindow.toNat 1) c.sendQueue.length c
    simp only
    split
    · exact ⟨h.rcvNext, h.recvBuffer⟩
    · exact ⟨h.rcvNext, h.recvBuffer⟩

theorem Tight.pump (h : Tight c) : Tight c.pump := by
  rw [Tight, (pump_recv c).1, (pump_recv c).2]
  exact h

/-! ## The drain loop -/

/-- The receive position moved forward, and the sending half is as it was. -/
structure Drains (c d : ChannelCore) : Prop where
  rcvNext : c.rcvNext ≤ d.rcvNext
  outbox : d.outbox = c.outbox
  sendQueue : d.sendQueue = c.sendQueue
  unacked : d.unacked = c.unacked
  sendNext : d.sendNext = c.sendNext
  retries : d.retries = c.retries
  state : d.state = c.state
  closing : d.closing = c.closing
  dead : d.dead = c.dead
  window : d.window = c.window

theorem Drains.refl (c : ChannelCore) : Drains c c :=
  ⟨le_rfl, rfl, rfl, rfl, rfl, rfl, rfl, rfl, rfl, rfl⟩

theorem Drains.trans (h₁ : Drains c d) (h₂ : Drains d e) : Drains c e where
  rcvNext := le_trans h₁.rcvNext h₂.rcvNext
  outbox := h₂.outbox.trans h₁.outbox
  sendQueue := h₂.sendQueue.trans h₁.sendQueue
  unacked := h₂.unacked.trans h₁.unacked
  sendNext := h₂.sendNext.trans h₁.sendNext
  retries := h₂.retries.trans h₁.retries
  state := h₂.state.trans h₁.state
  closing := h₂.closing.trans h₁.closing
  dead := h₂.dead.trans h₁.dead
  window := h₂.window.trans h₁.window

/-- No FIN waits in the reorder buffer. -/
def NoFinBuffered (c : ChannelCore) : Prop :=
  ∀ k fr, c.recvBuffer.lookup k = some fr → fr.has flagFin = false

theorem deliver_sendQueue : (c.deliver now f).sendQueue = c.sendQueue := by
  rw [ChannelCore.deliver]
  split
  · rfl
  · split
    · rfl
    · split
      · rfl
      · refine drain_rule (P := fun d => d.sendQueue = c.sendQueue) ?_ _ _ rfl
        exact fun d fr h _ => (consume_consumes now d fr).sendQueue.trans h

theorem consume_drains (hfin : f.has flagFin = false) : Drains c (c.consume now f) := by
  rw [ChannelCore.consume]
  simp only [hfin, Bool.false_eq_true, if_false]
  split <;> exact ⟨Nat.le_succ _, rfl, rfl, rfl, rfl, rfl, rfl, rfl, rfl, rfl⟩

theorem NoFinBuffered.consume (h : NoFinBuffered c) (fr : ChannelFrame) :
    NoFinBuffered (c.consume now fr) := by
  intro k g hk
  rw [(consume_consumes now c fr).recvBuffer] at hk
  by_cases hkc : k = c.rcvNext
  · rw [hkc, AList.lookup_erase] at hk
    exact absurd hk (by simp)
  · rw [AList.lookup_erase_ne hkc] at hk
    exact h k g hk

theorem drain_drains (fuel : Nat) (hfin : NoFinBuffered c) : Drains c (c.drain now fuel) := by
  refine (drain_rule (P := fun d => Drains c d ∧ NoFinBuffered d) ?_ fuel c ⟨.refl c, hfin⟩).1
  intro d fr h hdue
  exact ⟨h.1.trans (consume_drains (h.2 _ fr hdue)), h.2.consume fr⟩

/-- The fuel `deliver` passes empties the due part of the buffer. -/
theorem tight_drain : ∀ (fuel : Nat) (c : ChannelCore),
    c.recvBuffer.entries.length ≤ fuel → Tight (c.drain now fuel) := by
  intro fuel
  induction fuel with
  | zero =>
    intro c hc
    show c.recvBuffer.lookup c.rcvNext = none
    rw [AList.lookup_eq_none, AList.mem_keys, AList.keys, List.keys,
      eq_nil_of_length_eq_zero (Nat.le_zero.mp hc)]
    simp
  | succ n ih =>
    intro c hc
    rw [ChannelCore.drain]
    split
    · rename_i hnone
      exact hnone
    · rename_i fr hdue
      refine ih _ ?_
      rw [(consume_consumes now c fr).recvBuffer]
      have := length_entries_erase (mem_of_lookup hdue)
      omega

/-- A due frame is drained. -/
theorem drain_advances {fr : ChannelFrame} {n : Nat} (hfin : NoFinBuffered c)
    (hdue : c.recvBuffer.lookup c.rcvNext = some fr) :
    c.rcvNext < (c.drain now (n + 1)).rcvNext := by
  rw [ChannelCore.drain, hdue]
  have h : (c.consume now fr).rcvNext ≤ ((c.consume now fr).drain now n).rcvNext :=
    (drain_drains n (hfin.consume fr)).rcvNext
  rw [(consume_consumes now c fr).rcvNext] at h
  exact h

/-! ## A frame arrives at an open core -/

/-- A pure ACK of everything `d` has received. -/
def AcksAll (d : ChannelCore) (b : Bytes) : Prop :=
  ∃ g : ChannelFrame, b = g.serialize ∧ g.IsPureAck ∧ g.ackNum = d.rcvNext

/-- `deliver`: the drain loop, and one pure ACK for a sequenced frame. -/
structure Delivers (c : ChannelCore) (f : ChannelFrame) (d : ChannelCore) : Prop where
  rcvNext : c.rcvNext ≤ d.rcvNext
  out : ∃ acks, d.outbox = c.outbox ++ acks ∧
    acks.length = (if f.consumesSeq then 1 else 0) ∧ ∀ b ∈ acks, AcksAll d b
  sendQueue : d.sendQueue = c.sendQueue
  unacked : d.unacked = c.unacked
  sendNext : d.sendNext = c.sendNext
  retries : d.retries = c.retries
  state : d.state = c.state
  closing : d.closing = c.closing
  dead : d.dead = c.dead

/-- Draining and then acknowledging. -/
theorem Drains.delivers (h : Drains c d) (hf : f.consumesSeq = true) :
    Delivers c f d.emitPureAck := by
  refine { h with out := ⟨_, congrArg (· ++ _) h.outbox, by rw [hf]; rfl, fun b hb => ?_⟩ }
  exact ⟨_, mem_singleton.mp hb, ⟨rfl, rfl⟩, rfl⟩

theorem NoFinBuffered.insert (h : NoFinBuffered c) (hf : f.has flagFin = false) :
    NoFinBuffered { c with recvBuffer := c.recvBuffer.insert f.seq f } := by
  intro k g hk
  by_cases hkf : k = f.seq
  · subst hkf
    rw [AList.lookup_insert] at hk
    rw [← Option.some.inj hk]
    exact hf
  · rw [AList.lookup_insert_ne hkf] at hk
    exact h k g hk

theorem drains_insert (c : ChannelCore) (f : ChannelFrame) :
    Drains c { c with recvBuffer := c.recvBuffer.insert f.seq f } :=
  ⟨le_rfl, rfl, rfl, rfl, rfl, rfl, rfl, rfl, rfl, rfl⟩

theorem deliver_delivers (hfin : NoFinBuffered c) (hf : f.has flagFin = false) :
    Delivers c f (c.deliver now f) := by
  rw [ChannelCore.deliver]
  split
  · rename_i hcons
    rw [Bool.not_eq_true'] at hcons
    exact ⟨le_rfl, ⟨[], by simp, by rw [hcons]; rfl, by simp⟩, rfl, rfl, rfl, rfl, rfl, rfl,
      rfl⟩
  · rename_i hcons
    simp only [Bool.not_eq_true', Bool.not_eq_false] at hcons
    split
    · exact (Drains.refl c).delivers hcons
    · split
      · exact (Drains.refl c).delivers hcons
      · exact ((drains_insert c f).trans (drain_drains _ (hfin.insert hf))).delivers hcons

/-- A frame at or below the receive position of a tight core is received
afterwards: it was before, or it is the one due. -/
theorem deliver_receives (hfin : NoFinBuffered c) (hf : f.has flagFin = false)
    (hcons : f.consumesSeq = true) (htight : Tight c) (hwin : 1 ≤ c.window.toNat)
    (hseq : f.seq ≤ c.rcvNext) : f.seq < (c.deliver now f).rcvNext := by
  rcases lt_or_ge f.seq c.rcvNext with hlt | hge
  · exact lt_of_lt_of_le hlt (deliver_delivers hfin hf).rcvNext
  · have heq : f.seq = c.rcvNext := by omega
    have hfresh : ¬ (f.seq < c.rcvNext ∨ f.seq ∈ c.recvBuffer) := by
      rw [heq, ← AList.lookup_eq_none.not_left]
      simp only [lt_irrefl, false_or, not_not]
      exact htight
    rw [ChannelCore.deliver, hcons]
    simp only [Bool.not_true, Bool.false_eq_true, if_false, if_neg hfresh]
    rw [if_neg (by omega)]
    have hdue : { c with recvBuffer := c.recvBuffer.insert f.seq f }.recvBuffer.lookup c.rcvNext =
        some f := by
      rw [← heq]
      exact AList.lookup_insert _
    obtain ⟨n, hn⟩ : ∃ n, (c.recvBuffer.insert f.seq f).entries.length = n + 1 := by
      refine ⟨_, (length_entries_erase (a := f.seq) ?_).symm⟩
      exact mem_of_lookup (AList.lookup_insert _)
    rw [hn]
    exact lt_of_le_of_lt (le_of_eq heq) (drain_advances (hfin.insert hf) hdue)

/-- `onFrame` on an open core that is not closing. -/
structure Hears (c : ChannelCore) (f : ChannelFrame) (d : ChannelCore) : Prop where
  rcvNext : c.rcvNext ≤ d.rcvNext
  out : ∃ acks frames, d.outbox = c.outbox ++ acks ++ frames ∧
    acks.length = (if f.consumesSeq then 1 else 0) ∧ (∀ b ∈ acks, AcksAll d b) ∧
    frames.length + d.sendQueue.length = c.sendQueue.length
  pending : d.unacked.length + d.sendQueue.length =
    (c.ack f.ackNum).unacked.length + c.sendQueue.length
  total : d.sendNext + d.sendQueue.length = c.sendNext + c.sendQueue.length
  retries : d.retries = (c.ack f.ackNum).retries
  state : d.state = c.state
  closing : d.closing = c.closing
  dead : d.dead = c.dead

theorem Pumps.hears {a : ChannelCore} (ha : a = { c.ack f.ackNum with peerWindow := f.window })
    (h₁ : Delivers a f d) (h₂ : Pumps d e) : Hears c f e := by
  subst ha
  obtain ⟨acks, hout, hlen, hacks⟩ := h₁.out
  obtain ⟨frames, hout', hlen'⟩ := h₂.out
  have hq : d.sendQueue = c.sendQueue := h₁.sendQueue
  have hu : d.unacked = (c.ack f.ackNum).unacked := h₁.unacked
  have hn : d.sendNext = c.sendNext := h₁.sendNext
  have ho : d.outbox = c.outbox ++ acks := hout
  exact
    { rcvNext := by
        rw [h₂.rcvNext]
        exact h₁.rcvNext
      out := by
        refine ⟨acks, frames, by rw [hout', ho], hlen, ?_, by rw [hlen', hq]⟩
        intro b hb
        obtain ⟨g, hbg, hpure, hack⟩ := hacks b hb
        exact ⟨g, hbg, hpure, hack.trans h₂.rcvNext.symm⟩
      pending := by rw [h₂.pending, hu, hq]
      total := by rw [h₂.total, hn, hq]
      retries := h₂.retries.trans h₁.retries
      state := h₂.state.trans h₁.state
      closing := h₂.closing.trans h₁.closing
      dead := h₂.dead.trans h₁.dead }

theorem onFrame_established (hrst : f.has flagRst = false) (hstate : c.state = .established) :
    c.onFrame now f =
      (ChannelCore.deliver now { c.ack f.ackNum with peerWindow := f.window } f).pump := by
  have hstate' : (c.ack f.ackNum).state = .established := hstate
  simp only [ChannelCore.onFrame, hrst, Bool.false_eq_true, if_false, hstate']

theorem onFrame_hears (hrst : f.has flagRst = false) (hf : f.has flagFin = false)
    (hstate : c.state = .established) (hclosing : c.closing = false) (hfin : NoFinBuffered c) :
    Hears c f (c.onFrame now f) := by
  rw [onFrame_established hrst hstate]
  have hd : Delivers { c.ack f.ackNum with peerWindow := f.window } f
      (ChannelCore.deliver now { c.ack f.ackNum with peerWindow := f.window } f) :=
    deliver_delivers hfin hf
  exact (pump_pumps (hd.closing.trans hclosing)).hears rfl hd

/-- The frame a peer waits to see acknowledged is received. -/
theorem onFrame_receives (hrst : f.has flagRst = false) (hf : f.has flagFin = false)
    (hstate : c.state = .established) (hfin : NoFinBuffered c) (hcons : f.consumesSeq = true)
    (htight : Tight c) (hwin : 1 ≤ c.window.toNat) (hseq : f.seq ≤ c.rcvNext) :
    f.seq < (c.onFrame now f).rcvNext := by
  rw [onFrame_established hrst hstate, (pump_recv _).1]
  exact deliver_receives hfin hf hcons htight hwin hseq

/-! ## Retransmission -/

/-- The retransmit loop puts a copy of each frame in flight in the outbox. -/
theorem resend_eq : ∀ (l : List Unacked) (c : ChannelCore),
    l.foldl (fun c u => c.emit u.flags u.seq u.data) c =
      { c with
        outbox := c.outbox ++ l.map fun u =>
          (⟨u.flags, c.rcvNext, c.window, u.seq, u.data⟩ : ChannelFrame).serialize } := by
  intro l
  induction l with
  | nil =>
    intro c
    simp
  | cons u l ih =>
    intro c
    rw [foldl_cons, ih]
    simp [ChannelCore.emit]

/-! ## Every method runs its loops to their end -/

/-- Both loops have run to their end. -/
structure Settled (c : ChannelCore) : Prop where
  tight : Tight c
  pumped : Pumped c

theorem settled_new (window : UInt16) : Settled (ChannelCore.new window) :=
  ⟨rfl, fun _ hqueue => absurd rfl hqueue⟩

theorem Settled.connect (h : Settled c) : Settled c.connect := by
  rw [ChannelCore.connect]
  split
  · exact h
  · exact ⟨h.tight, by rintro ⟨⟩⟩

theorem Settled.sendMessage {msg : Bytes} {fid : Wire.FragmentId} (h : Settled c)
    (hd : c.sendMessage msg fid = some d) : Settled d := by
  obtain ⟨chunks, -, rfl⟩ := Option.map_eq_some_iff.mp hd
  have ht : Tight (c.enqueue chunks) := h.tight
  exact ⟨ht.pump, pumped_pump _⟩

theorem Settled.close (h : Settled c) : Settled c.close := by
  have ht : Tight { c with closing := true } := h.tight
  exact ⟨ht.pump, pumped_pump _⟩

theorem Settled.onTimeout (h : Settled c) : Settled c.onTimeout := by
  rw [ChannelCore.onTimeout]
  split
  · exact h
  · split
    · exact ⟨h.tight, by rintro ⟨⟩⟩
    · rw [resend_eq]
      exact ⟨h.tight, h.pumped⟩

theorem tight_deliver (h : Tight c) : Tight (c.deliver now f) := by
  rw [ChannelCore.deliver]
  split
  · exact h
  · split
    · exact h
    · split
      · exact h
      · exact tight_drain _ _ (le_rfl)

/-- The handshake starts from an empty reorder buffer. -/
theorem Settled.onFrame (h : Settled c)
    (hempty : c.state = .closed ∨ c.state = .synSent → c.recvBuffer = ∅) :
    Settled (c.onFrame now f) := by
  rw [ChannelCore.onFrame]
  have htight : Tight { c.ack f.ackNum with peerWindow := f.window } := h.tight
  have hbuf : { c.ack f.ackNum with peerWindow := f.window }.state = .closed ∨
      { c.ack f.ackNum with peerWindow := f.window }.state = .synSent →
      { c.ack f.ackNum with peerWindow := f.window }.recvBuffer = ∅ := hempty
  generalize { c.ack f.ackNum with peerWindow := f.window } = a at htight hbuf
  split
  · exact ⟨htight, by rintro ⟨⟩⟩
  · split
    · rename_i hstate
      split
      · refine ⟨?_, fun _ _ => append_ne_nil_of_right_ne_nil _ (by simp)⟩
        show a.recvBuffer.lookup (f.seq + 1) = none
        rw [hbuf (.inl hstate), AList.lookup_empty]
      · exact ⟨htight, fun hest => absurd (hest.symm.trans hstate) (by decide)⟩
    · rename_i hstate
      have hsynced : a.recvBuffer.lookup (f.seq + 1) = none := by
        rw [hbuf (.inr hstate), AList.lookup_empty]
      split
      · refine ⟨Tight.pump ?_, pumped_pump _⟩
        exact hsynced
      · split
        · exact ⟨hsynced, fun _ _ => append_ne_nil_of_right_ne_nil _ (by simp)⟩
        · exact ⟨htight, fun hest => absurd (hest.symm.trans hstate) (by decide)⟩
    · exact ⟨(tight_deliver htight).pump, pumped_pump _⟩
    · exact ⟨(tight_deliver htight).pump, pumped_pump _⟩

end Telesthete.Channel
