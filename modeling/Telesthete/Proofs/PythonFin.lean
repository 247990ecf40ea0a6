import Telesthete.Proofs.MixedReliable
import Telesthete.Proofs.PythonWindow

/-!
# A FIN and its answer

What two Python channels do once one of them sent its FIN and nothing else
is in flight. A channel with nothing queued only answers: a frame it has
received before changes nothing but what is kept for retransmission, and a
FIN whose turn it is ends it.

Two phases follow. In `Asked` the FIN is out and kept, and it is the next
frame the other end expects. In `Replied` the other end took it, answered
with a FIN of its own and is torn down, and the answer is the next frame the
closing end expects. Each event keeps the phase or, if it delivers the frame
the phase waits for, ends it.
-/

namespace Telesthete.Python

open Telesthete.Lib Telesthete.Wire Telesthete.Channel List Option

namespace Channel

variable {c d : Channel}
variable {f : ChannelFrame}

/-! ## A channel with nothing queued -/

/-- What frames that bring nothing new leave alone. -/
structure Steady (c d : Channel) : Prop where
  state : d.state = c.state
  closed : d.closed = c.closed
  sndNext : d.sndNext = c.sndNext
  rcvNext : d.rcvNext = c.rcvNext
  sendQueue : d.sendQueue = c.sendQueue

theorem Steady.refl : Steady c c := ⟨rfl, rfl, rfl, rfl, rfl⟩

theorem Steady.trans {e : Channel} (h : Steady c d) (h' : Steady d e) : Steady c e :=
  ⟨h'.state.trans h.state, h'.closed.trans h.closed, h'.sndNext.trans h.sndNext,
    h'.rcvNext.trans h.rcvNext, h'.sendQueue.trans h.sendQueue⟩

theorem pump_of_nil (now : Nat) (h : c.sendQueue = []) : c.pump now = c := by
  rw [pump]
  split
  · rfl
  · rw [h]
    rfl

theorem handleAck_of_nil (now ackNum : Nat) (h : c.sendQueue = []) :
    c.handleAck now ackNum =
      { c with sendBuffer := c.sendBuffer.filter fun p => min ackNum c.sndNext ≤ p.seq } := by
  rw [handleAck]
  split
  · exact pump_of_nil now h
  · next hlen =>
    have hall := length_filter_eq_length_iff.mp
      (le_antisymm (length_filter_le _ _) (not_lt.mp hlen))
    rw [filter_eq_self.mpr hall]

/-- The acknowledgement of a frame, applied. -/
def acked (c : Channel) (f : ChannelFrame) : Channel :=
  { c with
    remoteWindow := f.window
    sendBuffer :=
      if f.has flagAck then c.sendBuffer.filter fun p => min f.ackNum c.sndNext ≤ p.seq
      else c.sendBuffer }

theorem handleFrame_of_nil (now : Nat) (h : c.sendQueue = []) (hrst : f.has flagRst = false) :
    c.handleFrame now f =
      if !f.consumesSeq then c.acked f
      else if f.seq < c.rcvNext then (c.acked f).sendAck
      else if c.rcvNext < f.seq then ((c.acked f).keepEarly f).sendAck
      else (c.acked f).accept now f := by
  have hacked : (if f.has flagAck then { c with remoteWindow := f.window }.handleAck now f.ackNum
      else { c with remoteWindow := f.window }) = c.acked f := by
    rw [acked]
    split
    · exact handleAck_of_nil (c := { c with remoteWindow := f.window }) now f.ackNum h
    · rfl
  rw [handleFrame, if_neg (by rw [hrst]; decide)]
  rw [hacked]
  rfl

theorem steady_acked (c : Channel) (f : ChannelFrame) : Steady c (c.acked f) :=
  ⟨rfl, rfl, rfl, rfl, rfl⟩

/-- A frame without a number of its own, or one that was received before. -/
theorem handleFrame_stale (now : Nat) (h : c.sendQueue = [])
    (hrst : f.has flagRst = false) (hstale : f.consumesSeq = true → f.seq < c.rcvNext) :
    Steady c (c.handleFrame now f) ∧
      (c.handleFrame now f).sendBuffer = (c.acked f).sendBuffer := by
  rw [handleFrame_of_nil now h hrst]
  split
  · exact ⟨steady_acked c f, rfl⟩
  · next hcons =>
    simp only [Bool.not_eq_true', Bool.not_eq_false] at hcons
    rw [if_pos (hstale hcons)]
    exact ⟨⟨rfl, rfl, rfl, rfl, rfl⟩, rfl⟩

/-- A FIN frame. -/
structure IsFin (f : ChannelFrame) : Prop where
  flags : f.flags = flagFin ||| flagAck
  data : f.data = []

theorem IsFin.not_rst (h : IsFin f) : f.has flagRst = false := by
  rw [ChannelFrame.has, h.flags]
  decide

theorem IsFin.consumes (h : IsFin f) : f.consumesSeq = true := by
  simp only [ChannelFrame.consumesSeq, ChannelFrame.has, h.flags, h.data]
  decide

/-- Nothing is waiting behind the frame whose turn it is. -/
theorem drain_of_lookup_none (now : Nat) (acked : Bool) (h : c.recvBuffer.lookup c.rcvNext = none)
    (fuel : Nat) : c.drain now fuel acked = (c, acked) := by
  cases fuel with
  | zero => rfl
  | succ fuel =>
    rw [drain]
    simp only [h]

theorem accept_of_lookup_none (now : Nat) (f : ChannelFrame)
    (h : c.recvBuffer.lookup (c.rcvNext + 1) = none) :
    c.accept now f =
      if ({ c with rcvNext := c.rcvNext + 1 }.processFrame now f.flags f.data).2 then
        ({ c with rcvNext := c.rcvNext + 1 }.processFrame now f.flags f.data).1
      else ({ c with rcvNext := c.rcvNext + 1 }.processFrame now f.flags f.data).1.sendAck := by
  have hsends := processFrame_sends now { c with rcvNext := c.rcvNext + 1 } f.flags f.data
  rw [accept]
  generalize { c with rcvNext := c.rcvNext + 1 }.processFrame now f.flags f.data = r at hsends
  have hnone : r.1.recvBuffer.lookup r.1.rcvNext = none := by
    rw [hsends.rcvNext, hsends.recvBuffer]
    exact h
  rw [drain_of_lookup_none now r.2 hnone]

/-- What a teardown leaves. -/
structure Torn (c : Channel) : Prop where
  state : c.state = .closed
  closed : c.closed = true
  sendBuffer : c.sendBuffer = []
  sendQueue : c.sendQueue = []

theorem handleFrame_fin (now : Nat) (h : c.sendQueue = []) (hf : IsFin f)
    (hseq : f.seq = c.rcvNext) (hnext : c.recvBuffer.lookup (c.rcvNext + 1) = none) :
    c.handleFrame now f =
      if c.state = .finSent then { c.acked f with rcvNext := c.rcvNext + 1 }.teardown.sendAck
      else ({ c.acked f with rcvNext := c.rcvNext + 1 }.transmitConsuming now
        (flagFin ||| flagAck) []).teardown := by
  have hsyn : hasFlag f.flags flagSyn = false := by rw [hf.flags]; decide
  have hfin : hasFlag f.flags flagFin = true := by rw [hf.flags]; decide
  rw [handleFrame_of_nil now h hf.not_rst]
  simp only [hf.consumes, Bool.not_true, Bool.false_eq_true, if_false]
  rw [if_neg (show ¬ f.seq < c.rcvNext by omega), if_neg (show ¬ c.rcvNext < f.seq by omega),
    accept_of_lookup_none (c := c.acked f) now f hnext, processFrame, hsyn, hfin]
  by_cases hstate : c.state = .finSent
  · rw [if_pos hstate, if_pos (show (c.acked f).state = .finSent from hstate)]
    rfl
  · rw [if_neg hstate, if_neg (show ¬ (c.acked f).state = .finSent from hstate)]
    rfl

/-- The answered end is torn down, and its answer took the next number. -/
theorem handleFrame_fin_passive (now : Nat) (h : c.sendQueue = []) (hf : IsFin f)
    (hseq : f.seq = c.rcvNext) (hnext : c.recvBuffer.lookup (c.rcvNext + 1) = none)
    (hstate : c.state ≠ .finSent) :
    Torn (c.handleFrame now f) ∧ (c.handleFrame now f).rcvNext = c.rcvNext + 1 ∧
      (c.handleFrame now f).sndNext = c.sndNext + 1 ∧
      ∃ g : ChannelFrame, g.serialize ∈ (c.handleFrame now f).outbox ∧ IsFin g ∧
        g.seq = c.sndNext ∧ g.ackNum = c.rcvNext + 1 := by
  rw [handleFrame_fin now h hf hseq hnext, if_neg hstate]
  refine ⟨⟨rfl, rfl, rfl, rfl⟩, rfl, rfl, ?_⟩
  refine ⟨⟨flagFin ||| flagAck, c.rcvNext + 1, c.recvWindow, c.sndNext, []⟩, ?_, ⟨rfl, rfl⟩, rfl, rfl⟩
  exact mem_append_right _ (mem_singleton_self _)

theorem handleFrame_fin_active (now : Nat) (h : c.sendQueue = []) (hf : IsFin f)
    (hseq : f.seq = c.rcvNext) (hnext : c.recvBuffer.lookup (c.rcvNext + 1) = none)
    (hstate : c.state = .finSent) : Torn (c.handleFrame now f) := by
  rw [handleFrame_fin now h hf hseq hnext, if_pos hstate]
  exact ⟨rfl, rfl, rfl, rfl⟩

/-! ## The retransmit task -/

theorem steady_mark (c : Channel) (p : Pending) (now : Nat) :
    Steady c ((c.mark p.seq now).transmit p.flags p.seq p.data) :=
  ⟨rfl, rfl, rfl, rfl, rfl⟩

theorem map_entry_mark (c : Channel) (seq now : Nat) :
    (c.mark seq now).sendBuffer.map Pending.entry = c.sendBuffer.map Pending.entry := by
  rw [mark, List.map_map]
  refine map_congr_left fun p _ => ?_
  show Pending.entry (if p.seq = seq then { p with retries := p.retries + 1, sentAt := now } else p) = _
  split <;> rfl

/-- As long as no frame was sent too often, the kept frames stay as they are. -/
theorem resend_spared (now : Nat) : ∀ (kept : List Pending) (c : Channel),
    (∀ p ∈ kept, p.retries < maxRetries) →
      Steady c (Channel.resend now kept c) ∧
        (Channel.resend now kept c).sendBuffer.map Pending.entry = c.sendBuffer.map Pending.entry := by
  intro kept
  induction kept with
  | nil => exact fun c _ => ⟨.refl, rfl⟩
  | cons p rest ih =>
    intro c hkept
    have hp := hkept p mem_cons_self
    have hrest : ∀ p ∈ rest, p.retries < maxRetries := fun p hp => hkept p (mem_cons_of_mem _ hp)
    rw [Channel.resend]
    split
    · rw [if_neg (by omega)]
      obtain ⟨hsteady, hentries⟩ := ih ((c.mark p.seq now).transmit p.flags p.seq p.data) hrest
      exact ⟨(steady_mark c p now).trans hsteady, hentries.trans (map_entry_mark c p.seq now)⟩
    · exact ih c hrest

theorem retransmit_spared {now : Nat} (hspared : ∀ p ∈ c.sendBuffer, p.retries < maxRetries)
    (h : c.retransmit now = some d) :
    Steady c d ∧ d.sendBuffer.map Pending.entry = c.sendBuffer.map Pending.entry := by
  obtain ⟨-, h⟩ := ite_none_left_eq_some.mp h
  split at h
  · cases h
    exact ⟨⟨rfl, rfl, rfl, rfl, rfl⟩, rfl⟩
  · cases h
    exact resend_spared now _ c hspared

/-- `close`, with nothing queued and nothing in flight: the FIN goes out at once. -/
theorem close_of_nil (now : Nat) (hstate : c.state = .established) (hclosing : c.closing = false)
    (hqueue : c.sendQueue = []) (hbuffer : c.sendBuffer = []) (hwindow : c.remoteWindow ≠ 0) :
    c.close now =
      { ({ c with closing := true, sendQueue := [] }.transmitConsuming now (flagFin ||| flagAck) [])
        with state := .finSent } := by
  have hroom : 0 < min windowSize c.remoteWindow.toNat := by
    have hpos : c.remoteWindow.toNat ≠ 0 := fun h => hwindow (UInt16.toNat_inj.mp h)
    unfold windowSize
    omega
  rw [close, if_neg (by simp [hstate, hclosing]), hqueue, pump, if_neg (by simp [hstate])]
  show pumpLoop now 1 _ = _
  rw [pumpLoop]
  simp only [nil_append, hbuffer, length_nil, effectiveWindow]
  rw [if_pos hroom]
  rfl

end Channel

namespace Connection

variable {L L' : Connection} {log : Side → Log} {x z : Side} {seq : Nat}
variable {b answer : Bytes} {ev : Event}

/-- The Python channel at an end. -/
def channel (L : Connection) (x : Side) : Channel :=
  match L.ends x with
  | .python c => c
  | .rust _ => .new

theorem channel_of_ends {c : Channel} (h : L.ends x = .python c) : L.channel x = c := by
  rw [channel, h]

theorem Ample.ends_eq (h : Ample L) (x : Side) : L.ends x = .python (L.channel x) := by
  obtain ⟨c, hc, -⟩ := (h.ends x).exists
  rw [channel_of_ends hc, hc]

theorem channel_act_self (L : Connection) (x : Side) (d : Channel) :
    (L.act x (.python d)).channel x = { d with outbox := [] } :=
  channel_of_ends (Function.update_self ..)

theorem channel_act_of_ne (L : Connection) {x y : Side} (h : y ≠ x) (d : Channel) :
    (L.act x (.python d)).channel y = L.channel y := by
  have hends : (L.act x (.python d)).ends y = L.ends y := Function.update_of_ne h ..
  rw [channel, channel, hends]

theorem mem_emitted_act {y : Side} (e : End) (h : b ∈ L.emitted y) :
    b ∈ (L.act x e).emitted y := by
  show b ∈ Function.update L.emitted x (L.emitted x ++ e.outbox) y
  rcases Side.eq_or_eq_other x y with rfl | rfl
  · rw [Function.update_self]
    exact mem_append_left _ h
  · rw [Function.update_of_ne (Side.other_ne x)]
    exact h

/-- What happens while `close` waits: frames are delivered, the retransmit tasks run. -/
def Event.Waits : Event → Prop
  | .deliver .. | .retransmit .. => True
  | _ => False

theorem Ample.waits_cases (h : Ample L) (hw : ev.Waits) (he : L.exec ev = some L') :
    ∃ z d, L' = L.act z (.python d) ∧
      ((∃ b now f, ev = .deliver z b now ∧ b ∈ L.emitted z.other ∧
          ChannelFrame.parse b = some f ∧ d = (L.channel z).handleFrame now f) ∨
        ∃ now, ev = .retransmit z now ∧ (L.channel z).retransmit now = some d) := by
  cases ev with
  | retransmit z now =>
    obtain ⟨e, hop, rfl⟩ := map_eq_some_iff.mp he
    rw [h.ends_eq z] at hop
    obtain ⟨d, hd, rfl⟩ := map_eq_some_iff.mp hop
    exact ⟨z, d, rfl, .inr ⟨now, rfl, hd⟩⟩
  | deliver z b now =>
    obtain ⟨hb, he⟩ := ite_none_right_eq_some.mp he
    obtain ⟨f, hf, he⟩ := bind_eq_some_iff.mp he
    obtain ⟨e, hop, rfl⟩ := map_eq_some_iff.mp he
    rw [h.ends_eq z] at hop
    cases hop
    exact ⟨z, _, rfl, .inl ⟨b, now, f, rfl, contains_iff_mem.mp hb, hf, rfl⟩⟩
  | connect z now => cases hw
  | sendMessage z msg fid now => cases hw
  | close z now => cases hw
  | closeReturn z => cases hw

/-- The two invariants of a connection of Python channels. -/
structure Sound (L : Connection) : Prop where
  joint : ∃ log, Joint L log
  ample : Ample L

theorem Sound.exec (ev : Event) (h : Sound L) (hfits : L.Fits) (hopens : L.OpensOnce ev)
    (hsends : L.SendsOpen ev) (he : L.exec ev = some L') : Sound L' := by
  obtain ⟨log, hjoint⟩ := h.joint
  obtain ⟨log', hjoint', -⟩ := hjoint.exec hfits hopens hsends he
  exact ⟨⟨log', hjoint'⟩, h.ample.exec he⟩

theorem Sound.waits (h : Sound L) (hfits : L.Fits) (hw : ev.Waits)
    (he : L.exec ev = some L') : Sound L' := by
  have hopens : L.OpensOnce ev := by
    cases ev with
    | connect z now => cases hw
    | _ => trivial
  have hsends : L.SendsOpen ev := by
    cases ev with
    | sendMessage z msg fid now => cases hw
    | _ => trivial
  exact h.exec ev hfits hopens hsends he

/-! ## The frames of an end -/

section frames

variable {y : Side} {b : Bytes} {f : ChannelFrame}

theorem Joint.frame_of (h : Joint L log) (hfits : L.Fits) (hb : b ∈ L.emitted y)
    (hf : ChannelFrame.parse b = some f) : ∃ w, FrameOk (log y) (L.ends y).rcvNext w f := by
  have hframe := h.frame (x := y.other) hfits (by rw [Side.other_other]; exact hb) hf
  rwa [Side.other_other] at hframe

/-- A frame on the network is not a reset, and acknowledges what its sender has
received. If it has a number, it is one the sender used. -/
theorem Sound.frame (h : Sound L) (hfits : L.Fits) (hb : b ∈ L.emitted y)
    (hf : ChannelFrame.parse b = some f) :
    f.has flagRst = false ∧ f.ackNum ≤ (L.channel y).rcvNext ∧
      (f.consumesSeq = true → f.seq < (L.channel y).sndNext) := by
  obtain ⟨log, hjoint⟩ := h.joint
  obtain ⟨w, hok⟩ := hjoint.frame_of hfits hb hf
  have hsaid := (hjoint.speaks y).said
  rw [h.ample.ends_eq y] at hok hsaid
  refine ⟨hok.not_rst_of_kinds hsaid.kinds, hok.ackNum, fun hcons => ?_⟩
  obtain ⟨u, hu, hc⟩ := hok.consumes hcons
  have hlt := hsaid.numbered.seq_lt hu
  rw [hsaid.len, ← hc.2.1] at hlt
  exact hlt

/-- Two frames of one end under one number have the same flags and data. -/
theorem Sound.same_frame (h : Sound L) (hfits : L.Fits) {b' : Bytes} {g : ChannelFrame}
    (hb : b ∈ L.emitted y) (hf : ChannelFrame.parse b = some f)
    (hb' : b' ∈ L.emitted y) (hg : ChannelFrame.parse b' = some g)
    (hcons : f.consumesSeq = true) (hcons' : g.consumesSeq = true) (hseq : f.seq = g.seq) :
    f.flags = g.flags ∧ f.data = g.data := by
  obtain ⟨log, hjoint⟩ := h.joint
  obtain ⟨w, hok⟩ := hjoint.frame_of hfits hb hf
  obtain ⟨w', hok'⟩ := hjoint.frame_of hfits hb' hg
  obtain ⟨u, hu, hc⟩ := hok.consumes hcons
  obtain ⟨v, hv, hc'⟩ := hok'.consumes hcons'
  have hnum := (hjoint.speaks y).said.numbered
  have hget := hnum.getElem?_seq hu
  rw [← hc.2.1, hseq, hc'.2.1, hnum.getElem?_seq hv] at hget
  cases hget
  exact ⟨hc.1.trans hc'.1.symm, hc.2.2.trans hc'.2.2.symm⟩

/-- The frame an end keeps under a number is what its frames with the number say. -/
theorem Sound.kept_frame (h : Sound L) (hfits : L.Fits) {u : Unacked} (hb : b ∈ L.emitted y)
    (hf : ChannelFrame.parse b = some f) (hcons : f.consumesSeq = true)
    (hu : u ∈ (L.channel y).sendBuffer.map Pending.entry) (hseq : f.seq = u.seq) :
    f.flags = u.flags ∧ f.data = u.data := by
  obtain ⟨log, hjoint⟩ := h.joint
  obtain ⟨w, hok⟩ := hjoint.frame_of hfits hb hf
  obtain ⟨v, hv, hc⟩ := hok.consumes hcons
  have hends := hjoint.speaks y
  rw [h.ample.ends_eq y] at hends
  have hspeaks : (L.channel y).Speaks _ _ _ := hends
  obtain ⟨p, hp, rfl⟩ := mem_map.mp hu
  have hnum := hspeaks.said.numbered
  have hget := hnum.getElem?_seq (hspeaks.buffer p hp)
  rw [← hseq, hc.2.1, hnum.getElem?_seq hv] at hget
  cases hget
  exact ⟨hc.1, hc.2.2⟩

end frames

/-- No frame beyond the sender's last is buffered. -/
theorem Sound.lookup_none (h : Sound L) {k : Nat} (hk : (L.channel z.other).sndNext ≤ k) :
    (L.channel z).recvBuffer.lookup k = none := by
  obtain ⟨log, hjoint⟩ := h.joint
  have hhears := hjoint.hears z
  rw [h.ample.ends_eq z] at hhears
  have hhears : (L.channel z).Hears _ := hhears
  have hsaid := (hjoint.speaks z.other).said
  rw [h.ample.ends_eq z.other] at hsaid
  refine eq_none_iff_forall_ne_some.mpr fun v hv => ?_
  obtain ⟨u, hu, hseq, -⟩ := hhears.buffered k v hv
  have hlt := hsaid.numbered.seq_lt hu
  have hlen : (log z.other).length = (L.channel z.other).sndNext := hsaid.len
  omega

/-! ## The phases of a close -/

/-- The end that closes, `c`, sent its FIN under the number `seq` and keeps
it; the other, `d`, has nothing in flight and gets the FIN next. -/
structure Asked (seq : Nat) (c d : Channel) : Prop where
  state : c.state = .finSent
  queue : c.sendQueue = []
  kept : c.sendBuffer.map Pending.entry = [⟨flagFin ||| flagAck, seq, []⟩]
  sndNext : c.sndNext = seq + 1
  otherState : d.state = .established
  otherQueue : d.sendQueue = []
  otherBuffer : d.sendBuffer = []
  due : d.rcvNext = seq
  even : c.rcvNext = d.sndNext

/-- The other end answered with its FIN, under the number `seq`, and is torn
down; `c` gets the answer next. -/
structure Answered (seq : Nat) (c d : Channel) : Prop where
  state : c.state = .finSent
  queue : c.sendQueue = []
  torn : d.Torn
  taken : d.rcvNext = c.sndNext
  due : c.rcvNext = seq
  sndNext : d.sndNext = seq + 1

section phases

variable {c c' d d' : Channel}

theorem Asked.active (h : Asked seq c d) (hs : c.Steady c')
    (hkept : c'.sendBuffer.map Pending.entry = c.sendBuffer.map Pending.entry) : Asked seq c' d :=
  { h with
    state := hs.state.trans h.state
    queue := hs.sendQueue.trans h.queue
    kept := hkept.trans h.kept
    sndNext := hs.sndNext.trans h.sndNext
    even := hs.rcvNext.trans h.even }

theorem Asked.passive (h : Asked seq c d) (hs : d.Steady d') (hbuffer : d'.sendBuffer = []) :
    Asked seq c d' :=
  { h with
    otherState := hs.state.trans h.otherState
    otherQueue := hs.sendQueue.trans h.otherQueue
    otherBuffer := hbuffer
    due := hs.rcvNext.trans h.due
    even := h.even.trans hs.sndNext.symm }

theorem Answered.active (h : Answered seq c d) (hs : c.Steady c') : Answered seq c' d :=
  { h with
    state := hs.state.trans h.state
    queue := hs.sendQueue.trans h.queue
    taken := h.taken.trans hs.sndNext.symm
    due := hs.rcvNext.trans h.due }

theorem Answered.passive (h : Answered seq c d) (hs : d.Steady d') (hbuffer : d'.sendBuffer = []) :
    Answered seq c d' :=
  { h with
    torn := ⟨hs.state.trans h.torn.state, hs.closed.trans h.torn.closed, hbuffer,
      hs.sendQueue.trans h.torn.sendQueue⟩
    taken := hs.rcvNext.trans h.taken
    sndNext := hs.sndNext.trans h.sndNext }

theorem acked_sendBuffer_of_nil {f : ChannelFrame} (h : d.sendBuffer = []) :
    (d.acked f).sendBuffer = [] := by
  show (if f.has flagAck then d.sendBuffer.filter _ else d.sendBuffer) = []
  rw [h]
  split <;> rfl

/-- An acknowledgement of what the other end has taken in leaves the FIN where it is. -/
theorem Asked.acked_sendBuffer {f : ChannelFrame} (h : Asked seq c d) (hack : f.ackNum ≤ seq) :
    (c.acked f).sendBuffer = c.sendBuffer := by
  show (if f.has flagAck then c.sendBuffer.filter _ else c.sendBuffer) = c.sendBuffer
  split
  · refine filter_eq_self.mpr fun p hp => ?_
    have hentry : p.entry = ⟨flagFin ||| flagAck, seq, []⟩ := by
      have hmem := mem_map_of_mem (f := Pending.entry) hp
      rw [h.kept] at hmem
      exact mem_singleton.mp hmem
    have hseq : p.seq = seq := congrArg Unacked.seq hentry
    simp only [decide_eq_true_eq]
    omega
  · rfl

end phases

/-- A FIN went out to `x` under the number `seq`. -/
def Announced (x : Side) (seq : Nat) (b : Bytes) (L : Connection) : Prop :=
  b ∈ L.emitted x.other ∧ ∃ f, ChannelFrame.parse b = some f ∧ Channel.IsFin f ∧ f.seq = seq

/-- The phase in which `x` waits for the answer `b`. -/
def Replied (x : Side) (seq : Nat) (b : Bytes) (L : Connection) : Prop :=
  Answered seq (L.channel x) (L.channel x.other) ∧ Announced x seq b L

theorem Ample.channel_sndNext_lt (h : Ample L) (hfits : L.Fits) (y : Side) :
    (L.channel y).sndNext < 2 ^ 64 := by
  have hlt := hfits y
  rw [h.ends_eq y] at hlt
  exact hlt

/-- The FIN is delivered: it is answered. -/
theorem Asked.delivered {now : Nat} {f : ChannelFrame}
    (h : Asked seq (L.channel x) (L.channel x.other)) (hsound : Sound L) (hfits : L.Fits)
    (hb : b ∈ L.emitted x) (hf : ChannelFrame.parse b = some f) (hcons : f.consumesSeq = true)
    (hseq : f.seq = seq)
    (hL : L' = L.act x.other (.python ((L.channel x.other).handleFrame now f))) :
    ∃ seq' answer, answer ∉ L.emitted x.other ∧ Replied x seq' answer L' := by
  have hfin : Channel.IsFin f := by
    obtain ⟨hflags, hdata⟩ := hsound.kept_frame hfits hb hf hcons
      (by rw [h.kept]; exact mem_singleton_self _) hseq
    exact ⟨hflags, hdata⟩
  have hnext : (L.channel x.other).recvBuffer.lookup ((L.channel x.other).rcvNext + 1) = none := by
    refine hsound.lookup_none (z := x.other) ?_
    rw [Side.other_other, h.sndNext, h.due]
  obtain ⟨htorn, hrcv, hsnd, g, hg, hgfin, hgseq, hgack⟩ :=
    Channel.handleFrame_fin_passive now h.otherQueue hfin (hseq.trans h.due.symm) hnext
      (by rw [h.otherState]; decide)
  have hself := channel_act_self L x.other ((L.channel x.other).handleFrame now f)
  have hother := channel_act_of_ne L (Side.other_ne x).symm ((L.channel x.other).handleFrame now f)
  rw [← hL] at hself hother
  have hparse : ChannelFrame.parse g.serialize = some g := by
    have hx := hsound.ample.channel_sndNext_lt hfits x
    have hy := hsound.ample.channel_sndNext_lt hfits x.other
    rw [h.sndNext] at hx
    refine ChannelFrame.parse_serialize ?_ ?_ ?_
    · rw [hgfin.flags]
      decide
    · rw [hgack, h.due]
      exact hx
    · rw [hgseq]
      exact hy
  refine ⟨(L.channel x).rcvNext, g.serialize, fun hold => ?_, ?_, ?_, g, hparse, hgfin, ?_⟩
  · -- the number of the answer was not used before
    have hlt := (hsound.frame hfits hold hparse).2.2 hgfin.consumes
    omega
  · rw [hself, hother]
    exact
      { state := h.state
        queue := h.queue
        torn := { htorn with }
        taken := by rw [hrcv, h.due, h.sndNext]
        due := rfl
        sndNext := by rw [hsnd, h.even] }
  · rw [hL]
    show g.serialize ∈ Function.update L.emitted x.other _ x.other
    rw [Function.update_self]
    exact mem_append_right _ hg
  · rw [hgseq, h.even]

/-- While the FIN is on its way: nothing changes until it is delivered, and then it is answered. -/
theorem Asked.step (h : Asked seq (L.channel x) (L.channel x.other)) (hsound : Sound L)
    (hfits : L.Fits) (hspared : ∀ y, ∀ p ∈ (L.channel y).sendBuffer, p.retries < maxRetries)
    (hw : ev.Waits) (he : L.exec ev = some L') :
    Asked seq (L'.channel x) (L'.channel x.other) ∨
      ∃ seq' answer, answer ∉ L.emitted x.other ∧ Replied x seq' answer L' := by
  obtain ⟨z, d, rfl, hcase⟩ := hsound.ample.waits_cases hw he
  rcases Side.eq_or_eq_other x z with rfl | rfl
  · left
    rw [channel_act_self, channel_act_of_ne L (Side.other_ne z)]
    rcases hcase with ⟨b, now, f, -, hb, hf, rfl⟩ | ⟨now, -, hd⟩
    · obtain ⟨hrst, hack, hlt⟩ := hsound.frame hfits hb hf
      obtain ⟨hsteady, hbuffer⟩ := Channel.handleFrame_stale now h.queue hrst
        (fun hcons => by rw [h.even]; exact hlt hcons)
      have hkept := h.acked_sendBuffer (f := f) (by rw [← h.due]; exact hack)
      exact { h.active hsteady (by rw [hbuffer, hkept]) with }
    · obtain ⟨hsteady, hkept⟩ := Channel.retransmit_spared (hspared z) hd
      exact { h.active hsteady hkept with }
  · rcases hcase with ⟨b, now, f, -, hb, hf, rfl⟩ | ⟨now, -, hd⟩
    · rw [Side.other_other] at hb
      obtain ⟨hrst, hack, hlt⟩ := hsound.frame hfits hb hf
      by_cases hturn : f.consumesSeq = true ∧ f.seq = seq
      · right
        exact h.delivered hsound hfits hb hf hturn.1 hturn.2 rfl
      · left
        obtain ⟨hsteady, hbuffer⟩ := Channel.handleFrame_stale now h.otherQueue hrst (by
          intro hcons
          have hlt := hlt hcons
          have hne : f.seq ≠ seq := fun heq => hturn ⟨hcons, heq⟩
          rw [h.sndNext] at hlt
          rw [h.due]
          omega)
        rw [channel_act_self, channel_act_of_ne L (Side.other_ne x).symm]
        refine { h.passive hsteady ?_ with }
        rw [hbuffer, acked_sendBuffer_of_nil h.otherBuffer]
    · left
      obtain ⟨hsteady, hkept⟩ := Channel.retransmit_spared (hspared x.other) hd
      rw [h.otherBuffer] at hkept
      rw [channel_act_self, channel_act_of_ne L (Side.other_ne x).symm]
      exact { h.passive hsteady (map_eq_nil_iff.mp hkept) with }

theorem Announced.act {d : Channel} (h : Announced x seq answer L) :
    Announced x seq answer (L.act z (.python d)) :=
  ⟨mem_emitted_act _ h.1, h.2⟩

/-- The answer is delivered: both ends are closed. -/
theorem Replied.delivered {now : Nat} {f : ChannelFrame}
    (h : Replied x seq answer L) (hsound : Sound L) (hfits : L.Fits)
    (hb : b ∈ L.emitted x.other) (hf : ChannelFrame.parse b = some f) (hcons : f.consumesSeq = true) (hseq : f.seq = seq)
    (hL : L' = L.act x (.python ((L.channel x).handleFrame now f))) :
    ∀ y, (L'.channel y).Torn := by
  obtain ⟨h, hb', g, hg, hgfin, hgseq⟩ := h
  have hfin : Channel.IsFin f := by
    obtain ⟨hflags, hdata⟩ := hsound.same_frame hfits hb hf hb' hg hcons hgfin.consumes
      (hseq.trans hgseq.symm)
    exact ⟨hflags.trans hgfin.flags, hdata.trans hgfin.data⟩
  have hnext : (L.channel x).recvBuffer.lookup ((L.channel x).rcvNext + 1) = none := by
    refine hsound.lookup_none ?_
    rw [h.sndNext, h.due]
  have htorn := Channel.handleFrame_fin_active now h.queue hfin (hseq.trans h.due.symm) hnext h.state
  intro y
  rw [hL]
  rcases Side.eq_or_eq_other x y with rfl | rfl
  · rw [channel_act_self]
    exact { htorn with }
  · rw [channel_act_of_ne L (Side.other_ne x)]
    exact h.torn

/-- While the answer is on its way: nothing changes until it is delivered,
and then both ends are closed. -/
theorem Replied.step (h : Replied x seq answer L) (hsound : Sound L) (hfits : L.Fits)
    (hspared : ∀ y, ∀ p ∈ (L.channel y).sendBuffer, p.retries < maxRetries)
    (hw : ev.Waits) (he : L.exec ev = some L') :
    Replied x seq answer L' ∨ ∀ y, (L'.channel y).Torn := by
  obtain ⟨z, d, rfl, hcase⟩ := hsound.ample.waits_cases hw he
  rcases Side.eq_or_eq_other x z with rfl | rfl
  · have hstays : (L.channel z).Steady d → Replied z seq answer (L.act z (.python d)) := by
      intro hsteady
      refine ⟨?_, h.2.act⟩
      rw [channel_act_self, channel_act_of_ne L (Side.other_ne z)]
      exact { h.1.active hsteady with }
    rcases hcase with ⟨b, now, f, -, hb, hf, rfl⟩ | ⟨now, -, hd⟩
    · obtain ⟨hrst, -, hlt⟩ := hsound.frame hfits hb hf
      by_cases hturn : f.consumesSeq = true ∧ f.seq = seq
      · right
        exact h.delivered hsound hfits hb hf hturn.1 hturn.2 rfl
      · left
        refine hstays (Channel.handleFrame_stale now h.1.queue hrst fun hcons => ?_).1
        have hlt := hlt hcons
        have hne : f.seq ≠ seq := fun heq => hturn ⟨hcons, heq⟩
        rw [h.1.sndNext] at hlt
        rw [h.1.due]
        omega
    · exact .inl (hstays (Channel.retransmit_spared (hspared z) hd).1)
  · left
    have hstays : (L.channel x.other).Steady d → d.sendBuffer = [] →
        Replied x seq answer (L.act x.other (.python d)) := by
      intro hsteady hbuffer
      refine ⟨?_, h.2.act⟩
      rw [channel_act_self, channel_act_of_ne L (Side.other_ne x).symm]
      have hnew := h.1.passive hsteady hbuffer
      exact { hnew with torn := ⟨hnew.torn.state, hnew.torn.closed, hnew.torn.sendBuffer,
        hnew.torn.sendQueue⟩ }
    rcases hcase with ⟨b, now, f, -, hb, hf, rfl⟩ | ⟨now, -, hd⟩
    · rw [Side.other_other] at hb
      obtain ⟨hrst, -, hlt⟩ := hsound.frame hfits hb hf
      obtain ⟨hsteady, hbuffer⟩ := Channel.handleFrame_stale now h.1.torn.sendQueue hrst
        (fun hcons => by rw [h.1.taken]; exact hlt hcons)
      refine hstays hsteady ?_
      rw [hbuffer, acked_sendBuffer_of_nil h.1.torn.sendBuffer]
    · obtain ⟨hsteady, hkept⟩ := Channel.retransmit_spared (hspared x.other) hd
      rw [h.1.torn.sendBuffer] at hkept
      exact hstays hsteady (map_eq_nil_iff.mp hkept)

end Connection

end Telesthete.Python
