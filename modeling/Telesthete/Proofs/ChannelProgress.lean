import Mathlib.Algebra.BigOperators.Group.List.Basic
import Telesthete.Lib.Inevitable
import Telesthete.Proofs.ChannelMethods
import Telesthete.Proofs.ChannelReliable

/-!
# An open connection drains

A round is one timeout on each side followed by the delivery of everything
in the outboxes, in any order, until both are empty. Whatever was lost
before, an open connection is drained after as many rounds as there are
frames in flight and chunks queued.

Two measures carry this. Inside a round, `load` counts what is still to be
delivered: a pure ACK weighs 1, a sequenced frame 2 because it is answered
with a pure ACK, and a queued chunk 3 because it may become a sequenced
frame. Every delivery lowers it, so a round ends. From round to round,
`outstanding` counts the frames in flight and the chunks queued. A side with
any of them has retransmitted its oldest frame, and `Due` follows that frame:
it is on its way, or its acknowledgement is, or it has been acknowledged. A
quiet network leaves only the last.

The timeouts are where a core could die. A round in which the oldest frame
is acknowledged resets the retry counter, and a side with nothing in flight
does not count, so below the limit once is below it for ever.
-/

namespace Telesthete.Channel

open Telesthete.Lib Telesthete.Wire List Option

namespace Link

/-- A frame leaves the outbox of one side and arrives at the other. -/
def Transfer (now : Side → Nat → Nat) (L L' : Link) : Prop :=
  ∃ x i b, (L.core x.other).outbox[i]? = some b ∧
    exec now (L.flush x.other i) (.deliver x b) = some L'

/-- Nothing is left to deliver. -/
def Quiet (L : Link) : Prop := ∀ x, (L.core x).outbox = []

/-- `P` holds after a round, in whatever order the frames are delivered. The
two timeouts do not affect each other, so their order does not matter. -/
def Round (now : Side → Nat → Nat) (P : Link → Prop) (L : Link) : Prop :=
  ∃ L₁ L₂, exec now L (.onTimeout .a) = some L₁ ∧ exec now L₁ (.onTimeout .b) = some L₂ ∧
    Inevitably (Transfer now) (fun M => M.Quiet ∧ P M) L₂

/-- Nobody is dead, nothing is queued or in flight, and each side has handed
to its reassembler every chunk the other ever queued. -/
structure Drained (L : Link) : Prop where
  alive : ∀ x, (L.core x).dead = false
  sendQueue : ∀ x, (L.core x).sendQueue = []
  unacked : ∀ x, (L.core x).unacked = []
  fed : ∀ x, (L.core x.other).fed = L.queued x

/-- Frames in flight and chunks queued, on both sides. -/
def outstanding (L : Link) : Nat :=
  (L.core .a).unacked.length + (L.core .a).sendQueue.length +
    ((L.core .b).unacked.length + (L.core .b).sendQueue.length)

end Link

variable {now : Side → Nat → Nat} {L L' M : Link} {x : Side}
variable {d c : ChannelCore} {b : Bytes} {f : ChannelFrame} {i : Nat}

/-! ## What holds of an open connection -/

/-- The loops have run and the network knows every outbox. -/
structure Ready (L : Link) : Prop where
  settled : ∀ x, Settled (L.core x)
  known : ∀ x, ∀ b ∈ (L.core x).outbox, b ∈ L.emitted x

theorem ready_init (window : Side → UInt16) : Ready (Link.init window) :=
  ⟨fun x => settled_new (window x), by simp [Link.init, ChannelCore.new]⟩

theorem Ready.act (h : Ready L) (hd : Settled d) : Ready (L.act x d) where
  settled := by
    intro y
    rcases Side.eq_or_eq_other x y with rfl | rfl
    · simpa [Link.act] using hd
    · simpa [Link.act] using h.settled x.other
  known := by
    intro y b hb
    rcases Side.eq_or_eq_other x y with rfl | rfl
    · simp only [Link.act, Function.update_self] at hb ⊢
      exact mem_append_right _ hb
    · simp only [Link.act, ne_eq, Side.other_ne, not_false_eq_true, Function.update_of_ne] at hb ⊢
      exact h.known x.other b hb

theorem Ready.flush (h : Ready L) (x : Side) (i : Nat) : Ready (L.flush x i) where
  settled := by
    intro y
    rcases Side.eq_or_eq_other x y with rfl | rfl
    · have hs := h.settled y
      simp only [Link.flush, Function.update_self]
      exact ⟨hs.tight, hs.pumped⟩
    · simpa [Link.flush] using h.settled x.other
  known := by
    intro y b hb
    rcases Side.eq_or_eq_other x y with rfl | rfl
    · simp only [Link.flush, Function.update_self] at hb ⊢
      exact h.known y b (mem_of_mem_eraseIdx hb)
    · simp only [Link.flush, ne_eq, Side.other_ne, not_false_eq_true, Function.update_of_ne] at hb ⊢
      exact h.known x.other b hb

theorem Ready.exec {e : Event} {log : Side → Log} {acked : Side → Nat} (h : Ready L)
    (hinv : LinkInv L log acked) (he : Link.exec now L e = some L') : Ready L' := by
  cases e with
  | connect x =>
    obtain ⟨-, ⟨⟩⟩ := ite_none_left_eq_some.mp he
    exact h.act (h.settled x).connect
  | sendMessage x msg fid =>
    obtain ⟨-, hsend⟩ := ite_none_left_eq_some.mp he
    obtain ⟨d, hd, rfl⟩ := map_eq_some_iff.mp hsend
    have h' := h.act (x := x) ((h.settled x).sendMessage hd)
    exact ⟨h'.settled, h'.known⟩
  | close x =>
    obtain ⟨-, ⟨⟩⟩ := ite_none_left_eq_some.mp he
    exact h.act (h.settled x).close
  | onTimeout x =>
    obtain ⟨-, ⟨⟩⟩ := ite_none_left_eq_some.mp he
    exact h.act (h.settled x).onTimeout
  | deliver x frame =>
    obtain ⟨hok, hparse⟩ := ite_none_left_eq_some.mp he
    obtain ⟨hdead, -⟩ := not_or.mp hok
    obtain ⟨f, -, rfl⟩ := map_eq_some_iff.mp hparse
    refine h.act ((h.settled x).onFrame fun hstate => ?_)
    exact ((hinv.half x).idle (by simpa using hdead) hstate).2
  | flush x i =>
    cases he
    exact h.flush x i

theorem Link.Reachable.ready {window : Side → UInt16} (h : Link.Reachable now window L)
    (hfits : L.Fits) : Ready L := by
  induction h with
  | refl => exact ready_init window
  | tail hreach hstep ih =>
    obtain ⟨e, -, he⟩ := hstep
    have hfits' := hfits.of_exec he
    obtain ⟨log, acked, hinv⟩ := Link.Reachable.linkInv hreach hfits'
    exact (ih hfits').exec hinv he

/-- How much of what a live core has sent is acknowledged. -/
def ackedOf (c : ChannelCore) : Nat := c.sendNext - c.unacked.length

/-- Both sides are open, stay open, and will not run out of numbers. -/
structure Open (L : Link) : Prop where
  inv : ∃ log acked, LinkInv L log acked
  ready : Ready L
  state : ∀ x, (L.core x).state = .established
  closing : ∀ x, (L.core x).closing = false
  dead : ∀ x, (L.core x).dead = false
  window : ∀ x, 1 ≤ (L.core x).window.toNat
  total : ∀ x, (L.core x).sendNext + (L.core x).sendQueue.length < 2 ^ 64

theorem Open.fits (h : Open L) : L.Fits := fun x => lt_of_le_of_lt (Nat.le_add_right _ _) (h.total x)

/-- The other side has received at least what was acknowledged and at most
what was sent. -/
theorem Open.ackedOf_le (h : Open L) (x : Side) :
    (L.core x).unacked.length ≤ (L.core x).sendNext ∧
      ackedOf (L.core x) ≤ (L.core x.other).rcvNext ∧
      (L.core x.other).rcvNext ≤ (L.core x).sendNext := by
  obtain ⟨log, acked, hinv⟩ := h.inv
  have hx := hinv.half x
  have hlen := hx.snd.len
  have hle := hx.snd.ackedLe
  have hb := hx.ackedBound
  have hrcv := (hinv.half x.other).rcv.le
  rw [Side.other_other] at hrcv
  have hun : (L.core x).unacked.length = (log x).length - acked x := by
    rw [hx.snd.unacked (h.dead x), length_drop]
  refine ⟨by omega, ?_, by omega⟩
  rw [ackedOf]
  omega

/-- A frame on the network between open sides: it parses, and it is neither
an RST nor a FIN. -/
structure Live (L : Link) (x : Side) (f : ChannelFrame) : Prop where
  notRst : f.has flagRst = false
  notFin : f.has flagFin = false
  ackNum : f.ackNum ≤ (L.core x.other).rcvNext

theorem Open.live (h : Open L) (hb : b ∈ L.emitted x.other)
    (hf : ChannelFrame.parse b = some f) : Live L x f := by
  obtain ⟨log, acked, hinv⟩ := h.inv
  have hok := hinv.input h.fits hb hf
  have hy := hinv.half x.other
  refine ⟨hok.not_rst hy.snd.logOk, ?_, hok.ackNum⟩
  have hnofin := hy.phase.noFin (h.dead x.other) (by rw [h.state]; decide)
  rcases hok.kind with hp | ⟨u, hu, hc⟩
  · rw [ChannelFrame.has, hp.1]
    decide
  · rw [← Bool.not_eq_true, hy.snd.logOk.has_fin hu hc]
    exact hnofin u hu

theorem Open.noFinBuffered (h : Open L) (x : Side) : NoFinBuffered (L.core x) := by
  obtain ⟨log, acked, hinv⟩ := h.inv
  have hnofin := (hinv.half x.other).phase.noFin (h.dead x.other) (by rw [h.state]; decide)
  intro k fr hk
  obtain ⟨-, -, u, hu, -, hc⟩ := (hinv.half x).rcv.buf k fr hk
  rw [← Bool.not_eq_true, (hinv.half x).rcv.logOk.has_fin hu hc]
  exact hnofin u hu

/-- Every frame in an outbox parses. -/
theorem Open.parses (h : Open L) (hb : b ∈ (L.core x).outbox) :
    ∃ f, ChannelFrame.parse b = some f := by
  obtain ⟨log, acked, hinv⟩ := h.inv
  obtain ⟨g, rfl, hg⟩ := (hinv.half x).snd.wire b hb
  exact ⟨_, ChannelFrame.parse_serialize_mod (hg.reserved (hinv.half x).snd.logOk)⟩

/-! ## One delivery -/

/-- A transfer, taken apart: `x` hears the frame `f` that was the `i`-th in
the other outbox. -/
structure Moves (now : Side → Nat → Nat) (L : Link) (x : Side) (i : Nat) (b : Bytes)
    (f : ChannelFrame) (L' : Link) : Prop where
  get : (L.core x.other).outbox[i]? = some b
  parse : ChannelFrame.parse b = some f
  live : Live L x f
  core : L'.core x = (L.core x).onFrame (now x) f
  other : L'.core x.other =
    { L.core x.other with outbox := (L.core x.other).outbox.eraseIdx i }
  hears : Hears (L.core x) f (L'.core x)
  isOpen : Open L'

theorem Open.transfer (h : Open L) (ht : L.Transfer now L') :
    ∃ x i b f, Moves now L x i b f L' := by
  obtain ⟨x, i, b, hget, hexec⟩ := ht
  have hmem : b ∈ (L.core x.other).outbox := mem_of_getElem? hget
  have hknown := h.ready.known x.other b hmem
  obtain ⟨log, acked, hinv⟩ := h.inv
  have hflush : Link.exec now L (.flush x.other i) = some (L.flush x.other i) := rfl
  obtain ⟨log₁, acked₁, hinv₁, -⟩ := hinv.exec h.fits hflush
  have hready₁ := h.ready.exec hinv hflush
  have hsame : (L.flush x.other i).core x = L.core x := by simp [Link.flush]
  have hfits₁ : (L.flush x.other i).Fits := by
    intro y
    have := h.fits y
    rcases Side.eq_or_eq_other x.other y with rfl | rfl <;> simpa [Link.flush] using this
  obtain ⟨log', acked', hinv', -⟩ := hinv₁.exec hfits₁ hexec
  have hready' := hready₁.exec hinv₁ hexec
  obtain ⟨-, hparse⟩ := ite_none_left_eq_some.mp hexec
  obtain ⟨f, hf, rfl⟩ := map_eq_some_iff.mp hparse
  have hlive := h.live hknown hf
  have hhears : Hears (L.core x) f ((L.core x).onFrame (now x) f) :=
    onFrame_hears hlive.notRst hlive.notFin (h.state x) (h.closing x) (h.noFinBuffered x)
  have hcore : ((L.flush x.other i).act x
      (((L.flush x.other i).core x).onFrame (now x) f)).core x = (L.core x).onFrame (now x) f := by
    rw [hsame]
    simp [Link.act]
  have hother : ((L.flush x.other i).act x
      (((L.flush x.other i).core x).onFrame (now x) f)).core x.other =
      { L.core x.other with outbox := (L.core x.other).outbox.eraseIdx i } := by
    simp [Link.act, Link.flush]
  generalize hL' : (L.flush x.other i).act x (((L.flush x.other i).core x).onFrame (now x) f) = L'
    at hinv' hready' hcore hother
  refine ⟨x, i, b, f, hget, hf, hlive, hcore, hother, by rw [hcore]; exact hhears, ?_⟩
  have hwin : (L'.core x).window = (L.core x).window := by
    have hacts : Actions (now x) (some f) (L.core x) _ := onFrame_actions (h.dead x)
    rw [hcore]
    exact hacts.window_eq
  refine ⟨⟨log', acked', hinv'⟩, hready', ?_, ?_, ?_, ?_, ?_⟩
  · intro y
    rcases Side.eq_or_eq_other x y with rfl | rfl
    · rw [hcore, hhears.state, h.state]
    · rw [hother]; exact h.state x.other
  · intro y
    rcases Side.eq_or_eq_other x y with rfl | rfl
    · rw [hcore, hhears.closing, h.closing]
    · rw [hother]; exact h.closing x.other
  · intro y
    rcases Side.eq_or_eq_other x y with rfl | rfl
    · rw [hcore, hhears.dead, h.dead]
    · rw [hother]; exact h.dead x.other
  · intro y
    rcases Side.eq_or_eq_other x y with rfl | rfl
    · rw [hwin]; exact h.window y
    · rw [hother]; exact h.window x.other
  · intro y
    rcases Side.eq_or_eq_other x y with rfl | rfl
    · rw [hcore, hhears.total]; exact h.total y
    · rw [hother]; exact h.total x.other

/-! ## A round ends -/

/-- A sequenced frame is worth its answer and itself. -/
def weight (b : Bytes) : Nat :=
  if (ChannelFrame.parse b).any ChannelFrame.consumesSeq then 2 else 1

/-- What a side still has to say in a round. -/
def load (c : ChannelCore) : Nat := (c.outbox.map weight).sum + 3 * c.sendQueue.length

theorem weight_le (b : Bytes) : weight b ≤ 2 := by
  rw [weight]
  split <;> omega

theorem weight_parsed (hf : ChannelFrame.parse b = some f) :
    weight b = (if f.consumesSeq then 2 else 1) := by
  rw [weight, hf, Option.any_some]

theorem weight_pureAck {g : ChannelFrame} (hg : g.IsPureAck) : weight g.serialize = 1 := by
  have hflags : g.flags &&& reservedMask = 0 := by
    rw [hg.1]
    decide
  rw [weight_parsed (ChannelFrame.parse_serialize_mod hflags)]
  have hp : { g with ackNum := g.ackNum % 2 ^ 64, seq := g.seq % 2 ^ 64 : ChannelFrame }.IsPureAck :=
    hg
  rw [hp.not_consumes]
  rfl

theorem sum_weight_le (l : List Bytes) : (l.map weight).sum ≤ 2 * l.length := by
  induction l with
  | nil => simp
  | cons b l ih =>
    have := weight_le b
    rw [map_cons, sum_cons, length_cons]
    omega

theorem sum_weight_eraseIdx {l : List Bytes} (h : l[i]? = some b) :
    ((l.eraseIdx i).map weight).sum + weight b = (l.map weight).sum := by
  obtain ⟨hi, rfl⟩ := List.getElem?_eq_some_iff.mp h
  have hperm := (getElem_cons_eraseIdx_perm hi).map weight
  rw [← hperm.sum_eq, map_cons, sum_cons, Nat.add_comm]

/-- Hearing a frame costs less than the frame was worth. -/
theorem Hears.load_lt (h : Hears c f d)
    (hf : ChannelFrame.parse b = some f) : load d < load c + weight b := by
  obtain ⟨acks, frames, hout, hlen, hacks, hframes⟩ := h.out
  have hw : (acks.map weight).sum = acks.length := by
    have hmap : acks.map weight = List.replicate acks.length 1 := by
      rw [eq_replicate_iff]
      refine ⟨length_map _, ?_⟩
      intro n hn
      obtain ⟨b', hb', rfl⟩ := mem_map.mp hn
      obtain ⟨g, rfl, hpure, -⟩ := hacks b' hb'
      exact weight_pureAck hpure
    simp [hmap]
  have hle := sum_weight_le frames
  rw [load, load, hout, weight_parsed hf, map_append, map_append, sum_append,
    sum_append, hw, hlen]
  split <;> omega

/-- What is still to be delivered in a round. -/
def Link.load (L : Link) : Nat := Channel.load (L.core .a) + Channel.load (L.core .b)

theorem Link.load_eq (L : Link) (x : Side) :
    L.load = Channel.load (L.core x) + Channel.load (L.core x.other) := by
  cases x with
  | a => rfl
  | b => exact Nat.add_comm _ _

theorem Moves.load_lt (h : Moves now L x i b f L') :
    L'.load < L.load := by
  have h₁ := h.hears.load_lt h.parse
  have h₂ := sum_weight_eraseIdx h.get
  rw [L'.load_eq x, L.load_eq x, h.other]
  simp only [Channel.load] at h₁ h₂ ⊢
  omega

/-! ## The oldest frame in flight is acknowledged -/

/-- The frame numbered `k` that `x` retransmitted is on its way, or its
acknowledgement is, or it has been acknowledged. -/
def Due (k : Nat) (x : Side) (L : Link) : Prop :=
  (k < ackedOf (L.core x) ∧ (L.core x).retries = 0) ∨
  (ackedOf (L.core x) = k ∧
    ((∃ b ∈ (L.core x).outbox, ∃ f, ChannelFrame.parse b = some f ∧ f.seq = k ∧
        f.consumesSeq = true) ∨
      (∃ b ∈ (L.core x.other).outbox, ∃ f, ChannelFrame.parse b = some f ∧ k < f.ackNum)))

/-- An acknowledgement of more than before resets the retry counter. -/
theorem ack_progress {log : Log} {acked n : Nat} (h : Snd log acked c) (halive : c.dead = false) :
    ackedOf (c.ack n) = max (ackedOf c) (min n c.sendNext) ∧
      (ackedOf c < ackedOf (c.ack n) → (c.ack n).retries = 0) ∧
      ((c.ack n).retries = 0 ∨ (c.ack n).retries = c.retries) := by
  have hlen := h.len
  have hle := h.ackedLe
  have hun : c.unacked.length = log.length - acked := by
    rw [h.unacked halive, length_drop]
  have hun' : (c.ack n).unacked.length = log.length - max acked (min n c.sendNext) := by
    rw [(h.ack (n := n)).unacked halive, length_drop]
  have hnext : (c.ack n).sendNext = c.sendNext := rfl
  refine ⟨?_, ?_, ?_⟩
  · rw [ackedOf, ackedOf, hun, hun', hnext]
    omega
  · intro hlt
    rw [ackedOf, ackedOf, hnext] at hlt
    have hne : (c.ack n).unacked.length ≠ c.unacked.length := by
      intro heq
      rw [heq] at hlt
      omega
    exact if_pos hne
  · by_cases hne : (c.ack n).unacked.length ≠ c.unacked.length
    · exact .inl (if_pos hne)
    · exact .inr (if_neg hne)

theorem Hears.ackedOf_eq (h : Hears c f d) :
    ackedOf d = ackedOf (c.ack f.ackNum) := by
  obtain ⟨acks, frames, -, -, -, hframes⟩ := h.out
  have hp := h.pending
  have ht := h.total
  have hnext : (c.ack f.ackNum).sendNext = c.sendNext := rfl
  rw [ackedOf, ackedOf, hnext]
  omega

theorem Hears.mem_outbox (h : Hears c f d) (hb : b ∈ c.outbox) : b ∈ d.outbox := by
  obtain ⟨acks, frames, hout, -⟩ := h.out
  rw [hout]
  exact mem_append_left _ (mem_append_left _ hb)

theorem mem_eraseIdx_or_eq {l : List Bytes} {b b' : Bytes} (hget : l[i]? = some b)
    (hb : b' ∈ l) : b' ∈ l.eraseIdx i ∨ b' = b := by
  obtain ⟨hi, rfl⟩ := List.getElem?_eq_some_iff.mp hget
  have hmem := (getElem_cons_eraseIdx_perm hi).mem_iff.mpr hb
  exact (mem_cons.mp hmem).symm

/-- The side that hears a frame: an acknowledgement of its oldest frame
arrives, or something else does. -/
theorem Due.hearing {k i : Nat} (ho : Open L)
    (h : Moves now L x i b f L') (hdue : Due k x L) : Due k x L' := by
  obtain ⟨log, acked, hinv⟩ := ho.inv
  obtain ⟨hack, hreset, hretries⟩ :=
    ack_progress (n := f.ackNum) (hinv.half x).snd (ho.dead x)
  rw [← h.hears.ackedOf_eq] at hack hreset
  rw [← h.hears.retries] at hreset hretries
  rcases hdue with ⟨hlt, hzero⟩ | ⟨heq, hway⟩
  · refine .inl ⟨by omega, ?_⟩
    rcases hretries with hr | hr
    · exact hr
    · rw [hr, hzero]
  · rcases lt_or_ge k (ackedOf (L'.core x)) with hlt | hge
    · exact .inl ⟨hlt, hreset (by omega)⟩
    · refine .inr ⟨by omega, ?_⟩
      rcases hway with ⟨b', hb', hf'⟩ | ⟨b', hb', f', hf', hk⟩
      · exact .inl ⟨b', h.hears.mem_outbox hb', hf'⟩
      · rw [h.other]
        rcases mem_eraseIdx_or_eq h.get hb' with hb' | rfl
        · exact .inr ⟨b', hb', f', hf', hk⟩
        · obtain rfl : f' = f := Option.some.inj (hf'.symm.trans h.parse)
          have := h.live.ackNum
          have := (ho.ackedOf_le x).2.2
          omega

/-- The side that waits: its oldest frame arrives, and is acknowledged by a
frame that follows, or something else of its does. -/
theorem Due.waiting {k i : Nat} (ho : Open L)
    (h : Moves now L x i b f L') (hdue : Due k x.other L) : Due k x.other L' := by
  have hacked : ackedOf (L'.core x.other) = ackedOf (L.core x.other) := by rw [h.other]; rfl
  have hretries : (L'.core x.other).retries = (L.core x.other).retries := by rw [h.other]
  rw [Due, hacked, hretries, Side.other_other]
  rcases hdue with hdone | ⟨heq, hway⟩
  · exact .inl hdone
  · refine .inr ⟨heq, ?_⟩
    rcases hway with ⟨b', hb', f', hf', hseq, hcons⟩ | ⟨b', hb', hf'⟩
    · rcases mem_eraseIdx_or_eq h.get hb' with hb' | rfl
      · refine .inl ⟨b', ?_, f', hf', hseq, hcons⟩
        rw [h.other]
        exact hb'
      · obtain rfl : f' = f := Option.some.inj (hf'.symm.trans h.parse)
        have hle := (ho.ackedOf_le x.other).2.1
        rw [Side.other_other] at hle
        have hrcv : f'.seq < (L'.core x).rcvNext := by
          rw [h.core]
          exact onFrame_receives h.live.notRst h.live.notFin (ho.state x) (ho.noFinBuffered x)
            hcons (ho.ready.settled x).tight (ho.window x) (by omega)
        obtain ⟨acks, frames, hout, hlen, hacks, -⟩ := h.hears.out
        rw [hcons, if_pos rfl] at hlen
        obtain ⟨a, rfl⟩ := length_eq_one_iff.mp hlen
        obtain ⟨g, rfl, hpure, hgack⟩ := hacks a (mem_singleton.mpr rfl)
        refine .inr ⟨g.serialize, by rw [hout]; simp, _,
          ChannelFrame.parse_serialize_mod (by rw [hpure.1]; decide), ?_⟩
        have htotal := h.isOpen.fits x.other
        have hrcv' := (h.isOpen.ackedOf_le x.other).2.2
        rw [Side.other_other] at hrcv'
        show k < g.ackNum % 2 ^ 64
        rw [hgack, Nat.mod_eq_of_lt (by omega)]
        omega
    · rw [Side.other_other] at hb'
      exact .inr ⟨b', h.hears.mem_outbox hb', hf'⟩

/-! ## A round -/

/-- Frames in flight and chunks queued on one side. -/
def pendingOf (c : ChannelCore) : Nat := c.unacked.length + c.sendQueue.length

/-- Where a side stands in the deliveries of a round that began at `L`: it
waits for the acknowledgement of what was its oldest frame, or it had nothing
to send. -/
structure Follows (L M : Link) (x : Side) : Prop where
  total : (M.core x).sendNext + (M.core x).sendQueue.length =
    (L.core x).sendNext + (L.core x).sendQueue.length
  due : Due (ackedOf (L.core x)) x M ∨
    (pendingOf (M.core x) = 0 ∧ (M.core x).retries < maxRetries)

theorem Follows.moves {y : Side} (h : Follows L M y)
    (ho : Open M) (hm : Moves now M x i b f L') : Follows L L' y := by
  rcases Side.eq_or_eq_other x y with rfl | rfl
  · refine ⟨hm.hears.total.trans h.total, ?_⟩
    rcases h.due with hdue | ⟨hzero, hretries⟩
    · exact .inl (hdue.hearing ho hm)
    · rw [pendingOf] at hzero
      have hnil : (M.core y).unacked = [] := eq_nil_of_length_eq_zero (by omega)
      have hack : ((M.core y).ack f.ackNum).unacked.length = (M.core y).unacked.length := by
        simp [ChannelCore.ack, hnil]
      refine .inr ⟨?_, ?_⟩
      · rw [pendingOf, hm.hears.pending, hack]
        exact hzero
      · have hsame : ((M.core y).ack f.ackNum).retries = (M.core y).retries :=
          if_neg (not_not.mpr hack)
        rw [hm.hears.retries, hsame]
        exact hretries
  · refine ⟨by rw [hm.other]; exact h.total, ?_⟩
    rcases h.due with hdue | hrest
    · exact .inl (hdue.waiting ho hm)
    · rw [hm.other]
      exact .inr hrest

/-- Once the network is quiet the side has fewer frames to go. -/
theorem Follows.quiet (h : Follows L M x) (ho : Open L) (hM : Open M) (hquiet : M.Quiet) :
    (M.core x).retries < maxRetries ∧
      (pendingOf (M.core x) < pendingOf (L.core x) ∨ pendingOf (M.core x) = 0) := by
  have htotal := h.total
  have hL := (ho.ackedOf_le x).1
  have hM' := (hM.ackedOf_le x).1
  rcases h.due with (⟨hlt, hzero⟩ | ⟨-, ⟨b, hb, -⟩ | ⟨b, hb, -⟩⟩) | ⟨hzero, hretries⟩
  · refine ⟨by rw [hzero]; decide, .inl ?_⟩
    simp only [ackedOf] at hlt
    rw [pendingOf, pendingOf]
    omega
  · rw [hquiet] at hb
    exact absurd hb (by simp)
  · rw [hquiet] at hb
    exact absurd hb (by simp)
  · exact ⟨hretries, .inr hzero⟩

/-- A timeout below the retry limit only fills the outbox and counts. -/
theorem onTimeout_eq (hretry : c.retries < maxRetries) :
    c.onTimeout =
      if c.unacked = [] then c
      else
        { c with
          retries := c.retries + 1
          outbox := c.outbox ++ c.unacked.map fun u =>
            (⟨u.flags, c.rcvNext, c.window, u.seq, u.data⟩ : ChannelFrame).serialize } := by
  rw [ChannelCore.onTimeout]
  split
  · rfl
  · rw [if_neg (by omega), resend_eq]

/-- The fields a timeout below the limit leaves alone. -/
structure SameButOutbox (c d : ChannelCore) : Prop where
  state : d.state = c.state
  closing : d.closing = c.closing
  dead : d.dead = c.dead
  window : d.window = c.window
  sendNext : d.sendNext = c.sendNext
  sendQueue : d.sendQueue = c.sendQueue
  unacked : d.unacked = c.unacked

theorem onTimeout_same (hretry : c.retries < maxRetries) :
    SameButOutbox c c.onTimeout := by
  rw [onTimeout_eq hretry]
  split <;> exact ⟨rfl, rfl, rfl, rfl, rfl, rfl, rfl⟩

theorem Open.onTimeout (h : Open L) (hretry : (L.core x).retries < maxRetries) :
    Link.exec now L (.onTimeout x) = some (L.act x (L.core x).onTimeout) ∧
      Open (L.act x (L.core x).onTimeout) := by
  have he : Link.exec now L (.onTimeout x) = some (L.act x (L.core x).onTimeout) := by
    simp [Link.exec, h.dead x]
  refine ⟨he, ?_⟩
  obtain ⟨log, acked, hinv⟩ := h.inv
  obtain ⟨log', acked', hinv', -⟩ := hinv.exec h.fits he
  have hready' := h.ready.exec hinv he
  have hs := onTimeout_same hretry
  have hx : (L.act x (L.core x).onTimeout).core x = (L.core x).onTimeout := by simp [Link.act]
  have hy : (L.act x (L.core x).onTimeout).core x.other = L.core x.other := by simp [Link.act]
  generalize L.act x (L.core x).onTimeout = M at hinv' hready' hx hy
  refine ⟨⟨log', acked', hinv'⟩, hready', ?_, ?_, ?_, ?_, ?_⟩ <;> intro y <;>
    rcases Side.eq_or_eq_other x y with rfl | rfl
  · rw [hx, hs.state]; exact h.state y
  · rw [hy]; exact h.state x.other
  · rw [hx, hs.closing]; exact h.closing y
  · rw [hy]; exact h.closing x.other
  · rw [hx, hs.dead]; exact h.dead y
  · rw [hy]; exact h.dead x.other
  · rw [hx, hs.window]; exact h.window y
  · rw [hy]; exact h.window x.other
  · rw [hx, hs.sendNext, hs.sendQueue]; exact h.total y
  · rw [hy]; exact h.total x.other

/-- After its timeout a side has its oldest frame in the outbox, if it has
any frame in flight. -/
theorem Open.follows_timeout (h : Open L) (hretry : (L.core x).retries < maxRetries)
    (hM : M.core x = (L.core x).onTimeout) : Follows L M x := by
  have hs := onTimeout_same hretry
  refine ⟨by rw [hM, hs.sendNext, hs.sendQueue], ?_⟩
  by_cases hnil : (L.core x).unacked = []
  · have hqueue : (L.core x).sendQueue = [] := by
      by_contra hne
      exact (h.ready.settled x).pumped (h.state x) hne hnil
    have hsame : (L.core x).onTimeout = L.core x := by
      rw [onTimeout_eq hretry, if_pos hnil]
    rw [hM, hsame]
    exact .inr ⟨by simp [pendingOf, hnil, hqueue], hretry⟩
  · refine .inl (.inr ⟨?_, .inl ?_⟩)
    · rw [ackedOf, ackedOf, hM, hs.sendNext, hs.unacked]
    · obtain ⟨log, acked, hinv⟩ := h.inv
      have hx := hinv.half x
      have hun := hx.snd.unacked (h.dead x)
      obtain ⟨u, rest, hcons⟩ := exists_cons_of_ne_nil hnil
      have hget : (log x)[acked x]? = some u := by
        have h0 : ((log x).drop (acked x))[0]? = some u := by rw [← hun, hcons]; rfl
        simpa using h0
      have hmem : u ∈ log x := mem_of_getElem? hget
      have hseq : u.seq = acked x := hx.snd.logOk.numbered _ _ hget
      have hlt := hx.snd.logOk.numbered.seq_lt hmem
      have hlen := hx.snd.len
      have hacked : ackedOf (L.core x) = acked x := by
        rw [ackedOf, hun, length_drop, ← hlen]
        omega
      have hrcv := (h.ackedOf_le x.other).2.2
      rw [Side.other_other] at hrcv
      have hfx := h.fits x
      have hfy := h.fits x.other
      have hok : FrameOk (log x) (L.core x).rcvNext (L.core x).window
          ⟨u.flags, (L.core x).rcvNext, (L.core x).window, u.seq, u.data⟩ :=
        ⟨le_rfl, le_of_lt hlt, rfl, .inr ⟨u, hmem, rfl, rfl, rfl⟩⟩
      refine ⟨ChannelFrame.serialize _, ?_, _,
        ChannelFrame.parse_serialize (hok.reserved hx.snd.logOk) (by show (L.core x).rcvNext < _; omega)
          (by show u.seq < _; omega), hseq.trans hacked.symm,
        hx.snd.logOk.consumes hmem ⟨rfl, rfl, rfl⟩⟩
      rw [hM, onTimeout_eq hretry, if_neg hnil]
      refine mem_append_right _ (mem_map.mpr ⟨u, ?_, rfl⟩)
      rw [hcons]
      exact mem_cons_self

/-- In an open connection every frame in an outbox can be delivered. -/
theorem Open.can_transfer (h : Open L) (hquiet : ¬ L.Quiet) : ∃ L', L.Transfer now L' := by
  obtain ⟨y, hy⟩ := not_forall.mp hquiet
  obtain ⟨b, rest, hcons⟩ := exists_cons_of_ne_nil hy
  obtain ⟨f, hf⟩ := h.parses (x := y) (b := b) (by rw [hcons]; exact mem_cons_self)
  have hknown := h.ready.known y b (by rw [hcons]; exact mem_cons_self)
  have hdead : ((L.flush y 0).core y.other).dead = false := by
    simpa [Link.flush] using h.dead y.other
  have hexec : ∃ L', Link.exec now (L.flush y 0) (.deliver y.other b) = some L' := by
    have hknown' : b ∈ (L.flush y 0).emitted y := hknown
    simp [Link.exec, hdead, hknown', hf]
  obtain ⟨L', hL'⟩ := hexec
  refine ⟨L', y.other, 0, b, ?_, ?_⟩
  · rw [Side.other_other, hcons]
    rfl
  · rw [Side.other_other]
    exact hL'

/-- Open, and no side close to giving up. -/
structure Healthy (L : Link) : Prop where
  isOpen : Open L
  retries : ∀ x, (L.core x).retries < maxRetries

/-- One round takes a healthy connection to a healthy one with less
outstanding. -/
theorem Healthy.round (h : Healthy L) :
    L.Round now fun M => Healthy M ∧ M.outstanding ≤ L.outstanding - 1 := by
  obtain ⟨he₁, ho₁⟩ : Link.exec now L (.onTimeout .a) = some _ ∧ Open _ :=
    h.isOpen.onTimeout (h.retries .a)
  have hb : (L.act .a (L.core .a).onTimeout).core .b = L.core .b := by simp [Link.act]
  obtain ⟨he₂, ho₂⟩ : Link.exec now _ (.onTimeout .b) = some _ ∧ Open _ :=
    ho₁.onTimeout (by rw [hb]; exact h.retries .b)
  refine ⟨_, _, he₁, he₂, ?_⟩
  rw [hb] at ho₂ ⊢
  have hfollows : ∀ x, Follows L ((L.act .a (L.core .a).onTimeout).act .b (L.core .b).onTimeout) x := by
    intro x
    refine h.isOpen.follows_timeout (h.retries x) ?_
    cases x with
    | a => simp [Link.act]
    | b => simp [Link.act]
  refine Inevitably.of_measure (fun M => Open M ∧ ∀ x, Follows L M x) Link.load ?_ ?_ ⟨ho₂, hfollows⟩
  · rintro M ⟨hM, hfol⟩ hnot
    refine hM.can_transfer fun hquiet => hnot ⟨hquiet, ?_⟩
    have ha := (hfol .a).quiet h.isOpen hM hquiet
    have hb := (hfol .b).quiet h.isOpen hM hquiet
    refine ⟨⟨hM, fun x => ((hfol x).quiet h.isOpen hM hquiet).1⟩, ?_⟩
    simp only [pendingOf] at ha hb
    rw [Link.outstanding, Link.outstanding]
    omega
  · rintro M M' ⟨hM, hfol⟩ ht
    obtain ⟨x, i, b, f, hm⟩ := hM.transfer ht
    exact ⟨⟨hm.isOpen, fun y => (hfol y).moves hM hm⟩, hm.load_lt⟩

/-- With nothing outstanding everything queued was received. -/
theorem Open.drained (h : Open L) (hzero : L.outstanding = 0) : L.Drained := by
  obtain ⟨log, acked, hinv⟩ := h.inv
  rw [Link.outstanding] at hzero
  have hqueue : ∀ x, (L.core x).sendQueue = [] := by
    intro x
    cases x <;> exact eq_nil_of_length_eq_zero (by omega)
  have hun : ∀ x, (L.core x).unacked = [] := by
    intro x
    cases x <;> exact eq_nil_of_length_eq_zero (by omega)
  refine ⟨h.dead, hqueue, hun, fun x => ?_⟩
  obtain ⟨-, hle, hge⟩ := h.ackedOf_le x
  have hrcv : (L.core x.other).rcvNext = (log x).length := by
    rw [ackedOf, hun x, length_nil] at hle
    have := (hinv.half x).snd.len
    omega
  have hfed := (hinv.half x.other).rcv.fed
  rw [Side.other_other, hrcv, take_length] at hfed
  rw [hfed, ← (hinv.half x).queue.eq (h.dead x), hqueue x, append_nil]

theorem Link.Round.mono {P Q : Link → Prop} (h : L.Round now P) (hPQ : ∀ M, P M → Q M) :
    L.Round now Q := by
  obtain ⟨L₁, L₂, h₁, h₂, hin⟩ := h
  exact ⟨L₁, L₂, h₁, h₂, hin.mono fun M hM => ⟨hM.1, hPQ M hM.2⟩⟩

theorem Healthy.rounds : ∀ (n : Nat) (L : Link), Healthy L → L.outstanding ≤ n →
    (Link.Round now)^[n] Link.Drained L := by
  intro n
  induction n with
  | zero => exact fun L h hn => h.isOpen.drained (Nat.le_zero.mp hn)
  | succ n ih =>
    intro L h hn
    rw [Function.iterate_succ_apply']
    refine h.round.mono fun M hM => ih M hM.1 ?_
    have := hM.2
    omega

/-- Whatever was lost before, an open connection in which neither side is
closing, dead or about to give up is drained after finitely many rounds, one
for each frame in flight and each chunk queued. A dead core takes no event,
so a core that is alive at the end never died on the way. -/
theorem drained_after_rounds {window : Side → UInt16} (hreach : Link.Reachable now window L)
    (hwindow : ∀ x, 1 ≤ (window x).toNat) (hstate : ∀ x, (L.core x).state = .established)
    (hclosing : ∀ x, (L.core x).closing = false) (hdead : ∀ x, (L.core x).dead = false)
    (hretries : ∀ x, (L.core x).retries < maxRetries)
    (hfits : ∀ x, (L.core x).sendNext + (L.core x).sendQueue.length < 2 ^ 64) :
    (Link.Round now)^[L.outstanding] Link.Drained L := by
  have hfits' : L.Fits := fun x => lt_of_le_of_lt (Nat.le_add_right _ _) (hfits x)
  refine Healthy.rounds _ L ⟨?_, hretries⟩ (le_rfl)
  exact
    { inv := hreach.linkInv hfits'
      ready := hreach.ready hfits'
      state := hstate
      closing := hclosing
      dead := hdead
      window := fun x => by rw [hreach.window_eq x]; exact hwindow x
      total := hfits }

/-- An open connection that has lost the ACK that completed its handshake and
the chunk that followed it. -/
def stalled : Option Link :=
  play (Link.exec fun _ _ => 0) (fun _ _ => true) (Link.init fun _ => 1)
    [fun _ => .connect .a, Link.pass .b 0, Link.pass .a 0,
     fun _ => .sendMessage .a [1] (List.Vector.replicate 16 1),
     fun _ => .flush .a 2, fun _ => .flush .a 1]

theorem drained_after_rounds_stalled : ∃ L, stalled = some L ∧ L.outstanding = 2 ∧
    (Link.Round fun _ _ => 0)^[L.outstanding] Link.Drained L := by
  refine exists_some (fun L => L.outstanding = 2 ∧
    ∀ x, (L.core x).state = .established ∧ (L.core x).closing = false ∧
      (L.core x).dead = false ∧ (L.core x).retries < maxRetries ∧
      (L.core x).sendNext + (L.core x).sendQueue.length < 2 ^ 64) (by decide +kernel) ?_
  rintro L hL ⟨hout, hside⟩
  refine ⟨hout, ?_⟩
  exact drained_after_rounds (Link.reachable_play hL) (fun _ => by decide)
    (fun x => (hside x).1) (fun x => (hside x).2.1) (fun x => (hside x).2.2.1)
    (fun x => (hside x).2.2.2.1) (fun x => (hside x).2.2.2.2)

end Telesthete.Channel
