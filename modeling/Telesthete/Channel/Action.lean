import Mathlib.Logic.Relation
import Telesthete.Channel.Link

/-!
# The atomic actions a core is made of

The methods of a core share their parts: every one of them ends in the send
loop, and `onFrame` runs an acknowledgement, a handshake transition or the
drain loop before it. Proving an invariant method by method would repeat the
argument for each shared part, and would have to say what holds in the
middle of a loop.

Here the methods are cut into `Action`s, the smallest changes after which
the core is in a state one can talk about: one frame assigned a sequence
number, one frame retransmitted, one acknowledgement applied, one frame
buffered, one drained. Every method is a sequence of actions of a live core,
so an invariant is proved once per action and holds after every method. The
loops disappear here and are never opened again.

`exec_cases` says the same of a connection: an event is a sequence of
actions of one side, possibly after queueing the chunks of a message, or a
frame leaving an outbox.
-/

namespace Telesthete.Channel

open Telesthete.Lib Telesthete.Wire Option

/-- One atomic change of a core. `inp` is the frame being processed, if any. -/
inductive Action (now : Nat → Nat) (inp : Option ChannelFrame) : ChannelCore → ChannelCore → Prop
  | syn {c} (hstate : c.state = .closed) :
      Action now inp c ({ c with state := .synSent }.emitNext flagSyn [])
  | chunk {c data rest} (hstate : c.state = .established) (hqueue : c.sendQueue = data :: rest) :
      Action now inp c ({ c with sendQueue := rest }.emitNext flagAck data)
  | fin {c} (hstate : c.state = .established) (hclosing : c.closing = true)
      (hqueue : c.sendQueue = []) :
      Action now inp c
        { c.emitNext (flagFin ||| flagAck) [] with state := .finSent, closing := false }
  | closing {c} : Action now inp c { c with closing := true }
  | retry {c} (hretry : c.retries < maxRetries) :
      Action now inp c { c with retries := c.retries + 1 }
  | resend {c u} (hu : u ∈ c.unacked) : Action now inp c (c.emit u.flags u.seq u.data)
  | exhausted {c} (hretry : maxRetries ≤ c.retries) (hun : c.unacked ≠ []) :
      Action now inp c c.teardown
  | ack {c f} (hinp : inp = some f) :
      Action now inp c { c.ack f.ackNum with peerWindow := f.window }
  | rst {c f} (hinp : inp = some f) (hrst : f.has flagRst = true) :
      Action now inp c { c with peerClosed := true }.teardown
  | respond {c f} (hinp : inp = some f) (hstate : c.state = .closed ∨ c.state = .synSent)
      (hsyn : f.has flagSyn = true) :
      Action now inp c
        ({ c with rcvNext := f.seq + 1, state := .established, justEstablished := true }.emitNext
          (flagSyn ||| flagAck) [])
  | opened {c f} (hinp : inp = some f) (hstate : c.state = .synSent)
      (hsyn : f.has flagSyn = true) :
      Action now inp c
        { c with rcvNext := f.seq + 1, state := .established, justEstablished := true }.emitPureAck
  | pureAck {c} (hstate : c.state = .established ∨ c.state = .finSent) :
      Action now inp c c.emitPureAck
  | buffer {c f} (hinp : inp = some f) (hstate : c.state = .established ∨ c.state = .finSent)
      (hcons : f.consumesSeq = true) (hge : c.rcvNext ≤ f.seq)
      (hwin : f.seq < c.rcvNext + c.window.toNat) :
      Action now inp c { c with recvBuffer := c.recvBuffer.insert f.seq f }
  | consume {c fr} (hstate : c.state = .established ∨ c.state = .finSent)
      (hdue : c.recvBuffer.lookup c.rcvNext = some fr) :
      Action now inp c (c.consume now fr)

/-- A sequence of actions, each of a live core. -/
abbrev Actions (now : Nat → Nat) (inp : Option ChannelFrame) : ChannelCore → ChannelCore → Prop :=
  Relation.ReflTransGen fun c d => c.dead = false ∧ Action now inp c d

section methods

variable {now : Nat → Nat} {inp : Option ChannelFrame} {c : ChannelCore}
variable {d : ChannelCore}

theorem Actions.head {d e : ChannelCore} (halive : c.dead = false) (h : Action now inp c d)
    (hs : Actions now inp d e) : Actions now inp c e :=
  Relation.ReflTransGen.head ⟨halive, h⟩ hs

theorem Action.single (halive : c.dead = false) (h : Action now inp c d) :
    Actions now inp c d :=
  Relation.ReflTransGen.single ⟨halive, h⟩

/-- What every pass of the data loop keeps holds where the loop stops. -/
theorem pumpData_rule {limit : Nat} {P : ChannelCore → Prop}
    (hpass : ∀ c data rest, P c → c.sendQueue = data :: rest → c.unacked.length < limit →
      P ({ c with sendQueue := rest }.emitNext flagAck data)) :
    ∀ (fuel : Nat) (c : ChannelCore), P c → P (ChannelCore.pumpData limit fuel c) := by
  intro fuel
  induction fuel with
  | zero => exact fun c h => h
  | succ n ih =>
    intro c h
    rw [ChannelCore.pumpData]
    split
    · exact h
    · rename_i data rest hqueue
      split
      · rename_i hroom
        exact ih _ (hpass c data rest h hqueue hroom)
      · exact h

/-- The data loop touches nothing the tests of `pump` read, other than the
queues. -/
theorem pumpData_actions (limit fuel : Nat) (halive : c.dead = false)
    (hstate : c.state = .established) :
    Actions now inp c (ChannelCore.pumpData limit fuel c) ∧
      (ChannelCore.pumpData limit fuel c).dead = false ∧
      (ChannelCore.pumpData limit fuel c).state = .established := by
  refine pumpData_rule (P := fun d => Actions now inp c d ∧ d.dead = false ∧
    d.state = .established) ?_ fuel c ⟨.refl, halive, hstate⟩
  intro d data rest h hqueue _
  exact ⟨h.1.tail ⟨h.2.1, .chunk h.2.2 hqueue⟩, h.2⟩

theorem pump_actions (halive : c.dead = false) : Actions now inp c c.pump := by
  rw [ChannelCore.pump]
  split
  · exact .refl
  · rename_i hstate
    simp only [ne_eq, Decidable.not_not] at hstate
    have hloop : Actions now inp c _ ∧ _ := pumpData_actions (max c.peerWindow.toNat 1)
      c.sendQueue.length halive hstate
    simp only
    split
    · rename_i hfin
      simp only [Bool.and_eq_true, decide_eq_true_eq, List.isEmpty_iff] at hfin
      exact hloop.1.tail ⟨hloop.2.1, .fin hloop.2.2 hfin.1.1 hfin.1.2⟩
    · exact hloop.1

theorem connect_actions (halive : c.dead = false) : Actions now inp c c.connect := by
  rw [ChannelCore.connect]
  split
  · exact .refl
  · rename_i hstate
    simp only [ne_eq, Decidable.not_not] at hstate
    exact (Action.syn hstate).single halive

theorem close_actions (halive : c.dead = false) : Actions now inp c c.close :=
  .head halive .closing (pump_actions halive)

theorem resend_actions : ∀ (l : List Unacked) (c : ChannelCore), c.dead = false →
    (∀ u ∈ l, u ∈ c.unacked) →
    Actions now inp c (l.foldl (fun c u => c.emit u.flags u.seq u.data) c) := by
  intro l
  induction l with
  | nil => exact fun c _ _ => .refl
  | cons u l ih =>
    intro c halive hl
    refine .head halive (.resend (hl u List.mem_cons_self)) (ih _ halive ?_)
    exact fun v hv => hl v (List.mem_cons_of_mem _ hv)

theorem onTimeout_actions (halive : c.dead = false) : Actions now inp c c.onTimeout := by
  rw [ChannelCore.onTimeout]
  split
  · exact .refl
  · rename_i hun
    split
    · rename_i hretry
      exact (Action.exhausted hretry hun).single halive
    · rename_i hretry
      exact .head halive (.retry (by omega)) (resend_actions _ _ halive fun u hu => hu)

/-- What draining one frame moves and what it leaves as it was. -/
structure Consumes (c d : ChannelCore) : Prop where
  rcvNext : d.rcvNext = c.rcvNext + 1
  recvBuffer : d.recvBuffer = c.recvBuffer.erase c.rcvNext
  window : d.window = c.window
  sendQueue : d.sendQueue = c.sendQueue
  sendNext_le : c.sendNext ≤ d.sendNext
  dead : d.dead = c.dead
  state : c.state = .established ∨ c.state = .finSent →
    d.state = .established ∨ d.state = .finSent

theorem consume_consumes (now : Nat → Nat) (c : ChannelCore) (fr : ChannelFrame) :
    Consumes c (c.consume now fr) := by
  rw [ChannelCore.consume]
  simp only
  split
  · split
    · exact ⟨rfl, rfl, rfl, rfl, Nat.le_succ _, rfl, fun _ => .inr rfl⟩
    · exact ⟨rfl, rfl, rfl, rfl, le_rfl, rfl, id⟩
  · split <;> exact ⟨rfl, rfl, rfl, rfl, le_rfl, rfl, id⟩

/-- What every pass of the drain loop keeps holds where the loop stops. -/
theorem drain_rule {P : ChannelCore → Prop}
    (hpass : ∀ c fr, P c → c.recvBuffer.lookup c.rcvNext = some fr → P (c.consume now fr)) :
    ∀ (fuel : Nat) (c : ChannelCore), P c → P (c.drain now fuel) := by
  intro fuel
  induction fuel with
  | zero => exact fun c h => h
  | succ n ih =>
    intro c h
    rw [ChannelCore.drain]
    split
    · exact h
    · rename_i fr hdue
      exact ih _ (hpass c fr h hdue)

theorem drain_actions (fuel : Nat) (halive : c.dead = false)
    (hstate : c.state = .established ∨ c.state = .finSent) :
    Actions now inp c (c.drain now fuel) ∧ (c.drain now fuel).dead = false ∧
      ((c.drain now fuel).state = .established ∨ (c.drain now fuel).state = .finSent) := by
  refine drain_rule (P := fun d => Actions now inp c d ∧ d.dead = false ∧
    (d.state = .established ∨ d.state = .finSent)) ?_ fuel c ⟨.refl, halive, hstate⟩
  intro d fr h hdue
  have hd := consume_consumes now d fr
  exact ⟨h.1.tail ⟨h.2.1, .consume h.2.2 hdue⟩, hd.dead.trans h.2.1, hd.state h.2.2⟩

theorem deliver_actions {f : ChannelFrame} (halive : c.dead = false)
    (hstate : c.state = .established ∨ c.state = .finSent) :
    Actions now (some f) c (c.deliver now f) ∧ (c.deliver now f).dead = false := by
  rw [ChannelCore.deliver]
  split
  · exact ⟨.refl, halive⟩
  · rename_i hcons
    simp only [Bool.not_eq_true', Bool.not_eq_false] at hcons
    split
    · exact ⟨(Action.pureAck hstate).single halive, halive⟩
    · rename_i hfresh
      split
      · exact ⟨(Action.pureAck hstate).single halive, halive⟩
      · have hbuffer : Action now (some f) c { c with recvBuffer := c.recvBuffer.insert f.seq f } :=
          .buffer rfl hstate hcons (by omega) (by omega)
        have hdrain : Actions now (some f) { c with recvBuffer := c.recvBuffer.insert f.seq f } _ ∧
          _ := drain_actions (c.recvBuffer.insert f.seq f).entries.length halive hstate
        exact ⟨.head halive hbuffer (hdrain.1.tail ⟨hdrain.2.1, .pureAck hdrain.2.2⟩), hdrain.2.1⟩

theorem onFrame_actions {f : ChannelFrame} (halive : c.dead = false) :
    Actions now (some f) c (c.onFrame now f) := by
  rw [ChannelCore.onFrame]
  refine .head halive (.ack rfl) ?_
  have hd : { c.ack f.ackNum with peerWindow := f.window }.dead = false := halive
  generalize { c.ack f.ackNum with peerWindow := f.window } = d at hd
  split
  · rename_i hrst
    exact (Action.rst rfl hrst).single hd
  · split
    · rename_i hstate
      split
      · rename_i hsyn
        exact (Action.respond rfl (.inl hstate) hsyn).single hd
      · exact .refl
    · rename_i hstate
      split
      · rename_i hsyn
        simp only [Bool.and_eq_true] at hsyn
        exact .head hd (.opened rfl hstate hsyn.1) (pump_actions hd)
      · split
        · rename_i hsyn
          exact (Action.respond rfl (.inr hstate) hsyn).single hd
        · exact .refl
    · rename_i hstate
      obtain ⟨hdeliver, hdead⟩ := deliver_actions (f := f) hd (.inl hstate)
      exact hdeliver.trans (pump_actions hdead)
    · rename_i hstate
      obtain ⟨hdeliver, hdead⟩ := deliver_actions (f := f) hd (.inr hstate)
      exact hdeliver.trans (pump_actions hdead)

theorem Action.window_eq (h : Action now inp c d) : d.window = c.window := by
  cases h with
  | consume _ _ => exact (consume_consumes now c _).window
  | _ => rfl

theorem Action.sendNext_le (h : Action now inp c d) :
    c.sendNext ≤ d.sendNext := by
  cases h with
  | consume _ _ => exact (consume_consumes now c _).sendNext_le
  | syn _ | chunk _ _ | fin _ _ _ | respond _ _ _ => exact Nat.le_succ _
  | _ => exact le_rfl

theorem Actions.window_eq (h : Actions now inp c d) : d.window = c.window := by
  induction h with
  | refl => rfl
  | tail _ hlast ih => exact hlast.2.window_eq.trans ih

theorem Actions.sendNext_le (h : Actions now inp c d) :
    c.sendNext ≤ d.sendNext := by
  induction h with
  | refl => exact le_rfl
  | tail _ hlast ih => exact le_trans ih hlast.2.sendNext_le

theorem sendMessage_actions {msg : Bytes} {fid : FragmentId}
    (halive : c.dead = false) (h : c.sendMessage msg fid = some d) :
    ∃ chunks, fragment msg Wire.maxChunkPayload fid = some chunks ∧
      Actions now inp (c.enqueue chunks) d := by
  obtain ⟨chunks, hchunks, rfl⟩ := map_eq_some_iff.mp h
  exact ⟨chunks, hchunks, pump_actions halive⟩

end methods

/-- A live side of a connection acts, on a frame of the network or on none. -/
structure Link.Acts (now : Side → Nat → Nat) (L : Link) (x : Side) (c : ChannelCore)
    (inp : Option ChannelFrame) (d : ChannelCore) : Prop where
  alive : (L.core x).dead = false
  input : ∀ f, inp = some f → ∃ b ∈ L.emitted x.other, ChannelFrame.parse b = some f
  actions : Actions (now x) inp c d

/-- What an event can do to a connection. -/
theorem Link.exec_cases {now : Side → Nat → Nat} {L L' : Link} {e : Event}
    (h : exec now L e = some L') :
    (∃ x inp d, L.Acts now x (L.core x) inp d ∧ L' = L.act x d) ∨
    (∃ x msg fid chunks d, fragment msg Wire.maxChunkPayload fid = some chunks ∧
      L.Acts now x ((L.core x).enqueue chunks) none d ∧ L' = (L.act x d).record x (fid, msg)) ∨
    (∃ x i, L' = L.flush x i) := by
  have hnone : ∀ (x : Side) (f : ChannelFrame), (none : Option ChannelFrame) = some f →
      ∃ b ∈ L.emitted x.other, ChannelFrame.parse b = some f := by
    simp
  cases e with
  | connect x =>
    obtain ⟨hdead, ⟨⟩⟩ := ite_none_left_eq_some.mp h
    rw [Bool.not_eq_true] at hdead
    exact .inl ⟨x, none, _, ⟨hdead, hnone x, connect_actions hdead⟩, rfl⟩
  | sendMessage x msg fid =>
    obtain ⟨hdead, hsend⟩ := ite_none_left_eq_some.mp h
    rw [Bool.not_eq_true] at hdead
    obtain ⟨d, hd, rfl⟩ := map_eq_some_iff.mp hsend
    obtain ⟨chunks, hchunks, hacts⟩ := sendMessage_actions hdead hd
    exact .inr (.inl ⟨x, msg, fid, chunks, d, hchunks, ⟨hdead, hnone x, hacts⟩, rfl⟩)
  | close x =>
    obtain ⟨hdead, ⟨⟩⟩ := ite_none_left_eq_some.mp h
    rw [Bool.not_eq_true] at hdead
    exact .inl ⟨x, none, _, ⟨hdead, hnone x, close_actions hdead⟩, rfl⟩
  | onTimeout x =>
    obtain ⟨hdead, ⟨⟩⟩ := ite_none_left_eq_some.mp h
    rw [Bool.not_eq_true] at hdead
    exact .inl ⟨x, none, _, ⟨hdead, hnone x, onTimeout_actions hdead⟩, rfl⟩
  | deliver x frame =>
    obtain ⟨hok, hparse⟩ := ite_none_left_eq_some.mp h
    obtain ⟨hdead, hmem⟩ := not_or.mp hok
    rw [Bool.not_eq_true] at hdead
    obtain ⟨f, hf, rfl⟩ := map_eq_some_iff.mp hparse
    refine .inl ⟨x, some f, _, ⟨hdead, ?_, onFrame_actions hdead⟩, rfl⟩
    rintro g ⟨⟩
    exact ⟨frame, not_not.mp hmem, hf⟩
  | flush x i => exact .inr (.inr ⟨x, i, (Option.some.inj h).symm⟩)

end Telesthete.Channel
