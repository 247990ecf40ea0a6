import Telesthete.Lib.Run
import Telesthete.Proofs.ChannelMethods
import Telesthete.Proofs.MixedCore
import Telesthete.Python.Connection

/-!
# Reliability between the two implementations

The two kinds of ends under one description: an end says a numbered log,
whose chunks are a prefix of the chunks it queued, and has fed the chunks of
the part of its peer's log it took in. `Joint` puts two ends together with
the network between them, and every event keeps it.

One call has to be ruled out. A Python channel that gave up on a frame drops
its queue, and a SYN+ACK that arrives later makes it established again. The
chunks of a message sent then follow the gap (`gap_after_teardown`).
-/

namespace Telesthete.Python

open Telesthete.Lib Telesthete.Wire Telesthete.Channel Option Function

namespace End

variable {log peer ext : Log} {bound : Nat} {q : List Bytes} {e e' : End}
variable {inp : Option ChannelFrame} {c r : ChannelCore} {now : Nat}

/-- The sending half of either end. -/
def Speaks (log : Log) (bound : Nat) (q : List Bytes) : End → Prop
  | .python c => c.Speaks log bound q
  | .rust c => ∃ acked, Core.Speaks log acked q c

/-- The receiving half of either end. -/
def Hears (peer : Log) : End → Prop
  | .python c => c.Hears peer
  | .rust c => Core.Hears peer c

def Advances (log : Log) (bound : Nat) (q : List Bytes) (peer : Log) (e e' : End) : Prop :=
  ∃ ext, e'.Speaks (log ++ ext) bound q ∧ e'.Hears peer ∧ e.rcvNext ≤ e'.rcvNext

theorem Speaks.said (h : e.Speaks log bound q) : Said log e.sndNext e.rcvNext e.outbox := by
  cases e with
  | python c => exact Channel.Speaks.said h
  | rust c =>
    obtain ⟨acked, h⟩ := h
    exact ⟨h.snd.logOk.numbered, h.snd.logOk.kind, h.snd.len, fun b hb => ⟨_, h.snd.wire b hb⟩⟩

theorem Speaks.first (h : e.Speaks log bound q) (hrcv : e.rcvNext ≤ 1) : SynFirst log := by
  cases e with
  | python c => exact Channel.Speaks.first h hrcv
  | rust c =>
    obtain ⟨acked, h⟩ := h
    exact h.snd.logOk.synFirst

theorem Speaks.sub (h : e.Speaks log bound q) : payloads log <+: q := by
  cases e with
  | python c => exact Channel.Speaks.sub h
  | rust c =>
    obtain ⟨acked, h⟩ := h
    exact h.queue.sub

theorem Hears.heard (h : e.Hears peer) : Heard peer e.rcvNext e.fed := by
  cases e with
  | python c => exact Channel.Hears.heard h
  | rust c => exact Core.Hears.heard h

theorem Speaks.mono {n : Nat} (h : e.Speaks log bound q) (hle : bound ≤ n) : e.Speaks log n q := by
  cases e with
  | python c => exact Channel.Speaks.mono h hle
  | rust c => exact h

theorem Hears.extend (h : e.Hears peer) : e.Hears (peer ++ ext) := by
  cases e with
  | python c => exact Channel.Hears.extend h
  | rust c => exact Core.Hears.extend h

/-! What an end transmitted is on the network. -/

theorem Speaks.sent (h : e.Speaks log bound q) : e.sent.Speaks log bound q := by
  cases e with
  | python c =>
    have h : c.Speaks log bound q := h
    have hsaid : Said log c.sndNext c.rcvNext [] :=
      ⟨h.said.numbered, h.said.kinds, h.said.len, fun _ hb => (by cases hb)⟩
    exact { h with said := hsaid }
  | rust c =>
    obtain ⟨acked, h⟩ := h
    refine ⟨acked, h.congr ?_ rfl rfl rfl h.idle⟩
    exact ⟨h.snd.logOk, h.snd.len, h.snd.ackedLe, h.snd.unacked, fun _ hb => (by cases hb)⟩

theorem Hears.sent (h : e.Hears peer) : e.sent.Hears peer := by
  cases e with
  | python c => exact Channel.Hears.congr h ⟨rfl, rfl, rfl, rfl⟩
  | rust c =>
    have h : Core.Hears peer c := h
    exact ⟨h.heard, h.buffered⟩

theorem rcvNext_sent (e : End) : e.sent.rcvNext = e.rcvNext := by
  cases e <;> rfl

/-! ## The operations of an end -/

/-- What an end can rely on: its peer's log is numbered and of the three
kinds, and starts with its SYNs as long as this end has said one frame at
most. A frame that comes is one of the peer's. -/
structure Facing (log peer : Log) (bound : Nat) (inp : Option ChannelFrame) : Prop where
  numbered : Numbered Unacked.seq peer
  kinds : Kinds peer
  frame : ∀ f, inp = some f → ∃ w, FrameOk peer bound w f
  first : log.length ≤ 1 → SynFirst peer

theorem Facing.input (h : Facing log peer bound inp) :
    Core.Input log peer inp :=
  ⟨h.numbered, h.kinds, fun f hf => ⟨bound, h.frame f hf⟩, h.first⟩

theorem live_eq_some (h : live c r = some e') :
    c.dead = false ∧ e' = .rust r := by
  obtain ⟨hdead, h⟩ := ite_none_left_eq_some.mp h
  exact ⟨Bool.eq_false_of_not_eq_true hdead, (Option.some.inj h).symm⟩

/-- A method of a core is a sequence of actions. -/
theorem Speaks.coreCall (now : Nat → Nat)
    (hs : (End.rust c).Speaks log bound q) (hh : (End.rust c).Hears peer)
    (hf : Facing log peer bound inp) (hacts : c.dead = false → Actions now inp c r)
    (h : live c r = some e') : Advances log bound q peer (.rust c) e' := by
  obtain ⟨hdead, rfl⟩ := live_eq_some h
  obtain ⟨acked, hs⟩ := hs
  obtain ⟨ext, acked', hs', hh', hle⟩ := hs.actions hh hf.input (hacts hdead)
  exact ⟨ext, ⟨acked', hs'⟩, hh', hle⟩

section operations

variable (hs : e.Speaks log bound q) (hh : e.Hears peer)
variable {now : Nat}

include hs hh

theorem Speaks.connect (hf : Facing log peer bound none) (hnew : e.sndNext = 0)
    (h : e.connect now = some e') : Advances log bound q peer e e' := by
  cases e with
  | python c =>
    obtain ⟨d, hd, rfl⟩ := map_eq_some_iff.mp h
    exact Channel.Speaks.connect now hs hh hnew hd
  | rust c => exact hs.coreCall (fun _ => now) hh hf connect_actions h

theorem Speaks.sendMessage {msg : Bytes} {fid : FragmentId}
    (hf : Facing log peer bound none) (hopen : ∀ c, e = .python c → c.closed = false)
    (h : e.sendMessage now msg fid = some e') :
    Advances log bound (q ++ chunksOf (fid, msg)) peer e e' := by
  cases e with
  | python c =>
    obtain ⟨d, hd, rfl⟩ := map_eq_some_iff.mp h
    exact Channel.Speaks.sendMessage now hs hh (hopen c rfl) hd
  | rust c =>
    obtain ⟨d, hd, hlive⟩ := bind_eq_some_iff.mp h
    obtain ⟨hdead, rfl⟩ := live_eq_some hlive
    obtain ⟨chunks, hchunks, hacts⟩ : ∃ chunks, fragment msg Wire.maxChunkPayload fid = some chunks ∧
        Actions (fun _ => now) none (c.enqueue chunks) d := sendMessage_actions hdead hd
    obtain ⟨acked, hs⟩ := hs
    have hh : Core.Hears peer c := hh
    have hqueued := hs.enqueue (fragment_ne_nil hchunks)
    have hheard : Core.Hears peer (c.enqueue chunks) := ⟨hh.heard, hh.buffered⟩
    have hof : chunksOf (fid, msg) = chunks := by simp [chunksOf, hchunks]
    obtain ⟨ext, acked', hs', hh', hle⟩ := hqueued.actions hheard hf.input hacts
    rw [hof]
    exact ⟨ext, ⟨acked', hs'⟩, hh', hle⟩

theorem Speaks.close (hf : Facing log peer bound none)
    (h : e.close now = some e') : Advances log bound q peer e e' := by
  cases e with
  | python c =>
    cases h
    exact Channel.Speaks.close now hs hh
  | rust c => exact hs.coreCall (fun _ => now) hh hf close_actions h

theorem Speaks.closeReturn (h : e.closeReturn = some e') : Advances log bound q peer e e' := by
  cases e with
  | python c =>
    obtain ⟨-, h⟩ := ite_none_right_eq_some.mp h
    cases h
    exact Channel.advances_same (Channel.Speaks.closeReturn hs)
      (Channel.Hears.congr hh ⟨rfl, rfl, rfl, rfl⟩) (le_rfl)
  | rust c => cases h

theorem Speaks.retransmit (hf : Facing log peer bound none)
    (h : e.retransmit now = some e') : Advances log bound q peer e e' := by
  cases e with
  | python c =>
    obtain ⟨d, hd, rfl⟩ := map_eq_some_iff.mp h
    exact Channel.Speaks.retransmit now hs hh hd
  | rust c => exact hs.coreCall (fun _ => now) hh hf onTimeout_actions h

theorem Speaks.handleFrame {f : ChannelFrame} (hf : Facing log peer bound (some f))
    (h : e.handleFrame now f = some e') : Advances log bound q peer e e' := by
  cases e with
  | python c =>
    cases h
    obtain ⟨w, hw⟩ := hf.frame f rfl
    exact Channel.Speaks.handleFrame now hs hh hf.numbered hf.kinds hw
  | rust c => exact hs.coreCall (fun _ => now) hh hf onFrame_actions h

end operations

/-! ## What never goes back -/

/-- An end stays of its kind; its sequence numbers never go down, and a
Python channel that was torn down stays marked so. -/
def Later : End → End → Prop
  | .python c, .python d => c.Later d
  | .rust c, .rust d => c.sendNext ≤ d.sendNext
  | .python _, .rust _ | .rust _, .python _ => False

theorem Later.refl (e : End) : e.Later e := by
  cases e with
  | python c => exact Channel.Later.refl
  | rust c => exact le_rfl

theorem Later.sndNext (h : e.Later e') : e.sndNext ≤ e'.sndNext := by
  cases e with
  | python c =>
    cases e' with
    | python d => exact Channel.Later.sndNext h
    | rust d => cases h
  | rust c =>
    cases e' with
    | python d => cases h
    | rust d => exact h

theorem Later.sent (h : e.Later e') : e.Later e'.sent := by
  cases e with
  | python c =>
    cases e' with
    | python d =>
      have h : c.Later d := h
      exact ⟨h.sndNext, h.closed⟩
    | rust d => cases h
  | rust c =>
    cases e' with
    | python d => cases h
    | rust d => exact h

theorem later_of_actions (now : Nat → Nat)
    (hacts : c.dead = false → Actions now inp c r) (h : live c r = some e') :
    (End.rust c).Later e' := by
  obtain ⟨hdead, rfl⟩ := live_eq_some h
  exact (hacts hdead).sendNext_le

/-- A call without a frame. -/
theorem later_of_call
    (hacts : c.dead = false → Actions (fun _ => 0) none c r) (h : live c r = some e') :
    (End.rust c).Later e' :=
  later_of_actions _ hacts h

theorem connect_later (h : e.connect now = some e') : e.Later e' := by
  cases e with
  | python c =>
    obtain ⟨d, hd, rfl⟩ := map_eq_some_iff.mp h
    exact (Channel.connect_sends hd).later
  | rust c => exact later_of_call connect_actions h

theorem sendMessage_later {msg : Bytes} {fid : FragmentId}
    (h : e.sendMessage now msg fid = some e') : e.Later e' := by
  cases e with
  | python c =>
    obtain ⟨d, hd, rfl⟩ := map_eq_some_iff.mp h
    exact (Channel.sendMessage_sends hd).later
  | rust c =>
    obtain ⟨d, hd, hlive⟩ := bind_eq_some_iff.mp h
    obtain ⟨hdead, rfl⟩ := live_eq_some hlive
    obtain ⟨chunks, -, hacts⟩ : ∃ chunks, fragment msg Wire.maxChunkPayload fid = some chunks ∧
        Actions (fun _ => now) none (c.enqueue chunks) d := sendMessage_actions hdead hd
    have hle : (c.enqueue chunks).sendNext ≤ d.sendNext := hacts.sendNext_le
    exact hle

theorem close_later (h : e.close now = some e') : e.Later e' := by
  cases e with
  | python c =>
    cases h
    exact (Channel.close_sends now c).later
  | rust c => exact later_of_call close_actions h

theorem closeReturn_later (h : e.closeReturn = some e') : e.Later e' := by
  cases e with
  | python c =>
    obtain ⟨-, h⟩ := ite_none_right_eq_some.mp h
    cases h
    exact ⟨le_rfl, id⟩
  | rust c => cases h

theorem retransmit_later (h : e.retransmit now = some e') : e.Later e' := by
  cases e with
  | python c =>
    obtain ⟨d, hd, rfl⟩ := map_eq_some_iff.mp h
    exact (Channel.retransmit_sends hd).1.later
  | rust c => exact later_of_call onTimeout_actions h

theorem handleFrame_later {f : ChannelFrame} (h : e.handleFrame now f = some e') :
    e.Later e' := by
  cases e with
  | python c =>
    cases h
    exact Channel.handleFrame_later now c f
  | rust c => exact later_of_actions (fun _ => now) onFrame_actions h

end End

namespace Connection

variable {L L' : Connection} {log : Side → Log} {x : Side}
variable {e : End} {ev : Event}

/-- Both ends and everything on the network agree with the two logs. -/
structure Joint (L : Connection) (log : Side → Log) : Prop where
  speaks : ∀ x, (L.ends x).Speaks (log x) (L.ends x.other).rcvNext (L.queued x)
  hears : ∀ x, (L.ends x).Hears (log x.other)
  net : ∀ x, ∀ b ∈ L.emitted x, Sent (log x) (L.ends x).rcvNext b

/-- One end moves: the other sees a longer log and a receive position further on. -/
theorem Joint.moved (h : Joint L log) (hends : L'.ends = update L.ends x e.sent)
    (hemitted : L'.emitted = update L.emitted x (L.emitted x ++ e.outbox))
    (hqueued : L'.queued x.other = L.queued x.other)
    (hadv : (L.ends x).Advances (log x) (L.ends x.other).rcvNext (L'.queued x) (log x.other) e) :
    ∃ log', Joint L' log' ∧ ∀ y, log y <+: log' y := by
  obtain ⟨ext, hs, hh, hle⟩ := hadv
  have hex : L'.ends x = e.sent := by rw [hends, update_self]
  have hey : L'.ends x.other = L.ends x.other := by
    rw [hends, update_of_ne (Side.other_ne x)]
  have hlx : update log x (log x ++ ext) x = log x ++ ext := update_self ..
  have hly : update log x (log x ++ ext) x.other = log x.other :=
    update_of_ne (Side.other_ne x) ..
  refine ⟨update log x (log x ++ ext), ⟨fun y => ?_, fun y => ?_, fun y b hb => ?_⟩,
    fun y => ?_⟩
  · rcases Side.eq_or_eq_other x y with rfl | rfl
    · rw [hlx, hex, hey]
      exact hs.sent
    · rw [hly, hey, Side.other_other, hex, hqueued, End.rcvNext_sent]
      have hother := h.speaks x.other
      rw [Side.other_other] at hother
      exact hother.mono hle
  · rcases Side.eq_or_eq_other x y with rfl | rfl
    · rw [hly, hex]
      exact hh.sent
    · rw [hey, Side.other_other, hlx]
      have hother := h.hears x.other
      rw [Side.other_other] at hother
      exact hother.extend
  · rcases Side.eq_or_eq_other x y with rfl | rfl
    · rw [hlx, hex, End.rcvNext_sent]
      rw [hemitted, update_self] at hb
      rcases List.mem_append.mp hb with hold | hnew
      · exact (h.net y b hold).mono hle
      · exact hs.said.wire b hnew
    · rw [hly, hey]
      rw [hemitted, update_of_ne (Side.other_ne x)] at hb
      exact h.net x.other b hb
  · rcases Side.eq_or_eq_other x y with rfl | rfl
    · rw [hlx]
      exact List.prefix_append _ _
    · exact hly.symm ▸ List.prefix_rfl

/-- The sequence numbers of both ends fit the wire. -/
def Fits (L : Connection) : Prop := ∀ x, (L.ends x).sndNext < 2 ^ 64

/-- What the end `x` faces, with a frame from the network or without one. -/
theorem Joint.facing (h : Joint L log) {inp : Option ChannelFrame}
    (hinp : ∀ f, inp = some f → ∃ w, FrameOk (log x.other) (L.ends x.other).rcvNext w f) :
    End.Facing (log x) (log x.other) (L.ends x.other).rcvNext inp where
  numbered := (h.speaks x.other).said.numbered
  kinds := (h.speaks x.other).said.kinds
  frame := hinp
  first := by
    intro hlen
    have hheard := (h.hears x.other).heard.le
    rw [Side.other_other] at hheard
    exact (h.speaks x.other).first (le_trans hheard hlen)

/-- A frame on the network parses back to what its sender's log explains. -/
theorem Joint.frame (h : Joint L log) (hfits : L.Fits) {b : Bytes} {f : ChannelFrame}
    (hb : b ∈ L.emitted x.other) (hf : ChannelFrame.parse b = some f) :
    ∃ w, FrameOk (log x.other) (L.ends x.other).rcvNext w f := by
  obtain ⟨w, g, rfl, hg⟩ := h.net x.other b hb
  have hsaid := (h.speaks x.other).said
  have hseq : g.seq < 2 ^ 64 := by
    have := hg.seq
    have := hsaid.len
    have := hfits x.other
    omega
  have hack : g.ackNum < 2 ^ 64 := by
    have := hg.ackNum
    have hle := (h.hears x.other).heard.le
    have hlen := (h.speaks x).said.len
    have := hfits x
    rw [Side.other_other] at hle
    omega
  rw [ChannelFrame.parse_serialize (hg.reserved_of_kinds hsaid.kinds) hack hseq] at hf
  cases hf
  exact ⟨w, hg⟩

/-- No message is sent on a Python channel that was torn down. -/
def SendsOpen (L : Connection) : Event → Prop
  | .sendMessage x _ _ _ => ∀ c, L.ends x = .python c → c.closed = false
  | _ => True

/-- Every event keeps the joint invariant. Logs only grow. -/
theorem Joint.exec (h : Joint L log) (hfits : L.Fits) (hopens : L.OpensOnce ev)
    (hsends : L.SendsOpen ev) (he : L.exec ev = some L') :
    ∃ log', Joint L' log' ∧ ∀ y, log y <+: log' y := by
  have hquiet : ∀ x, End.Facing (log x) (log x.other) (L.ends x.other).rcvNext none :=
    fun x => h.facing fun f hf => by cases hf
  cases ev with
  | connect x now =>
    obtain ⟨e, hop, rfl⟩ := map_eq_some_iff.mp he
    exact h.moved rfl rfl rfl ((h.speaks x).connect (h.hears x) (hquiet x) hopens hop)
  | sendMessage x msg fid now =>
    obtain ⟨e, hop, rfl⟩ := map_eq_some_iff.mp he
    refine h.moved (x := x) rfl rfl (update_of_ne (Side.other_ne x) ..) ?_
    rw [show ((L.act x e).record x (chunksOf (fid, msg))).queued x =
      L.queued x ++ chunksOf (fid, msg) from update_self ..]
    exact (h.speaks x).sendMessage (h.hears x) (hquiet x) hsends hop
  | close x now =>
    obtain ⟨e, hop, rfl⟩ := map_eq_some_iff.mp he
    exact h.moved rfl rfl rfl ((h.speaks x).close (h.hears x) (hquiet x) hop)
  | closeReturn x =>
    obtain ⟨e, hop, rfl⟩ := map_eq_some_iff.mp he
    exact h.moved rfl rfl rfl ((h.speaks x).closeReturn (h.hears x) hop)
  | retransmit x now =>
    obtain ⟨e, hop, rfl⟩ := map_eq_some_iff.mp he
    exact h.moved rfl rfl rfl ((h.speaks x).retransmit (h.hears x) (hquiet x) hop)
  | deliver x frame now =>
    obtain ⟨hb, he⟩ := ite_none_right_eq_some.mp he
    obtain ⟨f, hf, he⟩ := bind_eq_some_iff.mp he
    obtain ⟨e, hop, rfl⟩ := map_eq_some_iff.mp he
    have hframe := h.frame hfits (List.contains_iff_mem.mp hb) hf
    refine h.moved rfl rfl rfl ((h.speaks x).handleFrame (h.hears x) (h.facing ?_) hop)
    rintro g ⟨⟩
    exact hframe

theorem act_later (hle : (L.ends x).Later e) (y : Side) :
    (L.ends y).Later ((L.act x e).ends y) := by
  show (L.ends y).Later (update L.ends x e.sent y)
  rcases Side.eq_or_eq_other x y with rfl | rfl
  · rw [update_self]
    exact hle.sent
  · rw [update_of_ne (Side.other_ne x)]
    exact .refl _

theorem exec_later (he : L.exec ev = some L') (y : Side) :
    (L.ends y).Later (L'.ends y) := by
  cases ev with
  | connect x now =>
    obtain ⟨e, hop, rfl⟩ := map_eq_some_iff.mp he
    exact act_later (End.connect_later hop) y
  | sendMessage x msg fid now =>
    obtain ⟨e, hop, rfl⟩ := map_eq_some_iff.mp he
    exact act_later (End.sendMessage_later hop) y
  | close x now =>
    obtain ⟨e, hop, rfl⟩ := map_eq_some_iff.mp he
    exact act_later (End.close_later hop) y
  | closeReturn x =>
    obtain ⟨e, hop, rfl⟩ := map_eq_some_iff.mp he
    exact act_later (End.closeReturn_later hop) y
  | retransmit x now =>
    obtain ⟨e, hop, rfl⟩ := map_eq_some_iff.mp he
    exact act_later (End.retransmit_later hop) y
  | deliver x frame now =>
    obtain ⟨-, he⟩ := ite_none_right_eq_some.mp he
    obtain ⟨f, -, he⟩ := bind_eq_some_iff.mp he
    obtain ⟨e, hop, rfl⟩ := map_eq_some_iff.mp he
    exact act_later (End.handleFrame_later hop) y

theorem Fits.of_exec (hfits : L'.Fits) (he : L.exec ev = some L') : L.Fits :=
  fun y => lt_of_le_of_lt (exec_later he y).sndNext (hfits y)

theorem Fresh.speaks {bound : Nat} (h : Fresh e) : e.Speaks [] bound [] := by
  cases h with
  | python => exact Channel.speaks_new
  | rust window => exact ⟨0, Core.speaks_new window⟩

theorem Fresh.hears (h : Fresh e) : e.Hears [] := by
  cases h with
  | python => exact Channel.hears_new
  | rust window => exact Core.hears_new window

theorem joint_init {ends : Side → End} (hfresh : ∀ x, Fresh (ends x)) :
    Joint (init ends) fun _ => [] where
  speaks x := (hfresh x).speaks
  hears x := (hfresh x).hears
  net := fun _ _ hb => by cases hb

/-- The joint invariant holds in every state of a run that opens once and
sends nothing on a channel torn down. -/
theorem joint_of_run {ends : Side → End} (hfresh : ∀ x, Fresh (ends x))
    (hrun : GuardedRun exec (fun L ev => L.OpensOnce ev ∧ L.SendsOpen ev) (init ends) L)
    (hfits : L.Fits) : ∃ log, Joint L log := by
  induction hrun with
  | refl => exact ⟨_, joint_init hfresh⟩
  | tail _ hlast ih =>
    obtain ⟨ev, ⟨hopens, hsends⟩, he⟩ := hlast
    have hfits' := hfits.of_exec he
    obtain ⟨log, hjoint⟩ := ih hfits'
    obtain ⟨log', hjoint', -⟩ := hjoint.exec hfits' hopens hsends he
    exact ⟨log', hjoint'⟩

theorem Joint.fed_isPrefix (h : Joint L log) (x : Side) : (L.ends x).fed <+: L.queued x.other := by
  rw [(h.hears x).heard.fed]
  refine List.IsPrefix.trans ?_ (h.speaks x.other).sub
  conv => rhs; rw [← List.take_append_drop (L.ends x).rcvNext (log x.other), payloads_append]
  exact List.prefix_append _ _

/-- Between two ends of either kind, opened once, what an end hands to its
reassembler is a prefix of the chunks the other queued, as long as no message
is sent on a Python channel that was torn down. -/
theorem fed_isPrefix_mixed {ends : Side → End} (hfresh : ∀ x, Fresh (ends x))
    (hrun : GuardedRun exec (fun L ev => L.OpensOnce ev ∧ L.SendsOpen ev) (init ends) L)
    (hfits : ∀ y, (L.ends y).sndNext < 2 ^ 64) (x : Side) :
    (L.ends x).fed <+: L.queued x.other := by
  obtain ⟨log, hjoint⟩ := joint_of_run hfresh hrun hfits
  exact hjoint.fed_isPrefix x

/-! ## Runs -/

/-- Hand over the `i`th frame the other end transmitted. -/
def pass (x : Side) (i now : Nat) (L : Connection) : Event :=
  .deliver x ((L.emitted x.other).getD i []) now

/-- A decidable form of `OpensOnce`. -/
def opensOnce (L : Connection) : Event → Bool
  | .connect x _ => (L.ends x).sndNext = 0
  | _ => true

/-- A decidable form of `SendsOpen`. -/
def sendsOpen (L : Connection) : Event → Bool
  | .sendMessage x _ _ _ =>
    match L.ends x with
    | .python c => !c.closed
    | .rust _ => true
  | _ => true

theorem opensOnce_sound (h : L.opensOnce ev = true) : L.OpensOnce ev := by
  cases ev with
  | connect x now =>
    have hnew : (L.ends x).sndNext = 0 := of_decide_eq_true h
    exact hnew
  | _ => trivial

theorem sendsOpen_sound (h : L.sendsOpen ev = true) : L.SendsOpen ev := by
  cases ev with
  | sendMessage x msg fid now =>
    intro c hc
    rw [sendsOpen, hc] at h
    simpa using h
  | _ => trivial

/-- A Python channel at one end, `peer` at the other. -/
def pairing (peer : End) : Side → End
  | .a => .python .new
  | .b => peer

/-- A message each way, the two frames of the longer one in the wrong order. -/
def exchange (peer : End) : Option Connection :=
  play exec (fun L ev => L.opensOnce ev && L.sendsOpen ev) (init (pairing peer))
    [fun _ => .connect .a 0, pass .b 0 0, pass .a 0 0,
     fun _ => .sendMessage .a [1] (List.Vector.replicate 16 1) 0,
     fun _ => .sendMessage .a [2] (List.Vector.replicate 16 2) 0,
     fun _ => .sendMessage .b [3] (List.Vector.replicate 16 3) 0,
     pass .b 3 0, pass .b 2 0, pass .a 1 0]

theorem fed_isPrefix_mixed_exchange : ∃ L, exchange (.rust (.new 32)) = some L ∧
    (L.ends .b).fed.length = 2 ∧ (L.ends .b).fed <+: L.queued .a := by
  refine exists_some (fun L => (L.ends .b).fed.length = 2 ∧ (L.ends .a).sndNext < 2 ^ 64 ∧
    (L.ends .b).sndNext < 2 ^ 64) (by decide +kernel) ?_
  rintro L hL ⟨hlen, ha, hb⟩
  have hfresh : ∀ x, Fresh (pairing (.rust (.new 32)) x) := by
    intro x
    cases x
    · exact .python
    · exact .rust 32
  have hrun : GuardedRun exec (fun L ev => L.OpensOnce ev ∧ L.SendsOpen ev)
      (init (pairing (.rust (.new 32)))) L := by
    refine guardedRun_play (fun L ev hok => ?_) hL
    obtain ⟨hopens, hsends⟩ := Bool.and_eq_true_iff.mp hok
    exact ⟨opensOnce_sound hopens, sendsOpen_sound hsends⟩
  exact ⟨hlen, fed_isPrefix_mixed hfresh hrun (fun y => by cases y <;> assumption) .b⟩

/-- Ten retransmissions of what was first sent at time 0, and the turn that gives up. -/
def giveUp (x : Side) : List (Connection → Event) :=
  (List.range 11).map fun k _ => .retransmit x ((k + 1) * rto)

/-- A message queued behind the SYN, which the peer got and answered; the
answer comes after the channel gave up. Then a second message. -/
def lateAnswer (peer : End) : Option Connection :=
  play exec opensOnce (init (pairing peer))
    ([fun _ => .connect .a 0, fun _ => .sendMessage .a [1] (List.Vector.replicate 16 1) 0,
      pass .b 0 0] ++ giveUp .a ++
     [pass .a 0 (12 * rto), fun _ => .sendMessage .a [2] (List.Vector.replicate 16 2) (12 * rto),
      fun L => .deliver .b ((L.emitted .a).getD ((L.emitted .a).length - 2) []) (12 * rto),
      fun L => .deliver .b ((L.emitted .a).getD ((L.emitted .a).length - 1) []) (12 * rto)])

theorem exists_run_of_lateAnswer {peer : End}
    (hall : (lateAnswer peer).any (fun L => (L.ends .a).sndNext < 2 ^ 64 ∧
      (L.ends .b).sndNext < 2 ^ 64 ∧ ¬ (L.ends .b).fed <+: L.queued .a) = true) :
    ∃ L, GuardedRun exec OpensOnce (init (pairing peer)) L ∧
      (∀ y, (L.ends y).sndNext < 2 ^ 64) ∧ ¬ (L.ends .b).fed <+: L.queued .a := by
  obtain ⟨L, hL, ha, hb, hgap⟩ := some_of_any hall
  exact ⟨L, guardedRun_play (fun L ev => opensOnce_sound) hL, fun y => by cases y <;> assumption, hgap⟩

/-- The first message was dropped when the channel was torn down, the second
is delivered in its place; to a Python peer and to a Rust peer. -/
theorem gap_after_teardown :
    (∃ L, GuardedRun exec OpensOnce (init (pairing (.python .new))) L ∧
      (∀ y, (L.ends y).sndNext < 2 ^ 64) ∧ ¬ (L.ends .b).fed <+: L.queued .a) ∧
    (∃ L, GuardedRun exec OpensOnce (init (pairing (.rust (.new 32)))) L ∧
      (∀ y, (L.ends y).sndNext < 2 ^ 64) ∧ ¬ (L.ends .b).fed <+: L.queued .a) :=
  ⟨exists_run_of_lateAnswer (by decide +kernel), exists_run_of_lateAnswer (by decide +kernel)⟩

end Connection

end Telesthete.Python
