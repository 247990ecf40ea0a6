import Telesthete.Channel.Action
import Telesthete.Channel.Log
import Telesthete.Channel.Solo
import Telesthete.Proofs.ChannelMethods

/-!
# A core against a hostile peer

The frames of a peer that follows the protocol are copies of its log, and the
joint invariant of a connection rests on that. Here the peer sends anything, and
what is left is what a core guarantees on its own.

The sending half is one statement about methods: outside `ack` and `teardown` a
method only appends to `unacked`, under the next sequence numbers, and takes the
chunks it sends from the front of the queue (`Grows`). An acknowledgement comes
first in `onFrame`, before anything is appended, which is why one that names
numbers far beyond `send_next` cannot cover a frame that is sent later, not even
later in the same call.

The receiving half is an invariant of the atomic actions (`RecvOk`).
-/

namespace Telesthete.Channel

open Telesthete.Lib Telesthete.Wire List Option

variable {now : Nat → Nat} {inp : Option ChannelFrame} {c d e : ChannelCore} {f : ChannelFrame}
variable {k : Nat} {s s' : Solo}

/-! ## The sending half -/

/-- The chunks that frames carry. Only a data frame has the bare ACK flag. -/
def carried (frames : List Unacked) : List Bytes :=
  (frames.filter fun u => u.flags = flagAck).map Unacked.data

theorem carried_append (l₁ l₂ : List Unacked) : carried (l₁ ++ l₂) = carried l₁ ++ carried l₂ := by
  rw [carried, filter_append, map_append]
  rfl

/-- New frames were appended under the next numbers, with chunks from the front of the queue. -/
structure Grows (c d : ChannelCore) : Prop where
  frames : ∃ new : List Unacked, d.unacked = c.unacked ++ new ∧
    new.map Unacked.seq = List.range' c.sendNext new.length ∧
    d.sendNext = c.sendNext + new.length ∧ carried new ++ d.sendQueue = c.sendQueue
  retries : d.retries = c.retries
  peerWindow : d.peerWindow = c.peerWindow
  dead : d.dead = c.dead

theorem grows_same (hunacked : d.unacked = c.unacked) (hnext : d.sendNext = c.sendNext)
    (hqueue : d.sendQueue = c.sendQueue) (hretries : d.retries = c.retries)
    (hwindow : d.peerWindow = c.peerWindow) (hdead : d.dead = c.dead) : Grows c d where
  frames := ⟨[], by rw [hunacked, append_nil], rfl, hnext, hqueue⟩
  retries := hretries
  peerWindow := hwindow
  dead := hdead

theorem Grows.refl (c : ChannelCore) : Grows c c := grows_same rfl rfl rfl rfl rfl rfl

theorem Grows.trans (h₁ : Grows c d) (h₂ : Grows d e) : Grows c e where
  frames := by
    obtain ⟨l₁, hun₁, hseq₁, hnext₁, hqueue₁⟩ := h₁.frames
    obtain ⟨l₂, hun₂, hseq₂, hnext₂, hqueue₂⟩ := h₂.frames
    refine ⟨l₁ ++ l₂, ?_, ?_, ?_, ?_⟩
    · rw [hun₂, hun₁, append_assoc]
    · rw [map_append, hseq₁, hseq₂, hnext₁, length_append, ← range'_append_1]
    · rw [hnext₂, hnext₁, length_append]
      omega
    · rw [carried_append, append_assoc, hqueue₂, hqueue₁]
  retries := h₂.retries.trans h₁.retries
  peerWindow := h₂.peerWindow.trans h₁.peerWindow
  dead := h₂.dead.trans h₁.dead

theorem grows_emit (c : ChannelCore) (flags : UInt8) (seq : Nat) (data : Bytes) :
    Grows c (c.emit flags seq data) := grows_same rfl rfl rfl rfl rfl rfl

/-- A frame that carries no chunk. -/
theorem grows_control {flags : UInt8} (hflags : flags ≠ flagAck) : Grows c (c.emitNext flags []) where
  frames := ⟨[⟨flags, c.sendNext, []⟩], rfl, rfl, rfl, by simp [carried, hflags]; rfl⟩
  retries := rfl
  peerWindow := rfl
  dead := rfl

theorem grows_chunk {data : Bytes} {rest : List Bytes} (hqueue : c.sendQueue = data :: rest) :
    Grows c ({ c with sendQueue := rest }.emitNext flagAck data) where
  frames := ⟨[⟨flagAck, c.sendNext, data⟩], rfl, rfl, rfl, by rw [hqueue]; rfl⟩
  retries := rfl
  peerWindow := rfl
  dead := rfl

theorem grows_pump (c : ChannelCore) : Grows c c.pump := by
  rw [ChannelCore.pump]
  split
  · exact .refl c
  · have hloop : Grows c (ChannelCore.pumpData (max c.peerWindow.toNat 1) c.sendQueue.length c) :=
      pumpData_rule (fun _ _ _ h hqueue _ => h.trans (grows_chunk hqueue)) _ c (.refl c)
    dsimp only
    split
    · have hfin := hloop.trans (grows_control (show flagFin ||| flagAck ≠ flagAck by decide))
      exact hfin.trans (grows_same rfl rfl rfl rfl rfl rfl)
    · exact hloop

theorem grows_consume (now : Nat → Nat) (c : ChannelCore) (fr : ChannelFrame) :
    Grows c (c.consume now fr) := by
  rw [ChannelCore.consume]
  dsimp only
  split
  · split
    · refine Grows.trans ?_ (grows_same (c := ChannelCore.emitNext _ (flagFin ||| flagAck) [])
        rfl rfl rfl rfl rfl rfl)
      refine Grows.trans ?_ (grows_control (by decide))
      exact grows_same rfl rfl rfl rfl rfl rfl
    · exact grows_same rfl rfl rfl rfl rfl rfl
  · split
    · exact grows_same rfl rfl rfl rfl rfl rfl
    · exact grows_same rfl rfl rfl rfl rfl rfl

theorem grows_deliver (now : Nat → Nat) (c : ChannelCore) (f : ChannelFrame) :
    Grows c (c.deliver now f) := by
  rw [ChannelCore.deliver]
  split
  · exact .refl c
  · split
    · exact grows_emit c _ _ _
    · split
      · exact grows_emit c _ _ _
      · refine Grows.trans ?_ (grows_emit _ _ _ _)
        refine drain_rule (P := Grows c) ?_ _ _ (grows_same rfl rfl rfl rfl rfl rfl)
        exact fun d fr h _ => h.trans (grows_consume now d fr)

/-- What `onFrame` does with the acknowledgement and the window, before anything else. -/
def ChannelCore.acked (c : ChannelCore) (f : ChannelFrame) : ChannelCore :=
  { c.ack f.ackNum with peerWindow := f.window }

theorem onFrame_rst (hrst : f.has flagRst = true) :
    c.onFrame now f = { c.acked f with peerClosed := true }.teardown := by
  rw [ChannelCore.onFrame]
  exact if_pos hrst

/-- Everything else `onFrame` does only appends. -/
theorem grows_onFrame (hrst : f.has flagRst = false) : Grows (c.acked f) (c.onFrame now f) := by
  rw [ChannelCore.onFrame]
  rw [if_neg (by rw [hrst]; decide)]
  have hsynced : Grows (c.acked f)
      { c.acked f with rcvNext := f.seq + 1, state := .established, justEstablished := true } :=
    grows_same rfl rfl rfl rfl rfl rfl
  split
  · split
    · exact hsynced.trans (grows_control (by decide))
    · exact .refl _
  · split
    · exact (hsynced.trans (grows_emit _ _ _ _)).trans (grows_pump _)
    · split
      · exact hsynced.trans (grows_control (by decide))
      · exact .refl _
  · exact (grows_deliver now _ f).trans (grows_pump _)
  · exact (grows_deliver now _ f).trans (grows_pump _)

theorem grows_connect (c : ChannelCore) : Grows c c.connect := by
  rw [ChannelCore.connect]
  split
  · exact .refl c
  · exact Grows.trans (d := { c with state := .synSent }) (grows_same rfl rfl rfl rfl rfl rfl)
      (grows_control (by decide))

theorem grows_close (c : ChannelCore) : Grows c c.close :=
  Grows.trans (d := { c with closing := true }) (grows_same rfl rfl rfl rfl rfl rfl) (grows_pump _)

/-! ## The receiving half -/

/-- The reorder buffer stays in the window, and is empty before the handshake. -/
structure RecvOk (c : ChannelCore) : Prop where
  buffer : ∀ k ∈ c.recvBuffer, c.rcvNext ≤ k ∧ k < c.rcvNext + c.window.toNat
  idle : c.dead = false → c.state = .closed ∨ c.state = .synSent → c.recvBuffer = ∅

theorem RecvOk.congr (h : RecvOk c) (hrcv : d.rcvNext = c.rcvNext)
    (hbuffer : d.recvBuffer = c.recvBuffer) (hwindow : d.window = c.window)
    (hidle : d.dead = false → d.state = .closed ∨ d.state = .synSent →
      c.dead = false ∧ (c.state = .closed ∨ c.state = .synSent)) : RecvOk d where
  buffer := by
    rw [hrcv, hbuffer, hwindow]
    exact h.buffer
  idle := fun hdead hstate => by
    rw [hbuffer]
    exact h.idle (hidle hdead hstate).1 (hidle hdead hstate).2

/-- Learning the peer's position, with nothing buffered. -/
theorem RecvOk.synced (h : RecvOk c) (halive : c.dead = false)
    (hstate : c.state = .closed ∨ c.state = .synSent) (hbuffer : d.recvBuffer = c.recvBuffer)
    (hopen : d.state = .established) : RecvOk d where
  buffer := fun k hk => by
    rw [hbuffer, h.idle halive hstate] at hk
    exact absurd hk (AList.notMem_empty k)
  idle := fun _ hstate' => by
    rw [hopen] at hstate'
    exact absurd hstate' (by decide)

theorem not_idle (h : c.state = .established ∨ c.state = .finSent) :
    ¬ (c.state = .closed ∨ c.state = .synSent) := by
  rcases h with h | h
  · rw [h]
    decide
  · rw [h]
    decide

theorem RecvOk.consumed (h : RecvOk c) (hd : Consumes c d)
    (hstate : c.state = .established ∨ c.state = .finSent) : RecvOk d where
  buffer := fun k hk => by
    rw [hd.recvBuffer, AList.mem_erase] at hk
    have := h.buffer k hk.2
    rw [hd.rcvNext, hd.window]
    omega
  idle := fun _ hidle => absurd hidle (not_idle (hd.state hstate))

theorem RecvOk.action (h : RecvOk c) (halive : c.dead = false) (ha : Action now inp c d) :
    RecvOk d := by
  cases ha with
  | syn hstate => exact h.congr rfl rfl rfl fun _ _ => ⟨halive, .inl hstate⟩
  | chunk hstate _ => exact h.congr rfl rfl rfl fun _ hidle => ⟨halive, hidle⟩
  | fin hstate _ _ => exact h.congr rfl rfl rfl fun _ hidle => absurd hidle (by simp)
  | respond _ hstate _ => exact h.synced halive hstate rfl rfl
  | opened _ hstate _ => exact h.synced halive (.inr hstate) rfl rfl
  | exhausted _ _ | rst _ _ =>
    exact h.congr rfl rfl rfl fun hdead =>
      absurd (show true = false from hdead) (by decide)
  | buffer _ hstate _ hge hwin =>
    refine ⟨fun k hk => ?_, fun _ hidle => absurd hidle (not_idle hstate)⟩
    rcases (AList.mem_insert _).mp hk with rfl | hk
    · exact ⟨hge, hwin⟩
    · exact h.buffer k hk
  | consume hstate hdue =>
    exact h.consumed (consume_consumes now c _) hstate
  | closing | retry _ | resend _ | ack _ | pureAck _ =>
    exact h.congr rfl rfl rfl fun hdead hidle => ⟨hdead, hidle⟩

theorem RecvOk.actions (h : RecvOk c) (hs : Actions now inp c d) : RecvOk d := by
  induction hs with
  | refl => exact h
  | tail _ hlast ih => exact ih.action hlast.1 hlast.2

/-- Past the handshake the receive position only moves forward. -/
theorem Action.rcvNext_le (hstate : c.state = .established ∨ c.state = .finSent)
    (ha : Action now inp c d) :
    c.rcvNext ≤ d.rcvNext ∧
      (d.dead = true ∨ d.state = .established ∨ d.state = .finSent) := by
  cases ha with
  | syn hidle => exact absurd (.inl hidle) (not_idle hstate)
  | respond _ hidle _ => exact absurd hidle (not_idle hstate)
  | opened _ hidle _ => exact absurd (.inr hidle) (not_idle hstate)
  | exhausted _ _ => exact ⟨le_rfl, .inl rfl⟩
  | rst _ _ => exact ⟨le_rfl, .inl rfl⟩
  | fin _ _ _ => exact ⟨le_rfl, .inr (.inr rfl)⟩
  | consume _ _ =>
    rw [(consume_consumes now c _).rcvNext]
    exact ⟨Nat.le_succ _, .inr ((consume_consumes now c _).state hstate)⟩
  | chunk _ _ | closing | retry _ | resend _ | ack _ | pureAck _ | buffer _ _ _ _ _ =>
    exact ⟨le_rfl, .inr hstate⟩

theorem Actions.rcvNext_le (hstate : c.state = .established ∨ c.state = .finSent)
    (hs : Actions now inp c d) :
    c.rcvNext ≤ d.rcvNext ∧
      (d.dead = true ∨ d.state = .established ∨ d.state = .finSent) := by
  induction hs with
  | refl => exact ⟨le_rfl, .inr hstate⟩
  | tail _ hlast ih =>
    obtain ⟨hle, hdead | hopen⟩ := ih
    · exact absurd (hdead.symm.trans hlast.1) (by decide)
    · obtain ⟨hle', hopen'⟩ := hlast.2.rcvNext_le hopen
      exact ⟨le_trans hle hle', hopen'⟩

/-! ## Acknowledgements -/

theorem pairwise_of_range {l : List Unacked} {k n : Nat}
    (h : l.map Unacked.seq = List.range' k n) : l.Pairwise fun u v => u.seq ≤ v.seq := by
  have hlt : (l.map Unacked.seq).Pairwise (· < ·) := h ▸ pairwise_lt_range'
  exact (pairwise_map.mp hlt).imp le_of_lt

/-- An acknowledgement takes out the frames it covers and no others: all numbers in flight are
below `sendNext`, so the clamp changes nothing. -/
theorem unacked_ack (h : c.unacked.map Unacked.seq = List.range' k c.unacked.length)
    (hend : k + c.unacked.length = c.sendNext) (n : Nat) :
    (c.ack n).unacked = c.unacked.filter fun u => decide (n ≤ u.seq) := by
  show c.unacked.dropWhile (fun u => decide (u.seq < min n c.sendNext)) = _
  rw [dropWhile_lt_eq_filter Unacked.seq _ (pairwise_of_range h)]
  refine filter_congr fun u hu => ?_
  have hmem : u.seq ∈ List.range' k c.unacked.length := h ▸ mem_map_of_mem hu
  have hlt := (mem_range'_1.mp hmem).2
  exact decide_eq_decide.mpr (by omega)

/-! ## A call -/

/-- What a call does to the sending half, if the core survives it: the frames it covers leave, and
new ones are appended. -/
structure Sends (c : ChannelCore) (e : Call) (d : ChannelCore) : Prop where
  frames : ∃ new : List Unacked,
    d.unacked = c.unacked.filter (fun u => !e.covers u) ++ new ∧
    new.map Unacked.seq = List.range' c.sendNext new.length ∧
    d.sendNext = c.sendNext + new.length ∧ carried new ++ d.sendQueue = c.sendQueue ++ e.chunks

theorem Grows.sends {b : ChannelCore} {e : Call} (h : Grows b d) (hb : b = c.enqueue e.chunks)
    (hcovers : ∀ u, e.covers u = false) : Sends c e d where
  frames := by
    subst hb
    obtain ⟨new, hunacked, hseq, hnext, hqueue⟩ := h.frames
    refine ⟨new, ?_, hseq, hnext, hqueue⟩
    rw [hunacked, filter_eq_self.mpr fun u _ => by rw [hcovers u]; rfl]
    rfl

theorem enqueue_nil (c : ChannelCore) : c.enqueue [] = c := by
  rw [ChannelCore.enqueue, append_nil]

/-- A timeout sends copies of what is in flight, or gives up. -/
theorem onTimeout_cases (c : ChannelCore) :
    (c.unacked = [] ∧ c.onTimeout = c) ∨
    (c.unacked ≠ [] ∧ c.retries < maxRetries ∧ c.onTimeout =
      { c with
        retries := c.retries + 1
        outbox := c.outbox ++ c.unacked.map fun u =>
          (⟨u.flags, c.rcvNext, c.window, u.seq, u.data⟩ : ChannelFrame).serialize }) ∨
    (c.unacked ≠ [] ∧ maxRetries ≤ c.retries ∧ c.onTimeout = c.teardown) := by
  rw [ChannelCore.onTimeout]
  split
  · next hnil => exact .inl ⟨hnil, rfl⟩
  · next hne =>
    split
    · next hge => exact .inr (.inr ⟨hne, hge, rfl⟩)
    · next hlt => exact .inr (.inl ⟨hne, Nat.lt_of_not_le hlt, resend_eq _ _⟩)

theorem call_sends (h : c.unacked.map Unacked.seq = List.range' k c.unacked.length)
    (hend : k + c.unacked.length = c.sendNext) {e : Call} (he : c.call now e = some d)
    (halive : d.dead = false) : Sends c e d := by
  obtain ⟨-, he⟩ := ite_none_left_eq_some.mp he
  cases e with
  | connect =>
    cases he
    exact (grows_connect c).sends (enqueue_nil c).symm fun _ => rfl
  | sendMessage msg fid =>
    obtain ⟨chunks, hchunks, rfl⟩ := map_eq_some_iff.mp he
    have hqueued : (Call.sendMessage msg fid).chunks = chunks := by
      show (fragment msg Wire.maxChunkPayload fid).getD [] = chunks
      rw [hchunks]
      rfl
    exact (grows_pump _).sends (by rw [hqueued]) fun _ => rfl
  | close =>
    cases he
    exact (grows_close c).sends (enqueue_nil c).symm fun _ => rfl
  | onTimeout =>
    cases he
    rcases onTimeout_cases c with ⟨-, heq⟩ | ⟨-, -, heq⟩ | ⟨-, -, heq⟩
    · rw [heq]
      exact (Grows.refl c).sends (enqueue_nil c).symm fun _ => rfl
    · rw [heq]
      refine ⟨[], ?_, rfl, rfl, ?_⟩
      · rw [append_nil]
        exact (filter_eq_self.mpr fun u _ => rfl).symm
      · exact (append_nil _).symm
    · rw [heq] at halive
      exact absurd (show true = false from halive) (by decide)
  | onFrame f =>
    cases he
    cases hrst : f.has flagRst with
    | true =>
      rw [onFrame_rst hrst] at halive
      exact absurd (show true = false from halive) (by decide)
    | false =>
      obtain ⟨new, hunacked, hseq, hnext, hqueue⟩ := (grows_onFrame hrst).frames
      refine ⟨new, ?_, hseq, hnext, ?_⟩
      · rw [hunacked]
        show (c.ack f.ackNum).unacked ++ new = _
        rw [unacked_ack h hend]
        refine congrArg (· ++ new) (filter_congr fun u _ => ?_)
        show decide (f.ackNum ≤ u.seq) = !decide (u.seq < f.ackNum)
        rw [← decide_not]
        exact decide_eq_decide.mpr not_lt.symm
      · rw [hqueue]
        exact (append_nil _).symm

/-- A call is a sequence of actions, from a core with the chunks queued. -/
theorem call_actions {e : Call} (he : c.call now e = some d) :
    c.dead = false ∧ ∃ inp, Actions now inp (c.enqueue e.chunks) d := by
  obtain ⟨hdead, he⟩ := ite_none_left_eq_some.mp he
  have halive : c.dead = false := Bool.not_eq_true _ ▸ hdead
  refine ⟨halive, ?_⟩
  cases e with
  | connect =>
    cases he
    exact ⟨none, (enqueue_nil c).symm ▸ connect_actions halive⟩
  | sendMessage msg fid =>
    obtain ⟨chunks, hchunks, hacts⟩ := @sendMessage_actions now none c d msg fid halive he
    have hqueued : (Call.sendMessage msg fid).chunks = chunks := by
      show (fragment msg Wire.maxChunkPayload fid).getD [] = chunks
      rw [hchunks]
      rfl
    exact ⟨none, hqueued.symm ▸ hacts⟩
  | close =>
    cases he
    exact ⟨none, (enqueue_nil c).symm ▸ close_actions halive⟩
  | onTimeout =>
    cases he
    exact ⟨none, (enqueue_nil c).symm ▸ onTimeout_actions halive⟩
  | onFrame f =>
    cases he
    exact ⟨some f, (enqueue_nil c).symm ▸ onFrame_actions halive⟩

theorem Settled.call {e : Call} (h : Settled c) (hrecv : RecvOk c) (he : c.call now e = some d) :
    Settled d := by
  obtain ⟨hdead, he⟩ := ite_none_left_eq_some.mp he
  cases e with
  | connect => exact Option.some.inj he ▸ h.connect
  | sendMessage msg fid => exact h.sendMessage he
  | close => exact Option.some.inj he ▸ h.close
  | onTimeout => exact Option.some.inj he ▸ h.onTimeout
  | onFrame f => exact Option.some.inj he ▸ h.onFrame (hrecv.idle (Bool.not_eq_true _ ▸ hdead))

/-! ## Runs -/

structure SoloInv (s : Solo) : Prop where
  /-- Every number below `sendNext` is acknowledged or in flight. -/
  numbered : s.core.dead = false →
    (s.acknowledged ++ s.core.unacked).map Unacked.seq = List.range s.core.sendNext
  /-- Every chunk is acknowledged, in flight or queued. -/
  chunks : s.core.dead = false →
    s.queued = carried s.acknowledged ++ carried s.core.unacked ++ s.core.sendQueue
  gone : s.core.dead = true → s.core.unacked = []
  recv : RecvOk s.core
  settled : Settled s.core

theorem soloInv_init (w : UInt16) : SoloInv (Solo.init w) where
  numbered := fun _ => rfl
  chunks := fun _ => rfl
  gone := fun h => absurd (show false = true from h) (by decide)
  recv := ⟨fun k hk => absurd hk (AList.notMem_empty k), fun _ _ => rfl⟩
  settled := settled_new w

/-- The numbers in flight are the last ones below `sendNext`. -/
theorem SoloInv.inFlight (h : SoloInv s) (halive : s.core.dead = false) :
    s.core.unacked.map Unacked.seq =
        List.range' s.acknowledged.length s.core.unacked.length ∧
      s.acknowledged.length + s.core.unacked.length = s.core.sendNext := by
  have hnumbered := h.numbered halive
  have hlen : s.acknowledged.length + s.core.unacked.length = s.core.sendNext := by
    have := congrArg List.length hnumbered
    rwa [length_map, length_append, length_range] at this
  refine ⟨?_, hlen⟩
  have hdrop := congrArg (List.drop s.acknowledged.length) hnumbered
  rw [map_append, drop_left' (length_map _), range_eq_range',
    drop_range'] at hdrop
  rw [hdrop]
  congr 1
  · omega
  · omega

/-- Only a teardown kills a core, and it leaves nothing to send. -/
theorem Action.torn (ha : Action now inp c d) :
    d.dead = c.dead ∨ (d.unacked = [] ∧ d.sendQueue = []) := by
  cases ha with
  | exhausted _ _ | rst _ _ => exact .inr ⟨rfl, rfl⟩
  | consume _ _ => exact .inl (consume_consumes now c _).dead
  | _ => exact .inl rfl

theorem call_torn {e : Call} (he : c.call now e = some d) (hdead : d.dead = true) :
    d.unacked = [] ∧ d.sendQueue = [] := by
  obtain ⟨halive, inp, hacts⟩ := call_actions he
  rcases hacts.cases_tail with heq | ⟨b, -, hb, hlast⟩
  · rw [heq] at hdead
    exact absurd (halive.symm.trans hdead) (by decide)
  · rcases hlast.torn with hsame | hempty
    · exact absurd (hb.symm.trans (hsame.symm.trans hdead)) (by decide)
    · exact hempty

/-- The frames in flight are those a call covers, and then the others. -/
theorem Call.filter_covers (e : Call) {l : List Unacked}
    (h : l.Pairwise fun u v => u.seq ≤ v.seq) :
    l.filter e.covers ++ l.filter (fun u => !e.covers u) = l := by
  cases e with
  | onFrame f =>
    have hnot : (fun u : Unacked => !decide (u.seq < f.ackNum)) =
        fun u => decide (f.ackNum ≤ u.seq) := by
      funext u
      rw [← decide_not]
      exact decide_eq_decide.mpr not_lt
    show l.filter (fun u => decide (u.seq < f.ackNum)) ++
      l.filter (fun u => !decide (u.seq < f.ackNum)) = l
    rw [hnot]
    exact filter_lt_append_filter_ge Unacked.seq f.ackNum h
  | connect | sendMessage msg fid | close | onTimeout =>
    show l.filter (fun _ => false) ++ l.filter (fun _ => true) = l
    rw [filter_false, filter_true, nil_append]

theorem SoloInv.exec {e : Call} (h : SoloInv s) (he : s.exec now e = some s') :
    SoloInv s' := by
  obtain ⟨d, hd, rfl⟩ := map_eq_some_iff.mp he
  obtain ⟨halive, inp, hacts⟩ := call_actions hd
  obtain ⟨hflight, hend⟩ := h.inFlight halive
  have hsplit := e.filter_covers (pairwise_of_range hflight)
  have hqueued : RecvOk (s.core.enqueue e.chunks) := h.recv.congr rfl rfl rfl fun hd hs => ⟨hd, hs⟩
  refine ⟨fun halive' => ?_, fun halive' => ?_, fun hdead => (call_torn hd hdead).1,
    hqueued.actions hacts, h.settled.call h.recv hd⟩
  · obtain ⟨new, hunacked, hseq, hnext, -⟩ := (call_sends hflight hend hd halive').frames
    calc ((s.acknowledged ++ s.core.unacked.filter e.covers) ++ d.unacked).map Unacked.seq
        = (s.acknowledged ++ s.core.unacked).map Unacked.seq ++ new.map Unacked.seq := by
          rw [hunacked, ← map_append]
          nth_rewrite 3 [← hsplit]
          simp only [append_assoc]
      _ = List.range d.sendNext := by
          rw [h.numbered halive, hseq, hnext, range_eq_range', range_eq_range',
            ← range'_append_1, Nat.zero_add]
  · obtain ⟨new, hunacked, -, -, hqueue⟩ := (call_sends hflight hend hd halive').frames
    show s.queued ++ e.chunks = carried (s.acknowledged ++ s.core.unacked.filter e.covers) ++
      carried d.unacked ++ d.sendQueue
    rw [hunacked, carried_append, carried_append, h.chunks halive]
    nth_rewrite 1 [← hsplit]
    rw [carried_append]
    simp only [append_assoc, hqueue]

theorem Solo.Reachable.soloInv {w : UInt16} (h : Solo.Reachable now w s) : SoloInv s :=
  GuardedRun.invariant h (soloInv_init w) fun _ _ _ hs _ he => hs.exec he

theorem Solo.exec_window {e : Call} (he : s.exec now e = some s') :
    s'.core.window = s.core.window := by
  obtain ⟨d, hd, rfl⟩ := map_eq_some_iff.mp he
  obtain ⟨-, inp, hacts⟩ := call_actions hd
  exact hacts.window_eq

theorem Solo.Reachable.window_eq {w : UInt16} (h : Solo.Reachable now w s) :
    s.core.window = w :=
  GuardedRun.invariant (P := fun s => s.core.window = w) h rfl
    fun _ _ _ hs _ he => (Solo.exec_window he).trans hs

/-- From an open core on, the receive position only moves forward. -/
theorem Solo.rcvNext_le (hopen : s.core.state = .established ∨ s.core.state = .finSent)
    (h : GuardedRun (Solo.exec now) (fun _ _ => True) s s') : s.core.rcvNext ≤ s'.core.rcvNext := by
  have hrun : s.core.rcvNext ≤ s'.core.rcvNext ∧ (s'.core.dead = true ∨
      s'.core.state = .established ∨ s'.core.state = .finSent) := by
    refine GuardedRun.invariant (P := fun t => s.core.rcvNext ≤ t.core.rcvNext ∧ (t.core.dead = true ∨
      t.core.state = .established ∨ t.core.state = .finSent)) h ⟨le_rfl, .inr hopen⟩ ?_
    rintro t e t' ⟨hle, hstate⟩ - he
    obtain ⟨d, hd, rfl⟩ := map_eq_some_iff.mp he
    obtain ⟨halive, inp, hacts⟩ := call_actions hd
    rcases hstate with hdead | hstate
    · exact absurd (halive.symm.trans hdead) (by decide)
    · have hqueued : (t.core.enqueue e.chunks).state = .established ∨
          (t.core.enqueue e.chunks).state = .finSent := hstate
      obtain ⟨hle', hstate'⟩ := hacts.rcvNext_le hqueued
      exact ⟨le_trans hle hle', hstate'⟩
  exact hrun.1

/-- The invariant of a core whose peer may send anything. In every state the frames in flight have
consecutive numbers up to the last one assigned, the reorder buffer lies strictly inside the window,
and every chunk is acknowledged, in flight or queued; a call takes out of the frames in flight what
it acknowledges and nothing else; and the receive position of an open core never goes back. -/
theorem hostile_invariant (w : UInt16) (s : Solo) (h : Solo.Reachable now w s) :
    (s.core.unacked.length ≤ s.core.sendNext ∧
      s.core.unacked.map Unacked.seq =
        List.range' (s.core.sendNext - s.core.unacked.length) s.core.unacked.length) ∧
    (∀ k ∈ s.core.recvBuffer, s.core.rcvNext < k ∧ k < s.core.rcvNext + w.toNat) ∧
    s.core.recvBuffer.entries.length ≤ w.toNat - 1 ∧
    (s.core.dead = false →
      s.queued = carried s.acknowledged ++ carried s.core.unacked ++ s.core.sendQueue) ∧
    (∀ e s', s.exec now e = some s' → s'.core.dead = false →
      ∃ new : List Unacked,
        s'.core.unacked = s.core.unacked.filter (fun u => !e.covers u) ++ new ∧
        new.map Unacked.seq =
          List.range' s.core.sendNext (s'.core.sendNext - s.core.sendNext)) ∧
    (s.core.state = .established ∨ s.core.state = .finSent →
      ∀ s', GuardedRun (Solo.exec now) (fun _ _ => True) s s' →
        s.core.rcvNext ≤ s'.core.rcvNext) := by
  have hinv := h.soloInv
  have hbuffer : ∀ k ∈ s.core.recvBuffer, s.core.rcvNext < k ∧ k < s.core.rcvNext + w.toNat := by
    intro k hk
    obtain ⟨hge, hlt⟩ := hinv.recv.buffer k hk
    have hne : k ≠ s.core.rcvNext := fun heq =>
      AList.lookup_eq_none.mp hinv.settled.tight (heq ▸ hk)
    rw [h.window_eq] at hlt
    exact ⟨by omega, hlt⟩
  refine ⟨?_, hbuffer, ?_, hinv.chunks, fun e s' he halive' => ?_,
    fun hopen s' hrun => Solo.rcvNext_le hopen hrun⟩
  · cases hdead : s.core.dead with
    | true =>
      rw [hinv.gone hdead]
      exact ⟨Nat.zero_le _, rfl⟩
    | false =>
      obtain ⟨hflight, hend⟩ := hinv.inFlight hdead
      refine ⟨by omega, ?_⟩
      rw [show s.core.sendNext - s.core.unacked.length = s.acknowledged.length by omega]
      exact hflight
  · have hle : s.core.recvBuffer.entries.length ≤
        (List.range' (s.core.rcvNext + 1) (w.toNat - 1)).length := by
      refine length_entries_le_of_forall_mem fun k hk => mem_range'_1.mpr ?_
      have := hbuffer k hk
      omega
    rwa [length_range'] at hle
  · obtain ⟨d, hd, rfl⟩ := map_eq_some_iff.mp he
    obtain ⟨hflight, hend⟩ := hinv.inFlight (call_actions hd).1
    obtain ⟨new, hunacked, hseq, hnext, -⟩ := (call_sends hflight hend hd halive').frames
    refine ⟨new, hunacked, ?_⟩
    rw [hseq, hnext, Nat.add_sub_cancel_left]

/-- A peer that acknowledges far ahead and leaves a gap in what it sends. -/
def harassed : Option Solo :=
  play (Solo.exec fun _ => 0) (fun _ _ => true) (Solo.init 4)
    [fun _ => .connect,
     fun _ => .onFrame ⟨flagSyn ||| flagAck, 2 ^ 60, 1, 5, []⟩,
     fun _ => .sendMessage [7] (List.Vector.replicate 16 0),
     fun _ => .onFrame ⟨flagAck, 1, 1, 8, [1]⟩]

theorem hostile_invariant_harassed : ∃ s, harassed = some s ∧
    s.core.unacked.map Unacked.seq = [1] ∧
    s.core.recvBuffer.entries.length = 1 ∧
    ∀ k ∈ s.core.recvBuffer, s.core.rcvNext < k ∧ k < s.core.rcvNext + 4 := by
  have hrun : (harassed.map fun s =>
      (s.core.unacked.map Unacked.seq, s.core.recvBuffer.entries.length)) = some ([1], 1) := by
    decide +kernel
  obtain ⟨s, hs, hfields⟩ := map_eq_some_iff.mp hrun
  obtain ⟨hunacked, hbuffered⟩ := Prod.mk.inj hfields
  have hreach : Solo.Reachable (fun _ => 0) 4 s := guardedRun_play (fun _ _ _ => trivial) hs
  exact ⟨s, hs, hunacked, hbuffered, (hostile_invariant 4 s hreach).2.1⟩

end Telesthete.Channel
