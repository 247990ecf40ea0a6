import Telesthete.Proofs.ChannelInv
import Telesthete.Proofs.PythonChannel

/-!
# A Rust core whose peer may be a Python channel

`Half` describes a core whose peer's log has the shape of a core's. A Python
peer's log has less of one, and this is what is left of the argument. The
sending half of a core does not look at its peer's log, so the pieces of
`Half` about it are taken as they are. The receiving half reads the peer's
log from where the handshake puts it: a core takes its start from the first
SYN it gets, and whatever comes before that SYN is never fed. Nothing is
missed if the peer's log is `SynFirst` at that moment, and it is, because a
core in the handshake has said one frame at most.
-/

namespace Telesthete.Python

open Telesthete.Lib Telesthete.Wire Telesthete.Channel

namespace Core

variable {log peer : Log} {acked : Nat} {q : List Bytes} {c d : ChannelCore}
variable {now : Nat → Nat} {inp : Option ChannelFrame}

/-- The sending half of a core. -/
structure Speaks (log : Log) (acked : Nat) (q : List Bytes) (c : ChannelCore) : Prop where
  snd : Snd log acked c
  phase : Phase log c
  queue : Queue log q c
  idle : Idle c
  unsaid : c.dead = false → c.state = .closed → log = []
  greeted : c.dead = false → c.state = .synSent → log.length = 1

/-- The receiving half. -/
structure Hears (peer : Log) (c : ChannelCore) : Prop where
  heard : Heard peer c.rcvNext c.fed
  buffered : ∀ k f, c.recvBuffer.lookup k = some f → ∃ u ∈ peer, u.seq = k ∧ f.Carries u

/-- Both, after the log may have grown and more was received. -/
def Advances (log : Log) (q : List Bytes) (peer : Log) (c d : ChannelCore) : Prop :=
  ∃ ext acked, Speaks (log ++ ext) acked q d ∧ Hears peer d ∧ c.rcvNext ≤ d.rcvNext

theorem advances_same (hs : Speaks log acked q d) (hh : Hears peer d)
    (hle : c.rcvNext ≤ d.rcvNext) : Advances log q peer c d :=
  ⟨[], acked, by rw [List.append_nil]; exact hs, hh, hle⟩

theorem Hears.extend {ext : Log} (h : Hears peer c) : Hears (peer ++ ext) c where
  heard := h.heard.extend
  buffered := by
    intro k f hk
    obtain ⟨u, hu, hc⟩ := h.buffered k f hk
    exact ⟨u, List.mem_append_left _ hu, hc⟩

theorem Speaks.sender (h : Speaks log acked q c) : Sender log acked q c :=
  ⟨h.snd, h.phase, h.queue⟩

/-- The handshake is behind a core in one of these states. -/
theorem Speaks.of_open (h : Sender log acked q c)
    (hstate : c.state = .established ∨ c.state = .finSent) : Speaks log acked q c where
  snd := h.snd
  phase := h.phase
  queue := h.queue
  idle := idle_of_open hstate
  unsaid := by
    intro _ hc
    rcases hstate with h | h <;> exact absurd (h.symm.trans hc) (by decide)
  greeted := by
    intro _ hc
    rcases hstate with h | h <;> exact absurd (h.symm.trans hc) (by decide)

/-- An action that leaves the queue and the state as they are. -/
theorem Speaks.congr {n : Nat} (h : Speaks log acked q c) (hsnd : Snd log n d)
    (hqueue : d.sendQueue = c.sendQueue) (hdead : d.dead = c.dead) (hstate : d.state = c.state)
    (hidle : Idle d) : Speaks log n q d where
  snd := hsnd
  phase := h.phase.congr hstate hdead
  queue := h.queue.congr hqueue hdead
  idle := hidle
  unsaid := by rw [hdead, hstate]; exact h.unsaid
  greeted := by rw [hdead, hstate]; exact h.greeted

/-! ## Sending -/

theorem Speaks.syn (h : Speaks log acked q c) (halive : c.dead = false)
    (hstate : c.state = .closed) :
    Speaks (log ++ [⟨flagSyn, c.sendNext, []⟩]) acked q
      ({ c with state := .synSent }.emitNext flagSyn []) := by
  obtain ⟨hsnd, hphase, hqueue⟩ := h.sender.syn halive hstate
  exact
    { snd := hsnd
      phase := hphase
      queue := hqueue
      idle := fun _ _ => h.idle halive (.inl hstate)
      unsaid := fun _ he => (by cases he)
      greeted := fun _ _ => by rw [h.unsaid halive hstate]; rfl }

theorem Speaks.teardown (h : Speaks log acked q c) : Speaks log acked q c.teardown where
  snd := h.sender.teardown.snd
  phase := h.sender.teardown.phase
  queue := h.sender.teardown.queue
  idle := fun hd => by cases hd
  unsaid := fun hd => by cases hd
  greeted := fun hd => by cases hd

/-! ## The handshake -/

/-- A core in the handshake has said one frame at most. -/
theorem Speaks.length_le_one (h : Speaks log acked q c) (halive : c.dead = false)
    (hstate : c.state = .closed ∨ c.state = .synSent) : log.length ≤ 1 := by
  rcases hstate with hc | hs
  · rw [h.unsaid halive hc]
    exact Nat.zero_le _
  · exact le_of_eq (h.greeted halive hs)

/-- Taking the start of the stream from a SYN. -/
theorem Hears.synced {f : ChannelFrame} {u : Unacked} (h : Hears peer c) (hfirst : SynFirst peer)
    (hnum : Numbered Unacked.seq peer) (hidle : c.rcvNext = 0 ∧ c.recvBuffer = ∅) (hu : u ∈ peer)
    (hsyn : u.IsSyn) (hc : f.Carries u) (hrcv : d.rcvNext = f.seq + 1)
    (hbuf : d.recvBuffer = c.recvBuffer) (hfed : d.fed = c.fed) : Hears peer d where
  heard :=
    { le := by
        rw [hrcv, hc.2.1]
        exact hnum.seq_lt hu
      fed := by
        rw [hfed, h.heard.fed, hidle.1, hrcv, hc.2.1, hfirst.payloads_take hnum hu hsyn]
        rfl }
  buffered := by
    intro k g hk
    rw [hbuf, hidle.2, AList.lookup_empty] at hk
    cases hk

/-! ## Receiving -/

/-- The frame whose turn it is leaves the buffer. -/
theorem Hears.consumed {fr : ChannelFrame} (h : Hears peer c) (hnum : Numbered Unacked.seq peer)
    (hdue : c.recvBuffer.lookup c.rcvNext = some fr) (hrcv : d.rcvNext = c.rcvNext + 1)
    (hbuf : d.recvBuffer = c.recvBuffer.erase c.rcvNext)
    (hfed : d.fed = c.fed ++ if fr.data = [] then [] else [fr.data]) : Hears peer d := by
  obtain ⟨u, hu, hseq, hc⟩ := h.buffered _ _ hdue
  have hget : peer[c.rcvNext]? = some u := by
    rw [← hseq]
    exact hnum.getElem?_seq hu
  refine ⟨?_, ?_⟩
  · rw [hrcv, hfed, hc.2.2]
    exact h.heard.next hget
  · intro k f hk
    rw [hbuf, lookup_erase_ite] at hk
    exact h.buffered k f (Option.ite_none_left_eq_some.mp hk).2

theorem Speaks.consume {fr : ChannelFrame} (hs : Speaks log acked q c)
    (hh : Hears peer c) (hnum : Numbered Unacked.seq peer) (hkinds : Kinds peer)
    (halive : c.dead = false) (hstate : c.state = .established ∨ c.state = .finSent)
    (hdue : c.recvBuffer.lookup c.rcvNext = some fr) :
    Advances log q peer c (c.consume now fr) := by
  obtain ⟨u, hu, -, hc⟩ := hh.buffered _ _ hdue
  rw [ChannelCore.consume]
  simp only
  split
  · next hfin =>
    have hdata : fr.data = [] := by
      rw [hc.2.2]
      exact (hkinds.isFin hu hc hfin).2
    have hmid : Speaks log acked q
        { c with recvBuffer := c.recvBuffer.erase c.rcvNext, rcvNext := c.rcvNext + 1,
                 peerClosed := true } :=
      hs.congr (hs.snd.congr rfl rfl rfl (Nat.le_succ _) rfl rfl) rfl rfl rfl (idle_of_open hstate)
    have hfed : c.fed = c.fed ++ if fr.data = [] then [] else [fr.data] := by
      rw [if_pos hdata, List.append_nil]
    split
    · next hest =>
      exact ⟨_, acked, .of_open (hmid.sender.sendFin halive hest c.closing) (.inr rfl),
        hh.consumed hnum hdue rfl rfl hfed, Nat.le_succ _⟩
    · exact advances_same hmid (hh.consumed hnum hdue rfl rfl hfed) (Nat.le_succ _)
  · split
    · next hdata =>
      refine advances_same (hs.congr (hs.snd.congr rfl rfl rfl (Nat.le_succ _) rfl rfl) rfl rfl rfl
        (idle_of_open hstate)) (hh.consumed hnum hdue rfl rfl ?_) (Nat.le_succ _)
      rw [if_neg hdata]
    · next hdata =>
      refine advances_same (hs.congr (hs.snd.congr rfl rfl rfl (Nat.le_succ _) rfl rfl) rfl rfl rfl
        (idle_of_open hstate)) (hh.consumed hnum hdue rfl rfl ?_) (Nat.le_succ _)
      rw [if_pos (not_not.mp hdata), List.append_nil]

/-- A frame of the peer's is kept for its turn. -/
theorem Hears.buffer {f : ChannelFrame} {u : Unacked} (h : Hears peer c) (hu : u ∈ peer)
    (hc : f.Carries u) : Hears peer { c with recvBuffer := c.recvBuffer.insert f.seq f } := by
  refine ⟨h.heard, fun k g hk => ?_⟩
  rw [lookup_insert_ite] at hk
  split at hk
  · next heq =>
    cases hk
    exact ⟨u, hu, hc.2.1.symm.trans heq.symm, hc⟩
  · exact h.buffered k g hk

/-! ## One action, and all of them -/

/-- What a core gets: frames of the peer's, whose log starts with its SYNs as
long as the core is in the handshake. -/
structure Input (log peer : Log) (inp : Option ChannelFrame) : Prop where
  numbered : Numbered Unacked.seq peer
  kinds : Kinds peer
  frame : ∀ f, inp = some f → ∃ n w, FrameOk peer n w f
  first : log.length ≤ 1 → SynFirst peer

theorem Input.extend (h : Input log peer inp) (ext : Log) :
    Input (log ++ ext) peer inp := by
  refine { h with first := fun hlen => h.first ?_ }
  rw [List.length_append] at hlen
  omega

theorem Speaks.action (hs : Speaks log acked q c)
    (hh : Hears peer c) (halive : c.dead = false) (hin : Input log peer inp)
    (hact : Action now inp c d) : Advances log q peer c d := by
  cases hact with
  | syn hstate => exact ⟨_, acked, hs.syn halive hstate, ⟨hh.heard, hh.buffered⟩, le_rfl⟩
  | chunk hstate hqueue =>
    exact ⟨_, acked, .of_open (hs.sender.chunk halive hstate hqueue) (.inl hstate),
      ⟨hh.heard, hh.buffered⟩, le_rfl⟩
  | fin hstate _ _ =>
    exact ⟨_, acked, .of_open (hs.sender.sendFin halive hstate false) (.inr rfl),
      ⟨hh.heard, hh.buffered⟩, le_rfl⟩
  | closing =>
    exact advances_same (hs.congr (hs.snd.congr rfl rfl rfl (le_rfl) rfl rfl) rfl rfl rfl
      hs.idle) ⟨hh.heard, hh.buffered⟩ (le_rfl)
  | retry _ =>
    exact advances_same (hs.congr (hs.snd.congr rfl rfl rfl (le_rfl) rfl rfl) rfl rfl rfl
      hs.idle) ⟨hh.heard, hh.buffered⟩ (le_rfl)
  | resend hu =>
    exact advances_same (hs.congr (hs.snd.resend halive hu) rfl rfl rfl hs.idle)
      ⟨hh.heard, hh.buffered⟩ (le_rfl)
  | exhausted _ _ => exact advances_same hs.teardown ⟨hh.heard, hh.buffered⟩ (le_rfl)
  | ack _ =>
    exact advances_same (hs.congr (hs.snd.ack.congr rfl rfl rfl (le_rfl) rfl rfl) rfl rfl rfl
      hs.idle) ⟨hh.heard, hh.buffered⟩ (le_rfl)
  | rst hinp hrst =>
    obtain ⟨n, w, hf⟩ := hin.frame _ hinp
    rw [hf.not_rst_of_kinds hin.kinds] at hrst
    cases hrst
  | respond hinp hstate hsyn =>
    obtain ⟨n, w, hf⟩ := hin.frame _ hinp
    obtain ⟨u, hu, hus, hc⟩ := hf.syn_of_kinds hin.kinds hsyn
    have hidle := hs.idle halive hstate
    refine ⟨_, acked, .of_open (hs.sender.respond halive hstate hidle.1) (.inl rfl), ?_,
      by rw [hidle.1]; exact Nat.zero_le _⟩
    exact hh.synced (hin.first (hs.length_le_one halive hstate)) hin.numbered hidle hu hus hc
      rfl rfl rfl
  | opened hinp hstate hsyn =>
    obtain ⟨n, w, hf⟩ := hin.frame _ hinp
    obtain ⟨u, hu, hus, hc⟩ := hf.syn_of_kinds hin.kinds hsyn
    have hidle := hs.idle halive (.inr hstate)
    refine advances_same (.of_open (hs.sender.opened halive hstate hidle.1) (.inl rfl)) ?_
      (by rw [hidle.1]; exact Nat.zero_le _)
    exact hh.synced (hin.first (hs.length_le_one halive (.inr hstate))) hin.numbered hidle hu hus hc
      rfl rfl rfl
  | pureAck _ =>
    exact advances_same (hs.congr hs.snd.emitPureAck rfl rfl rfl hs.idle)
      ⟨hh.heard, hh.buffered⟩ (le_rfl)
  | buffer hinp hstate hcons _ _ =>
    obtain ⟨n, w, hf⟩ := hin.frame _ hinp
    obtain ⟨u, hu, hc⟩ := hf.consumes hcons
    exact advances_same (hs.congr (hs.snd.congr rfl rfl rfl (le_rfl) rfl rfl) rfl rfl rfl
      (idle_of_open hstate)) (hh.buffer hu hc) (le_rfl)
  | consume hstate hdue => exact hs.consume hh hin.numbered hin.kinds halive hstate hdue

theorem Speaks.actions (hs : Speaks log acked q c)
    (hh : Hears peer c) (hin : Input log peer inp) (hacts : Actions now inp c d) :
    Advances log q peer c d := by
  induction hacts with
  | refl => exact advances_same hs hh (le_rfl)
  | tail _ hlast ih =>
    obtain ⟨ext, k, hs', hh', hle⟩ := ih
    obtain ⟨ext', k', hs'', hh'', hle'⟩ := hs'.action hh' hlast.1 (hin.extend ext) hlast.2
    rw [List.append_assoc] at hs''
    exact ⟨ext ++ ext', k', hs'', hh'', le_trans hle hle'⟩

/-- The chunks of a message are queued. -/
theorem Speaks.enqueue {chunks : List Bytes} (h : Speaks log acked q c)
    (hchunks : ∀ chunk ∈ chunks, chunk ≠ []) :
    Speaks log acked (q ++ chunks) (c.enqueue chunks) where
  snd := h.snd.congr rfl rfl rfl (le_rfl) rfl rfl
  phase := h.phase.congr rfl rfl
  queue :=
    { nonempty := by
        intro chunk hchunk
        rcases List.mem_append.mp hchunk with hold | hnew
        · exact h.queue.nonempty chunk hold
        · exact hchunks chunk hnew
      sub := h.queue.sub.trans (List.prefix_append q chunks)
      eq := by
        intro halive
        rw [← h.queue.eq halive, List.append_assoc]
        rfl }
  idle := h.idle
  unsaid := h.unsaid
  greeted := h.greeted

theorem speaks_new (window : UInt16) : Speaks [] 0 [] (ChannelCore.new window) where
  snd := ⟨logOk_nil, rfl, le_rfl, fun _ => rfl, fun _ h => (by cases h)⟩
  phase := ⟨fun _ _ _ h => (by cases h), fun _ _ _ h => (by cases h), fun _ h => (by cases h)⟩
  queue := ⟨fun _ h => (by cases h), List.prefix_rfl, fun _ => rfl⟩
  idle := fun _ _ => ⟨rfl, rfl⟩
  unsaid := fun _ _ => rfl
  greeted := fun _ h => by cases h

theorem hears_new (window : UInt16) : Hears [] (ChannelCore.new window) where
  heard := ⟨le_rfl, rfl⟩
  buffered := fun _ _ h => by cases h

end Core

end Telesthete.Python
