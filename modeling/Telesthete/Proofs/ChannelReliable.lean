import Telesthete.Proofs.ChannelInv

/-!
# The reliable stream: what is fed is what was queued

`LinkInv` joins two `Half`s over the network. The network is the part that
needs a bound from outside: a frame is a byte string, and it parses back to
the frame its sender built only while the sequence numbers fit the wire
format. Sequence numbers never go down, so assuming that they fit at the end
of a run says they fitted all along, and every run that fits keeps the
invariant (`Reachable.linkInv`).

The theorem then reads off: a core has fed its reassembler the payloads of
the part of the peer's log it consumed, a prefix of the payloads of the log,
which are a prefix of the chunks queued.
-/

namespace Telesthete.Channel

open Telesthete.Lib Telesthete.Wire

variable {L L' : Link} {log : Side → Log} {acked : Side → Nat} {x : Side}
variable {q : List Bytes} {c : ChannelCore} {n k : Nat} {now : Side → Nat → Nat} {e : Event}

/-- Both sides and everything on the network agree with the two logs. -/
structure LinkInv (L : Link) (log : Side → Log) (acked : Side → Nat) : Prop where
  half : ∀ x, Half (log x) (acked x) (L.core x.other).rcvNext (L.queued x) (log x.other) (L.core x)
  net : ∀ x, ∀ b ∈ L.emitted x, WireOk (log x) (L.core x).rcvNext (L.core x).window b

/-- The sequence numbers of both sides fit the wire. -/
def Link.Fits (L : Link) : Prop := ∀ x, (L.core x).sendNext < 2 ^ 64

theorem Half.mono {log peer : Log} {n m k : Nat}
    (h : Half log k n q peer c) (hle : n ≤ m) : Half log k m q peer c :=
  ⟨h.snd, le_trans h.ackedBound hle, h.phase, h.queue, h.rcv, h.idle⟩

theorem Half.extend {log peer ext : Log}
    (h : Half log k n q peer c) (hlog : LogOk (peer ++ ext)) : Half log k n q (peer ++ ext) c :=
  ⟨h.snd, h.ackedBound, h.phase, h.queue, h.rcv.extend hlog, h.idle⟩

theorem linkInv_init (window : Side → UInt16) :
    LinkInv (Link.init window) (fun _ => []) (fun _ => 0) where
  half _ :=
    { snd := ⟨logOk_nil, rfl, le_rfl, fun _ => rfl, by simp [Link.init, ChannelCore.new]⟩
      ackedBound := le_rfl
      phase := ⟨by simp, by simp, fun _ he => nomatch he⟩
      queue := ⟨by simp [Link.queued, Link.init], ⟨_, rfl⟩, fun _ => rfl⟩
      rcv := ⟨logOk_nil, le_rfl, rfl, by simp [Link.init, ChannelCore.new], nofun⟩
      idle := fun _ _ => ⟨rfl, rfl⟩ }
  net := by simp [Link.init]

/-- One side moved on to `d`; the other side and the rest of the network are
as they were. -/
structure Moved (L L' : Link) (x : Side) (d : ChannelCore) : Prop where
  core : L'.core = Function.update L.core x d
  window : d.window = (L.core x).window
  emitted : ∀ b ∈ L'.emitted x, b ∈ L.emitted x ∨ b ∈ d.outbox
  emittedOther : L'.emitted x.other = L.emitted x.other
  queuedOther : L'.queued x.other = L.queued x.other

/-- The joint invariant follows one side's move: the other side sees a longer
log and a receive position further on. Logs only grow. -/
theorem LinkInv.moved {d : ChannelCore} (h : LinkInv L log acked) (hm : Moved L L' x d)
    (hadv : Advanced (log x) (L.core x.other).rcvNext (L'.queued x) (log x.other) (L.core x) d) :
    ∃ log' acked', LinkInv L' log' acked' ∧ ∀ y, log y <+: log' y := by
  obtain ⟨ext, k, hd, hrcv⟩ := hadv
  have hcx : L'.core x = d := by rw [hm.core]; simp
  have hcy : L'.core x.other = L.core x.other := by rw [hm.core]; simp
  refine ⟨Function.update log x (log x ++ ext), Function.update acked x k, ⟨?_, ?_⟩, ?_⟩
  · intro y
    rcases Side.eq_or_eq_other x y with rfl | rfl
    · simpa [hcx, hcy] using hd
    · have hy := ((h.half x.other).mono (by simpa using hrcv)).extend
        (by simpa using hd.snd.logOk)
      simpa [hcx, hcy, hm.queuedOther] using hy
  · intro y b hb
    rcases Side.eq_or_eq_other x y with rfl | rfl
    · simp only [hcx, Function.update_self]
      rcases hm.emitted b hb with hb | hb
      · rw [hm.window]
        exact (h.net y b hb).mono hrcv
      · exact hd.snd.wire b hb
    · rw [hm.emittedOther] at hb
      simpa [hcy] using h.net x.other b hb
  · intro y
    rcases Side.eq_or_eq_other x y with rfl | rfl <;> simp

/-- A frame on the network parses back to what its sender's log explains. -/
theorem LinkInv.input (h : LinkInv L log acked) (hfits : L.Fits) {b : Bytes} {f : ChannelFrame}
    (hb : b ∈ L.emitted x.other) (hf : ChannelFrame.parse b = some f) :
    FrameOk (log x.other) (L.core x.other).rcvNext (L.core x.other).window f := by
  obtain ⟨g, rfl, hg⟩ := h.net x.other b hb
  have hlog : LogOk (log x.other) := (h.half x.other).snd.logOk
  have hseq : g.seq < 2 ^ 64 := by
    have := hg.seq
    have := (h.half x.other).snd.len
    have := hfits x.other
    omega
  have hack : g.ackNum < 2 ^ 64 := by
    have := hg.ackNum
    have hle := (h.half x.other).rcv.le
    have hlen := (h.half x).snd.len
    have := hfits x
    rw [Side.other_other] at hle
    omega
  rw [ChannelFrame.parse_serialize (hg.reserved hlog) hack hseq] at hf
  rw [← Option.some.inj hf]
  exact hg

theorem Half.enqueue {log peer : Log} {q chunks : List Bytes}
    (h : Half log k n q peer c) (hchunks : ∀ chunk ∈ chunks, chunk ≠ []) :
    Half log k n (q ++ chunks) peer (c.enqueue chunks) where
  snd := h.snd.congr rfl rfl rfl (le_rfl) rfl rfl
  ackedBound := h.ackedBound
  phase := h.phase.congr rfl rfl
  queue :=
    { nonempty := by
        intro chunk hchunk
        rcases List.mem_append.mp hchunk with hchunk | hchunk
        · exact h.queue.nonempty chunk hchunk
        · exact hchunks chunk hchunk
      sub := h.queue.sub.trans (List.prefix_append q chunks)
      eq := by
        intro halive
        rw [← h.queue.eq halive, List.append_assoc]
        rfl }
  rcv := h.rcv.congr ⟨rfl, rfl, rfl, rfl, rfl⟩
  idle := h.idle

/-- What `sendMessage` adds to the chunks queued. -/
theorem Link.queued_record {d : ChannelCore} {fid : FragmentId} {msg : Bytes}
    {chunks : List Bytes} (hchunks : fragment msg Wire.maxChunkPayload fid = some chunks) :
    ((L.act x d).record x (fid, msg)).queued x = L.queued x ++ chunks := by
  simp [Link.queued, Link.record, Link.act, chunksOf, hchunks]

/-- Every event keeps the joint invariant. -/
theorem LinkInv.exec (h : LinkInv L log acked) (hfits : L.Fits) (he : Link.exec now L e = some L') :
    ∃ log' acked', LinkInv L' log' acked' ∧ ∀ y, log y <+: log' y := by
  have hinput : ∀ (x : Side) (inp : Option ChannelFrame),
      (∀ f, inp = some f → ∃ b ∈ L.emitted x.other, ChannelFrame.parse b = some f) →
      ∀ f, inp = some f →
        FrameOk (log x.other) (L.core x.other).rcvNext (L.core x.other).window f := by
    intro x inp hinp f hf
    obtain ⟨b, hb, hparse⟩ := hinp f hf
    exact h.input hfits hb hparse
  rcases Link.exec_cases he with ⟨x, inp, d, hacts, rfl⟩ | ⟨x, msg, fid, chunks, d, hchunks, hacts, rfl⟩ |
      ⟨x, i, rfl⟩
  · refine h.moved (x := x) (d := d) ⟨rfl, hacts.actions.window_eq, ?_, ?_, rfl⟩ ?_
    · intro b hb
      simpa [Link.act] using hb
    · simp [Link.act]
    · exact (h.half x).actions (hinput x inp hacts.input) hacts.actions
  · refine h.moved (x := x) (d := d) ⟨rfl, hacts.actions.window_eq, ?_, ?_, ?_⟩ ?_
    · intro b hb
      simpa [Link.act, Link.record] using hb
    · simp [Link.act, Link.record]
    · simp [Link.queued, Link.act, Link.record]
    · rw [Link.queued_record hchunks]
      exact ((h.half x).enqueue (fragment_ne_nil hchunks)).actions
        (hinput x none hacts.input) hacts.actions
  · refine h.moved (x := x) (d := _) ⟨rfl, rfl, fun b hb => .inl hb, rfl, rfl⟩ ?_
    have hx := h.half x
    refine advanced_same (acked x) ?_ (le_rfl)
    refine ⟨⟨hx.snd.logOk, hx.snd.len, hx.snd.ackedLe, hx.snd.unacked, ?_⟩, hx.ackedBound,
      hx.phase.congr rfl rfl, hx.queue.congr rfl rfl, hx.rcv.congr ⟨rfl, rfl, rfl, rfl, rfl⟩, hx.idle⟩
    intro b hb
    exact hx.snd.wire b (List.mem_of_mem_eraseIdx hb)

/-- Sequence numbers never go down. -/
theorem Link.exec_sendNext_le (he : Link.exec now L e = some L') (y : Side) :
    (L.core y).sendNext ≤ (L'.core y).sendNext := by
  rcases Link.exec_cases he with ⟨x, inp, d, hacts, rfl⟩ | ⟨x, msg, fid, chunks, d, -, hacts, rfl⟩ |
      ⟨x, i, rfl⟩
  · have := hacts.actions.sendNext_le
    rcases Side.eq_or_eq_other x y with rfl | rfl <;> simp [Link.act, this]
  · have := hacts.actions.sendNext_le
    rcases Side.eq_or_eq_other x y with rfl | rfl
    · simp only [Link.act, Link.record, Function.update_self]
      exact this
    · simp [Link.act, Link.record]
  · rcases Side.eq_or_eq_other x y with rfl | rfl <;> simp [Link.flush]

theorem Link.Fits.of_exec (hfits : L'.Fits) (he : Link.exec now L e = some L') : L.Fits := by
  intro x
  have := Link.exec_sendNext_le he x
  have := hfits x
  omega

/-- A side keeps the window it was made with. -/
theorem Link.Reachable.window_eq {window : Side → UInt16} (h : Link.Reachable now window L) :
    ∀ x, (L.core x).window = window x := by
  induction h with
  | refl => exact fun x => rfl
  | tail _ hstep ih =>
    obtain ⟨e, -, he⟩ := hstep
    intro y
    rw [← ih y]
    rcases Link.exec_cases he with ⟨x, inp, d, hacts, rfl⟩ |
        ⟨x, msg, fid, chunks, d, -, hacts, rfl⟩ | ⟨x, i, rfl⟩
    · have hw := hacts.actions.window_eq
      rcases Side.eq_or_eq_other x y with rfl | rfl <;> simp [Link.act, hw]
    · have hw := hacts.actions.window_eq
      rcases Side.eq_or_eq_other x y with rfl | rfl
      · simp only [Link.act, Link.record, Function.update_self]
        exact hw
      · simp [Link.act, Link.record]
    · rcases Side.eq_or_eq_other x y with rfl | rfl <;> simp [Link.flush]

/-- The joint invariant holds in every state a connection can be in. -/
theorem Link.Reachable.linkInv {window : Side → UInt16}
    (h : Link.Reachable now window L) (hfits : L.Fits) : ∃ log acked, LinkInv L log acked := by
  induction h with
  | refl => exact ⟨_, _, linkInv_init window⟩
  | tail _ hstep ih =>
    obtain ⟨e, -, he⟩ := hstep
    have hfits' := hfits.of_exec he
    obtain ⟨log, acked, hinv⟩ := ih hfits'
    obtain ⟨log', acked', hinv', -⟩ := hinv.exec hfits' he
    exact ⟨log', acked', hinv'⟩

theorem LinkInv.fed_isPrefix (h : LinkInv L log acked) (x : Side) :
    (L.core x).fed <+: L.queued x.other := by
  rw [(h.half x).rcv.fed]
  refine List.IsPrefix.trans ?_ (h.half x.other).queue.sub
  conv => rhs; rw [← List.take_append_drop (L.core x).rcvNext (log x.other), payloads_append]
  exact List.prefix_append _ _

/-- The payloads a core has handed to its reassembler are, at every moment
of every run, a prefix of the chunks its peer has queued. -/
theorem fed_isPrefix_queued {now : Side → Nat → Nat} {window : Side → UInt16}
    (hreach : Link.Reachable now window L) (hfits : ∀ y, (L.core y).sendNext < 2 ^ 63) (x : Side) :
    (L.core x).fed <+: L.queued x.other := by
  have hfits64 : L.Fits := fun y => lt_trans (hfits y) (by decide)
  obtain ⟨log, acked, hinv⟩ := hreach.linkInv hfits64
  exact hinv.fed_isPrefix x

/-- Open, send two messages, deliver their frames in the wrong order. -/
def reordered : Option Link :=
  play (Link.exec fun _ _ => 0) (fun _ _ => true) (Link.init fun _ => 4)
    [fun _ => .connect .a, Link.pass .b 0, Link.pass .a 0,
     fun _ => .sendMessage .a [1] (List.Vector.replicate 16 1),
     fun _ => .sendMessage .a [2] (List.Vector.replicate 16 2),
     Link.pass .b 3, Link.pass .b 2]

theorem fed_isPrefix_queued_reordered : ∃ L, reordered = some L ∧
    (L.core .b).fed.length = 2 ∧ (L.core .b).fed <+: L.queued .a := by
  refine exists_some (fun L => (L.core .b).fed.length = 2 ∧ ∀ y, (L.core y).sendNext < 2 ^ 63)
    (by decide +kernel) ?_
  rintro L hL ⟨hlen, hfits⟩
  exact ⟨hlen, fed_isPrefix_queued (Link.reachable_play hL) hfits .b⟩

end Telesthete.Channel
