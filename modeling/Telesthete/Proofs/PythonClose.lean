import Telesthete.Lib.Inevitable
import Telesthete.Proofs.PythonFin

/-!
# The close handshake of two Python channels

`close` sends a FIN behind what is queued and waits. The FIN is kept and
sent again until it is acknowledged. The other end, when the FIN's turn has
come, answers with a FIN of its own and tears itself down at once, and with
that drops what it kept for retransmission, the answer included. So the
answer goes out once. If it gets through, both ends are closed
(`close_completes`). If it is lost, the FIN is sent again and acknowledged,
and from then on nobody has anything left to send (`close_stuck`).

The runs are infinite, and the application does nothing in them: what
happens is that frames are delivered and that the retransmit tasks run. In
particular the wait of `close` does not end by its timeout.
-/

namespace Telesthete.Python

open Telesthete.Lib Telesthete.Wire Telesthete.Channel

namespace Connection

variable {L L' : Connection} {x z : Side} {seq : Nat}

/-! ## The start -/

/-- A channel that is not torn down at the end of a run was never torn down in it. -/
theorem sendsOpen_of_run {ends : Side → End} (h : GuardedRun exec OpensOnce (init ends) L)
    (hopen : ∀ y c, L.ends y = .python c → c.closed = false) :
    GuardedRun exec (fun L ev => L.OpensOnce ev ∧ L.SendsOpen ev) (init ends) L := by
  induction h with
  | refl => exact .refl
  | @tail M N _ hlast ih =>
    obtain ⟨ev, hopens, he⟩ := hlast
    have hM : ∀ y c, M.ends y = .python c → c.closed = false := by
      intro y c hc
      have hlater := exec_later he y
      rw [hc] at hlater
      cases hd : N.ends y with
      | rust d =>
        rw [hd] at hlater
        cases hlater
      | python d =>
        rw [hd] at hlater
        have hlater : c.Later d := hlater
        refine Bool.eq_false_iff.mpr fun hclosed => ?_
        have hstill := hlater.closed hclosed
        rw [hopen y d hd] at hstill
        cases hstill
    have hsends : M.SendsOpen ev := by
      cases ev with
      | sendMessage x msg fid now => exact hM x
      | _ => trivial
    exact (ih hM).tail ⟨ev, ⟨hopens, hsends⟩, he⟩

/-- With nothing kept for retransmission, everything sent was received. -/
theorem Sound.received (h : Sound L) (hopen : (L.channel z).closed = false)
    (hbuffer : (L.channel z).sendBuffer = []) :
    (L.channel z.other).rcvNext = (L.channel z).sndNext := by
  obtain ⟨log, hjoint⟩ := h.joint
  have hends := hjoint.speaks z
  rw [h.ample.ends_eq z, h.ample.ends_eq z.other] at hends
  have hspeaks : (L.channel z).Speaks (log z) (L.channel z.other).rcvNext (L.queued z) := hends
  have hheard := (hjoint.hears z.other).heard.le
  rw [h.ample.ends_eq z.other, Side.other_other] at hheard
  have hle : (L.channel z.other).rcvNext ≤ (log z).length := hheard
  have hlen := hspeaks.said.len
  rcases lt_or_ge (L.channel z.other).rcvNext (log z).length with hlt | hge
  · have hget := List.getElem?_eq_getElem hlt
    have hseq := hspeaks.said.numbered _ _ hget
    rcases hspeaks.kept hopen _ (List.mem_of_getElem? hget) with hbelow | ⟨p, hp, -⟩
    · omega
    · rw [hbuffer] at hp
      cases hp
  · omega

/-- `close` on an idle connection. -/
theorem asked_of_close {now : Nat} (h : Sound L)
    (hstate : ∀ y, (L.channel y).state = .established) (hqueue : ∀ y, (L.channel y).sendQueue = [])
    (hbuffer : ∀ y, (L.channel y).sendBuffer = []) (hopen : ∀ y, (L.channel y).closed = false)
    (hfirst : (L.channel x).closing = false) (he : L.exec (.close x now) = some L') :
    Asked (L.channel x).sndNext (L'.channel x) (L'.channel x.other) := by
  obtain ⟨e, hop, rfl⟩ := Option.map_eq_some_iff.mp he
  rw [h.ample.ends_eq x] at hop
  cases hop
  have hroomy : (L.channel x).Roomy ((L.channel x).rcvNext + 1) := by
    have hends := h.ample.ends x
    rw [h.ample.ends_eq x] at hends
    exact hends
  have hback := h.received (hopen x.other) (hbuffer x.other)
  rw [Side.other_other] at hback
  rw [channel_act_self, channel_act_of_ne L (Side.other_ne x),
    Channel.close_of_nil now (hstate x) hfirst (hqueue x) (hbuffer x) hroomy.remote]
  exact
    { state := rfl
      queue := rfl
      kept := by
        rw [hbuffer x]
        rfl
      sndNext := rfl
      otherState := hstate x.other
      otherQueue := hqueue x.other
      otherBuffer := hbuffer x.other
      due := h.received (hopen x) (hbuffer x)
      even := hback }

/-! ## Closing runs -/

/-- A frame with this number is handed to `z`. -/
def Event.Delivers (z : Side) (seq : Nat) : Event → Prop
  | .deliver y b _ => y = z ∧ ∃ f, ChannelFrame.parse b = some f ∧ f.consumesSeq = true ∧ f.seq = seq
  | _ => False

/-- An infinite run that starts with `x` calling `close` and in which the
application does nothing more and the wait does not time out. -/
structure ClosingRun (x : Side) (L : Connection) (run : Nat → Connection) (event : Nat → Event) :
    Prop where
  start : ∃ now, L.exec (.close x now) = some (run 0)
  step : ∀ n, (run n).exec (event n) = some (run (n + 1))
  waits : ∀ n, (event n).Waits
  /-- A frame that is kept for retransmission for ever is delivered. -/
  delivers : ∀ y seq n, (∀ m, n ≤ m → ∃ p ∈ ((run m).channel y).sendBuffer, p.seq = seq) →
    ∃ m, n ≤ m ∧ (event m).Delivers y.other seq
  /-- No frame is retransmitted as often as would end the channel. -/
  spared : ∀ n y, ∀ p ∈ ((run n).channel y).sendBuffer, p.retries < maxRetries

/-- A FIN that the other end transmits is delivered to `x`. -/
def AnswerArrives (x : Side) (run : Nat → Connection) (event : Nat → Event) : Prop :=
  ∀ n b f, b ∈ (run (n + 1)).emitted x.other → b ∉ (run n).emitted x.other →
    ChannelFrame.parse b = some f → f.has flagFin = true →
      ∃ m now, n < m ∧ event m = .deliver x b now

section run

variable {run : Nat → Connection} {event : Nat → Event}

theorem ClosingRun.sound (h : ClosingRun x L run event) (hfits : ∀ n, (run n).Fits)
    (hsound : Sound (run 0)) : ∀ n, Sound (run n) := by
  intro n
  induction n with
  | zero => exact hsound
  | succ n ih => exact ih.waits (hfits n) (h.waits n) (h.step n)

/-- The FIN is answered. -/
theorem ClosingRun.replied (h : ClosingRun x L run event) (hfits : ∀ n, (run n).Fits)
    (hsound : ∀ n, Sound (run n)) (hasked : Asked seq ((run 0).channel x) ((run 0).channel x.other)) :
    ∃ n seq' answer, answer ∉ (run n).emitted x.other ∧ Replied x seq' answer (run (n + 1)) := by
  have hstep : ∀ n, Asked seq ((run n).channel x) ((run n).channel x.other) →
      Asked seq ((run (n + 1)).channel x) ((run (n + 1)).channel x.other) ∨
        ∃ seq' answer, answer ∉ (run n).emitted x.other ∧ Replied x seq' answer (run (n + 1)) :=
    fun n hn => hn.step (hsound n) (hfits n) (h.spared n) (h.waits n) (h.step n)
  by_cases hall : ∀ n, Asked seq ((run n).channel x) ((run n).channel x.other)
  · -- the FIN is kept for ever, so it is delivered
    have hkept : ∀ m, 0 ≤ m → ∃ p ∈ ((run m).channel x).sendBuffer, p.seq = seq := by
      intro m _
      have hmem : (⟨flagFin ||| flagAck, seq, []⟩ : Unacked) ∈
          ((run m).channel x).sendBuffer.map Pending.entry := by
        rw [(hall m).kept]
        exact List.mem_singleton_self _
      obtain ⟨p, hp, hentry⟩ := List.mem_map.mp hmem
      exact ⟨p, hp, congrArg Unacked.seq hentry⟩
    obtain ⟨m, -, hdelivers⟩ := h.delivers x seq 0 hkept
    obtain ⟨z, d, hL, ⟨b, now, f, hev, hb, hf, rfl⟩ | ⟨now, hev, -⟩⟩ :=
      (hsound m).ample.waits_cases (h.waits m) (h.step m)
    · rw [hev] at hdelivers
      obtain ⟨rfl, g, hg, hcons, hseq⟩ := hdelivers
      obtain rfl := Option.some.inj (hf.symm.trans hg)
      rw [Side.other_other] at hb
      exact ⟨m, (hall m).delivered (hsound m) (hfits m) hb hf hcons hseq hL⟩
    · rw [hev] at hdelivers
      cases hdelivers
  · obtain ⟨m, hm⟩ := not_forall.mp hall
    obtain ⟨n, -, k, -, hk⟩ := exists_of_unless
      (P := fun n => Asked seq ((run n).channel x) ((run n).channel x.other))
      (Q := fun n => ∃ k, n = k + 1 ∧ ∃ seq' answer, answer ∉ (run k).emitted x.other ∧
        Replied x seq' answer (run (k + 1)))
      (fun n hn => (hstep n hn).imp id fun hr => ⟨n, rfl, hr⟩) hasked (Nat.zero_le m) hm
    exact ⟨k, hk⟩

/-- The answer arrives, and both ends are closed. -/
theorem ClosingRun.torn (h : ClosingRun x L run event) (hfits : ∀ n, (run n).Fits)
    (hsound : ∀ n, Sound (run n)) (harrives : AnswerArrives x run event) {n : Nat} {answer : Bytes}
    (hnew : answer ∉ (run n).emitted x.other) (hreplied : Replied x seq answer (run (n + 1))) :
    ∃ t, ∀ y, ((run t).channel y).Torn := by
  have hstep : ∀ k, Replied x seq answer (run k) →
      Replied x seq answer (run (k + 1)) ∨ ∀ y, ((run (k + 1)).channel y).Torn :=
    fun k hk => hk.step (hsound k) (hfits k) (h.spared k) (h.waits k) (h.step k)
  obtain ⟨hmem, f, hf, hfin, hseq⟩ := hreplied.2
  have hflag : f.has flagFin = true := by
    rw [ChannelFrame.has, hfin.flags]
    decide
  obtain ⟨m, now, hlt, hev⟩ := harrives n answer f hmem hnew hf hflag
  by_cases hm : Replied x seq answer (run m)
  · obtain ⟨z, d, hL, ⟨b', now', f', hev', hb', hf', rfl⟩ | ⟨now', hev', -⟩⟩ :=
      (hsound m).ample.waits_cases (h.waits m) (h.step m)
    · rw [hev] at hev'
      obtain ⟨rfl, rfl, rfl⟩ := Event.deliver.inj hev'
      obtain rfl := Option.some.inj (hf.symm.trans hf')
      exact ⟨m + 1, hm.delivered (hsound m) (hfits m) hb' hf hfin.consumes hseq hL⟩
    · rw [hev] at hev'
      cases hev'
  · obtain ⟨k, -, hk⟩ := exists_of_unless (P := fun k => Replied x seq answer (run k))
      (Q := fun k => ∀ y, ((run k).channel y).Torn) hstep hreplied hlt hm
    exact ⟨k, hk⟩

/-- Two established Python channels with nothing queued or in flight, none of
them closed before. One calls `close`. If every frame that keeps being
retransmitted is delivered in time, and the one FIN that the other end
transmits is not lost, both ends are closed by the FIN exchange: the event
`close` waits for is set. -/
theorem close_completes
    (hreach : GuardedRun exec OpensOnce (init fun _ => .python .new) L)
    (hstate : ∀ y, (L.channel y).state = .established) (hqueue : ∀ y, (L.channel y).sendQueue = [])
    (hbuffer : ∀ y, (L.channel y).sendBuffer = []) (hopen : ∀ y, (L.channel y).closed = false)
    (hfirst : (L.channel x).closing = false) (hrun : ClosingRun x L run event)
    (hfits : ∀ n, (run n).Fits) (harrives : AnswerArrives x run event) :
    ∃ t, ∀ y, ((run t).channel y).state = .closed ∧ ((run t).channel y).closed = true := by
  obtain ⟨now, hstart⟩ := hrun.start
  have hfitsL : L.Fits := (hfits 0).of_exec hstart
  have hsound : Sound L := by
    refine ⟨joint_of_run (fun _ => .python) (sendsOpen_of_run hreach ?_) hfitsL, ample_of_run hreach⟩
    intro y c hc
    rw [← channel_of_ends hc]
    exact hopen y
  have hzero : Sound (run 0) :=
    hsound.exec (.close x now) hfitsL trivial trivial hstart
  have hsounds := hrun.sound hfits hzero
  have hasked := asked_of_close hsound hstate hqueue hbuffer hopen hfirst hstart
  obtain ⟨n, seq, answer, hnew, hreplied⟩ := hrun.replied hfits hsounds hasked
  obtain ⟨t, ht⟩ := hrun.torn hfits hsounds harrives hnew hreplied
  exact ⟨t, fun y => ⟨(ht y).state, (ht y).closed⟩⟩

end run

/-! ## Runs -/

/-- Open, and let the handshake complete. -/
def handshake : Option Connection :=
  play exec opensOnce (init fun _ => .python .new)
    [fun _ => .connect .a 0, pass .b 0 0, pass .a 0 0, pass .b 1 0]

/-- The connection after the handshake. -/
def idle : Connection := handshake.getD (init fun _ => .python .new)

theorem handshake_eq : handshake = some idle := by
  obtain ⟨L, hL⟩ := Option.isSome_iff_exists.mp (show handshake.isSome = true by decide +kernel)
  rw [idle, hL]
  rfl

theorem idle_reachable : GuardedRun exec OpensOnce (init fun _ => .python .new) idle :=
  guardedRun_play (fun _ _ => opensOnce_sound) handshake_eq

/-- The connection after the call of `close`. -/
def closing : Connection := (idle.exec (.close .a 0)).getD idle

theorem idle_close : idle.exec (.close .a 0) = some closing := by
  obtain ⟨L, hL⟩ := Option.isSome_iff_exists.mp
    (show (idle.exec (.close .a 0)).isSome = true by decide +kernel)
  rw [closing, hL]
  rfl

theorem act_eq_self {e : End} (hsent : e.sent = L.ends z) (hout : e.outbox = []) : L.act z e = L := by
  rw [act, hsent, hout, Function.update_eq_self, List.append_nil, Function.update_eq_self]

/-- A turn of the retransmit task with nothing to retransmit. -/
theorem exec_retransmit_eq_self {c : Channel} {now : Nat} (hends : L.ends z = .python c)
    (hrunning : c.retransmitting = true) (hstate : c.state ≠ .closed) (hbuffer : c.sendBuffer = [])
    (hout : c.outbox = []) : L.exec (.retransmit z now) = some L := by
  have hidle : c.retransmit now = some c := by
    rw [Channel.retransmit, hrunning, if_neg (by decide), if_neg (fun h => hstate h.1), hbuffer]
    rfl
  show ((L.ends z).retransmit now).map (L.act z) = some L
  rw [hends]
  show ((c.retransmit now).map End.python).map (L.act z) = some L
  rw [hidle]
  refine congrArg some (act_eq_self ?_ hout)
  rw [hends]
  show End.python { c with outbox := [] } = .python c
  rw [← hout]

theorem ample_closing : Ample closing := (ample_of_run idle_reachable).exec idle_close

/-- Every state of a closing run that ends in a loop, from finitely many of them. -/
theorem closingRun_of_fixed (pick : Nat → Connection → Event) (k : Nat)
    (hsome : ∀ n < k,
      ((follow exec pick closing n).exec (pick n (follow exec pick closing n))).isSome = true)
    (hfix : ∀ n, k ≤ n → (follow exec pick closing k).exec (pick n (follow exec pick closing k)) =
      some (follow exec pick closing k))
    (hwaits : ∀ n L, (pick n L).Waits)
    (hspared : ∀ n < k + 1, ∀ y, ∀ p ∈ ((follow exec pick closing n).channel y).sendBuffer,
      p.retries < maxRetries)
    (hempty : ∀ y, ((follow exec pick closing k).channel y).sendBuffer = []) :
    ClosingRun .a idle (follow exec pick closing) fun n => pick n (follow exec pick closing n) where
  start := ⟨0, idle_close⟩
  step := follow_step hsome hfix
  waits := fun n => hwaits n _
  delivers := by
    intro y seq n hkept
    obtain ⟨p, hp, -⟩ := hkept (max n k) (Nat.le_max_left _ _)
    rw [follow_eq_of_fixed hfix _ (Nat.le_max_right _ _), hempty y] at hp
    cases hp
  spared := forall_follow
    (P := fun L => ∀ y, ∀ p ∈ (L.channel y).sendBuffer, p.retries < maxRetries) hfix hspared

/-- A pure acknowledgement for a channel with nothing to acknowledge. -/
theorem exec_deliver_eq_self {c : Channel} {b : Bytes} {f : ChannelFrame} {now : Nat}
    (hends : L.ends z = .python c) (hb : (L.emitted z.other).contains b = true)
    (hf : ChannelFrame.parse b = some f) (hrst : f.has flagRst = false)
    (hcons : f.consumesSeq = false) (hwindow : f.window = c.remoteWindow)
    (hqueue : c.sendQueue = []) (hbuffer : c.sendBuffer = []) (hout : c.outbox = []) :
    L.exec (.deliver z b now) = some L := by
  have hidle : c.handleFrame now f = c := by
    rw [Channel.handleFrame_of_nil now hqueue hrst, hcons, Bool.not_false, if_pos rfl,
      Channel.acked, hbuffer, hwindow]
    simp only [List.filter_nil, ite_self]
    rw [← hbuffer]
  show (if (L.emitted z.other).contains b then (ChannelFrame.parse b).bind fun f =>
    ((L.ends z).handleFrame now f).map (L.act z) else none) = some L
  rw [if_pos hb, hf, hends]
  show some (L.act z (.python (c.handleFrame now f))) = some L
  rw [hidle]
  refine congrArg some (act_eq_self ?_ hout)
  rw [hends]
  show End.python { c with outbox := [] } = .python c
  rw [← hout]

/-- The FIN is lost, sent again, delivered and answered, and the answer is delivered. -/
def lostFin : Nat → Connection → Event
  | 0 => fun _ => .retransmit .a rto
  | 1 => pass .b 3 rto
  | 2 => pass .a 1 rto
  | _ + 3 => pass .b 4 rto

theorem lostFin_waits (n : Nat) (L : Connection) : (lostFin n L).Waits := by
  rcases n with _ | _ | _ | n <;> trivial

/-- The last acknowledgement, delivered again and again. -/
def lastAck : Bytes := ((follow exec lostFin closing 3).emitted .a).getD 4 []

theorem lostFin_fixed (n : Nat) (h : 3 ≤ n) :
    (follow exec lostFin closing 3).exec (lostFin n (follow exec lostFin closing 3)) =
      some (follow exec lostFin closing 3) := by
  obtain ⟨m, rfl⟩ := Nat.exists_eq_add_of_le' h
  have hample : Ample (follow exec lostFin closing 3) :=
    follow_invariant ample_closing (fun _ _ _ hs he => hs.exec he) 3
  obtain ⟨f, hf, hprops⟩ := (Option.any_eq_true _ _).mp
    (show (ChannelFrame.parse lastAck).any (fun f => !f.has flagRst && !f.consumesSeq &&
      f.window == ((follow exec lostFin closing 3).channel .b).remoteWindow) = true by
        decide +kernel)
  simp only [Bool.and_eq_true, Bool.not_eq_true', beq_iff_eq] at hprops
  exact exec_deliver_eq_self (hample.ends_eq .b) (by decide +kernel) hf hprops.1.1 hprops.1.2
    hprops.2 (by decide +kernel) (by decide +kernel) (by decide +kernel)

theorem lostFin_arrives : AnswerArrives .a (follow exec lostFin closing)
    fun n => lostFin n (follow exec lostFin closing n) := by
  intro n b f hb hnew _ _
  -- the other end sends something new only when it gets the FIN
  have hsame : ∀ n ∈ [0, 2], (follow exec lostFin closing (n + 1)).emitted .b =
      (follow exec lostFin closing n).emitted .b := by
    decide +kernel
  have hanswer : ∀ b ∈ (follow exec lostFin closing 2).emitted .b,
      b ∈ (follow exec lostFin closing 1).emitted .b ∨
        b = ((follow exec lostFin closing 2).emitted .b).getD 1 [] := by
    decide +kernel
  rcases n with _ | _ | _ | n
  · exact absurd (hsame 0 (by decide) ▸ hb) hnew
  · rcases hanswer b hb with hold | rfl
    · exact absurd hold hnew
    · exact ⟨2, rto, by decide, rfl⟩
  · exact absurd (hsame 2 (by decide) ▸ hb) hnew
  · rw [follow_eq_of_fixed lostFin_fixed _ (by omega)] at hb hnew
    exact absurd hb hnew

theorem close_completes_resent : ∃ t, ∀ y,
    ((follow exec lostFin closing t).channel y).state = .closed ∧
      ((follow exec lostFin closing t).channel y).closed = true :=
  close_completes idle_reachable (by decide +kernel) (by decide +kernel) (by decide +kernel)
    (by decide +kernel) (by decide +kernel)
    (closingRun_of_fixed lostFin 3 (by decide +kernel) lostFin_fixed lostFin_waits
      (by decide +kernel) (by decide +kernel))
    (forall_follow (P := Fits) lostFin_fixed
      (show ∀ n < 4, ∀ y, ((follow exec lostFin closing n).ends y).sndNext < 2 ^ 64 by
        decide +kernel))
    lostFin_arrives

/-- The FIN is delivered and its answer is lost. The FIN is sent again, and
the other end acknowledges it again. -/
def lostAnswer : Nat → Connection → Event
  | 0 => pass .b 2 0
  | 1 => fun _ => .retransmit .a rto
  | 2 => pass .b 3 rto
  | 3 => pass .a 2 rto
  | n + 4 => fun _ => .retransmit .a ((n + 2) * rto)

theorem lostAnswer_waits (n : Nat) (L : Connection) : (lostAnswer n L).Waits := by
  rcases n with _ | _ | _ | _ | n <;> trivial

theorem lostAnswer_fixed (n : Nat) (h : 4 ≤ n) :
    (follow exec lostAnswer closing 4).exec (lostAnswer n (follow exec lostAnswer closing 4)) =
      some (follow exec lostAnswer closing 4) := by
  obtain ⟨m, rfl⟩ := Nat.exists_eq_add_of_le' h
  have hample : Ample (follow exec lostAnswer closing 4) :=
    follow_invariant ample_closing (fun _ _ _ hs he => hs.exec he) 4
  exact exec_retransmit_eq_self (hample.ends_eq .a) (by decide +kernel) (by decide +kernel) (by decide +kernel)
    (by decide +kernel)

/-- The channel that called `close` is left waiting, with nothing to send, for an answer that
nobody will send again. -/
theorem close_stuck : ∃ L run event,
    GuardedRun exec OpensOnce (init fun _ => .python .new) L ∧
    (∀ y, (L.channel y).state = .established ∧ (L.channel y).sendQueue = [] ∧
      (L.channel y).sendBuffer = [] ∧ (L.channel y).closed = false ∧
      (L.channel y).closing = false) ∧
    ClosingRun .a L run event ∧ (∀ n, (run n).Fits) ∧
    ∀ t, ((run t).channel .a).state ≠ .closed := by
  refine ⟨idle, follow exec lostAnswer closing, _, idle_reachable, by decide +kernel,
    closingRun_of_fixed lostAnswer 4 (by decide +kernel) lostAnswer_fixed lostAnswer_waits
      (by decide +kernel) (by decide +kernel), ?_, ?_⟩
  · exact forall_follow (P := fun L => ∀ y, (L.ends y).sndNext < 2 ^ 64) lostAnswer_fixed
      (by decide +kernel)
  · exact forall_follow (P := fun L => (L.channel .a).state ≠ .closed) lostAnswer_fixed
      (by decide +kernel)

end Connection

end Telesthete.Python
