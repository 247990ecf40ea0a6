import Telesthete.Proofs.ChannelMethods
import Telesthete.Proofs.ChannelReliable

/-!
# What a FIN closes

A core sends its FIN in two places. `pump` sends it for a pending close, and
only once the queue is empty. The drain loop sends it in answer to the
peer's, and does not look at the queue: chunks that were waiting for the
window stay there for good, because a core that has sent its FIN pumps no
more. The peer then sees an orderly close after an incomplete transfer.

`ClosesDrained` is the condition that this branch is not taken: when a frame
makes a FIN due at an open core, the core has nothing queued. Under it the
FIN of either side is the last thing of a complete transfer. The proof reads
the log: nothing follows a FIN in it, so the chunks of the log when the FIN
was sent are the chunks of the log for ever, and a side that has consumed the
FIN has consumed them all.
-/

namespace Telesthete.Channel

open Telesthete.Lib Telesthete.Wire Option

/-! ## When a FIN becomes due -/

/-- `f` carries a sequence number the core has not seen and has room for. -/
structure Accepts (c : ChannelCore) (f : ChannelFrame) : Prop where
  consumes : f.consumesSeq = true
  fresh : ¬ (f.seq < c.rcvNext ∨ f.seq ∈ c.recvBuffer)
  window : f.seq < c.rcvNext + c.window.toNat

/-- From the receive position on, the buffer holds frames up to one with the
FIN bit. -/
def RunsIntoFin (rcvNext : Nat) (buf : AList (fun _ : Nat => ChannelFrame)) : Prop :=
  ∃ n fr, (∀ i < n, rcvNext + i ∈ buf) ∧ buf.lookup (rcvNext + n) = some fr ∧
    fr.has flagFin = true

/-- With `f` in the reorder buffer a FIN is due. -/
def FinDue (c : ChannelCore) (f : ChannelFrame) : Prop :=
  Accepts c f ∧ RunsIntoFin c.rcvNext (c.recvBuffer.insert f.seq f)

/-- A frame that makes a FIN due finds nothing queued at an open core. -/
def Link.ClosesDrained (L : Link) : Event → Prop
  | .deliver x frame => ∀ f, ChannelFrame.parse frame = some f →
      (L.core x).state = .established → FinDue (L.core x) f → (L.core x).sendQueue = []
  | _ => True

section core

variable {now : Nat → Nat} {c : ChannelCore} {f : ChannelFrame}

/-- An open core leaves the drain loop closing only through a FIN. -/
theorem drain_fin : ∀ (fuel : Nat) (c : ChannelCore), c.state = .established →
    (c.drain now fuel).state ≠ .established → RunsIntoFin c.rcvNext c.recvBuffer := by
  intro fuel
  induction fuel with
  | zero => exact fun c hopen hne => absurd hopen hne
  | succ m ih =>
    intro c hopen hne
    rw [ChannelCore.drain] at hne
    split at hne
    · exact absurd hopen hne
    · rename_i fr hdue
      cases hfin : fr.has flagFin with
      | true => exact ⟨0, fr, by simp, hdue, hfin⟩
      | false =>
        have hstate : (c.consume now fr).state = .established :=
          (consume_drains hfin).state.trans hopen
        obtain ⟨n, fr', hbefore, hlookup, hfin'⟩ := ih _ hstate hne
        obtain ⟨hrcv, hbuf, -⟩ := consume_consumes now c fr
        rw [hrcv, hbuf] at hbefore hlookup
        refine ⟨n + 1, fr', ?_, ?_, hfin'⟩
        · intro i hi
          cases i with
          | zero => exact mem_of_lookup hdue
          | succ i =>
            have hmem := hbefore i (by omega)
            rw [show c.rcvNext + (i + 1) = c.rcvNext + 1 + i by omega]
            exact (AList.mem_erase.mp hmem).2
        · rw [AList.lookup_erase_ne (by omega)] at hlookup
          rw [show c.rcvNext + (n + 1) = c.rcvNext + 1 + n by omega]
          exact hlookup

theorem deliver_fin (hopen : c.state = .established)
    (hne : (c.deliver now f).state ≠ .established) : FinDue c f := by
  rw [ChannelCore.deliver] at hne
  split at hne
  · exact absurd hopen hne
  · rename_i hcons
    split at hne
    · exact absurd hopen hne
    · rename_i hfresh
      split at hne
      · exact absurd hopen hne
      · rename_i hwin
        refine ⟨⟨by simpa using hcons, hfresh, by omega⟩, ?_⟩
        exact drain_fin _ { c with recvBuffer := c.recvBuffer.insert f.seq f } hopen hne

/-- `pump` sends a FIN after the last chunk. -/
theorem pump_fin (hbefore : c.state ≠ .finSent) (hafter : c.pump.state = .finSent) :
    c.pump.sendQueue = [] := by
  rw [ChannelCore.pump] at hafter ⊢
  split at hafter
  · exact absurd hafter hbefore
  · rename_i hopen
    rw [if_neg hopen]
    simp only at hafter ⊢
    split at hafter
    · rename_i hfin
      rw [if_pos hfin]
      simp only [Bool.and_eq_true, List.isEmpty_iff] at hfin
      exact hfin.1.2
    · have hsame := (pumpData_pumps (max c.peerWindow.toNat 1) c.sendQueue.length c).state
      exact absurd (hsame.symm.trans hafter) hbefore

theorem pump_finSent (h : c.state = .finSent) : c.pump = c := by
  rw [ChannelCore.pump, if_pos (by rw [h]; decide)]

/-- A frame that makes the core send its FIN leaves nothing queued, unless it
made the peer's FIN due while something was. -/
theorem onFrame_fin (hbefore : c.state ≠ .finSent) (hafter : (c.onFrame now f).state = .finSent)
    (hdrained : c.state = .established → FinDue c f → c.sendQueue = []) :
    (c.onFrame now f).sendQueue = [] := by
  rw [ChannelCore.onFrame] at hafter ⊢
  have hb : { c.ack f.ackNum with peerWindow := f.window }.state ≠ .finSent := hbefore
  have hd : { c.ack f.ackNum with peerWindow := f.window }.state = .established →
      FinDue { c.ack f.ackNum with peerWindow := f.window } f →
      { c.ack f.ackNum with peerWindow := f.window }.sendQueue = [] :=
    fun hopen hdue => hdrained hopen ⟨⟨hdue.1.consumes, hdue.1.fresh, hdue.1.window⟩, hdue.2⟩
  generalize { c.ack f.ackNum with peerWindow := f.window } = a at hafter hb hd ⊢
  split at hafter
  · cases hafter
  · rename_i hrst
    rw [if_neg hrst]
    split at hafter
    · rename_i hstate
      split at hafter
      · cases hafter
      · exact absurd hafter hb
    · rename_i hstate
      split at hafter
      · rename_i hsyn
        rw [if_pos hsyn]
        exact pump_fin (by rintro ⟨⟩) hafter
      · split at hafter
        · cases hafter
        · exact absurd hafter hb
    · rename_i hstate
      by_cases hclosed : (a.deliver now f).state = .established
      · exact pump_fin (by rw [hclosed]; decide) hafter
      · have hfin : (a.deliver now f).state = .finSent := by
          by_contra hne
          have hsame : (a.deliver now f).pump = a.deliver now f := by
            rw [ChannelCore.pump, if_pos hclosed]
          rw [hsame] at hafter
          exact hne hafter
        rw [pump_finSent hfin, deliver_sendQueue]
        exact hd hstate (deliver_fin hstate hclosed)
    · rename_i hstate
      exact absurd hstate hb

end core

/-! ## The step that sends the FIN -/

variable {now : Side → Nat → Nat} {window : Side → UInt16} {L L' M : Link} {x : Side}
variable {e : Event} {q : List Bytes} {ok : Link → Event → Prop}

/-- A core that has just died is closed. -/
theorem Actions.closed_of_dead {now : Nat → Nat} {inp : Option ChannelFrame} {c d : ChannelCore}
    (h : Actions now inp c d) (halive : c.dead = false) (hdead : d.dead = true) :
    d.state = .closed := by
  cases h with
  | refl => exact absurd (halive.symm.trans hdead) (by decide)
  | tail _ hlast =>
    obtain ⟨hb, hact⟩ := hlast
    cases hact with
    | exhausted _ _ | rst _ _ => rfl
    | consume _ _ =>
      rw [(consume_consumes now _ _).dead] at hdead
      exact absurd (hb.symm.trans hdead) (by decide)
    | _ => exact absurd (hb.symm.trans hdead) (by decide)

/-- The step in which a side sends its FIN leaves it alive. -/
theorem Link.exec_alive (he : Link.exec now L e = some L')
    (hbefore : (L.core x).state ≠ .finSent) (hafter : (L'.core x).state = .finSent) :
    (L'.core x).dead = false := by
  have hside : ∀ (y : Side) (inp : Option ChannelFrame) (c d : ChannelCore),
      Actions (now y) inp c d → c.dead = false → d.state = .finSent → d.dead = false := by
    intro y inp c d hacts halive hfin
    by_contra hdead
    rw [Bool.not_eq_false] at hdead
    exact absurd (hfin.symm.trans (hacts.closed_of_dead halive hdead)) (by decide)
  rcases Link.exec_cases he with ⟨y, inp, d, hacts, rfl⟩ |
      ⟨y, msg, fid, chunks, d, -, hacts, rfl⟩ | ⟨y, i, rfl⟩
  · rcases Side.eq_or_eq_other y x with rfl | rfl
    · simp only [Link.act, Function.update_self] at hafter ⊢
      exact hside x inp _ d hacts.actions hacts.alive hafter
    · exact absurd (by simpa [Link.act] using hafter) hbefore
  · rcases Side.eq_or_eq_other y x with rfl | rfl
    · simp only [Link.act, Link.record, Function.update_self] at hafter ⊢
      exact hside x none _ d hacts.actions hacts.alive hafter
    · exact absurd (by simpa [Link.act, Link.record] using hafter) hbefore
  · refine absurd ?_ hbefore
    rcases Side.eq_or_eq_other y x with rfl | rfl <;> simpa [Link.flush] using hafter

theorem Link.exec_fin (he : Link.exec now L e = some L') (hok : L.ClosesDrained e)
    (hbefore : (L.core x).state ≠ .finSent) (hafter : (L'.core x).state = .finSent) :
    (L'.core x).sendQueue = [] := by
  -- an event of the other side cannot be it
  have hother : ∀ (y : Side) (d : ChannelCore), x = y.other →
      ((L.act y d).core x).state ≠ .finSent := by
    rintro y d rfl
    simpa [Link.act] using hbefore
  cases e with
  | connect y =>
    obtain ⟨-, ⟨⟩⟩ := ite_none_left_eq_some.mp he
    rcases Side.eq_or_eq_other y x with rfl | hx
    · simp only [Link.act, Function.update_self, ChannelCore.connect] at hafter
      split at hafter
      · exact absurd hafter hbefore
      · cases hafter
    · exact absurd hafter (hother y _ hx)
  | sendMessage y msg fid =>
    obtain ⟨-, hsend⟩ := ite_none_left_eq_some.mp he
    obtain ⟨d, hd, rfl⟩ := map_eq_some_iff.mp hsend
    rcases Side.eq_or_eq_other y x with rfl | hx
    · obtain ⟨chunks, -, rfl⟩ := map_eq_some_iff.mp hd
      simp only [Link.act, Link.record, Function.update_self] at hafter ⊢
      exact pump_fin (c := (L.core x).enqueue chunks) hbefore hafter
    · exact absurd hafter (hother y _ hx)
  | close y =>
    obtain ⟨-, ⟨⟩⟩ := ite_none_left_eq_some.mp he
    rcases Side.eq_or_eq_other y x with rfl | hx
    · simp only [Link.act, Function.update_self] at hafter ⊢
      exact pump_fin (c := { L.core x with closing := true }) hbefore hafter
    · exact absurd hafter (hother y _ hx)
  | onTimeout y =>
    obtain ⟨-, ⟨⟩⟩ := ite_none_left_eq_some.mp he
    rcases Side.eq_or_eq_other y x with rfl | hx
    · simp only [Link.act, Function.update_self, ChannelCore.onTimeout] at hafter
      split at hafter
      · exact absurd hafter hbefore
      · split at hafter
        · cases hafter
        · rw [resend_eq] at hafter
          exact absurd hafter hbefore
    · exact absurd hafter (hother y _ hx)
  | deliver y frame =>
    obtain ⟨-, hparse⟩ := ite_none_left_eq_some.mp he
    obtain ⟨f, hf, rfl⟩ := map_eq_some_iff.mp hparse
    rcases Side.eq_or_eq_other y x with rfl | hx
    · simp only [Link.act, Function.update_self] at hafter ⊢
      exact onFrame_fin hbefore hafter (hok f hf)
    · exact absurd hafter (hother y _ hx)
  | flush y i =>
    cases he
    refine absurd ?_ hbefore
    rcases Side.eq_or_eq_other y x with rfl | rfl <;> simpa [Link.flush] using hafter

/-! ## Nothing follows a FIN -/

/-- A FIN of `x` is in its log, and the log carries the chunks `q`. -/
def Finished (x : Side) (q : List Bytes) (L : Link) : Prop :=
  ∃ log acked, LinkInv L log acked ∧ (∃ u ∈ log x, u.IsFin) ∧ payloads (log x) = q

theorem Finished.exec (h : Finished x q L) (hfits : L.Fits)
    (he : Link.exec now L e = some L') : Finished x q L' := by
  obtain ⟨log, acked, hinv, ⟨u, hu, hfin⟩, hq⟩ := h
  obtain ⟨log', acked', hinv', hgrow⟩ := hinv.exec hfits he
  have hu' : u ∈ log' x := (hgrow x).subset hu
  have hlen := (hinv.half x).snd.logOk.finLast u hu hfin
  have hlen' := (hinv'.half x).snd.logOk.finLast u hu' hfin
  have hsame : log x = log' x := (hgrow x).eq_of_length (by omega)
  exact ⟨log', acked', hinv', ⟨u, hu', hfin⟩, by rw [← hsame]; exact hq⟩

/-- A side that has consumed the FIN has consumed everything before it. -/
theorem Finished.fed (h : Finished x q L)
    (hclosed : (L.core x.other).peerClosed = true) : (L.core x.other).fed = q := by
  obtain ⟨log, acked, hinv, -, hq⟩ := h
  have hy := (hinv.half x.other).rcv
  rw [Side.other_other] at hy
  obtain ⟨u, hu, hfin, hlt⟩ := hy.closed hclosed
  have hlen := (hinv.half x).snd.logOk.finLast u hu hfin
  rw [hy.fed, List.take_of_length_le (by omega), hq]

theorem Link.fits_of_run (h : GuardedRun (Link.exec now) ok L M) (hfits : M.Fits) : L.Fits := by
  induction h with
  | refl => exact hfits
  | tail _ hlast ih =>
    obtain ⟨e, -, he⟩ := hlast
    exact ih (hfits.of_exec he)

/-- In every run in which a FIN never becomes due at an open core with chunks
queued: once a core has consumed its peer's FIN, every chunk the peer had
queued when it sent that FIN, which is when it entered `finSent`, has been
handed to the core's reassembler. -/
theorem queued_isPrefix_fed_of_closed
    (hrun : GuardedRun (Link.exec now) Link.ClosesDrained (Link.init window) L)
    (hstep : GuardedStep (Link.exec now) Link.ClosesDrained L L')
    (hrest : GuardedRun (Link.exec now) Link.ClosesDrained L' M)
    (hfits : ∀ y, (M.core y).sendNext < 2 ^ 64)
    (hbefore : (L.core x).state ≠ .finSent) (hsends : (L'.core x).state = .finSent)
    (hclosed : (M.core x.other).peerClosed = true) :
    L'.queued x <+: (M.core x.other).fed := by
  have hfitsM : M.Fits := hfits
  have hfits' := Link.fits_of_run hrest hfitsM
  obtain ⟨e, hok, he⟩ := hstep
  have hreach : Link.Reachable now window L' :=
    (Link.reachable_of_guarded hrun).tail ⟨e, trivial, he⟩
  obtain ⟨log, acked, hinv⟩ := hreach.linkInv hfits'
  have halive := Link.exec_alive he hbefore hsends
  have hqueue := Link.exec_fin he hok hbefore hsends
  have hfinished : Finished x (L'.queued x) L' := by
    refine ⟨log, acked, hinv, (hinv.half x).phase.hasFin halive hsends, ?_⟩
    rw [← (hinv.half x).queue.eq halive, hqueue, List.append_nil]
  have hM : M.Fits → Finished x (L'.queued x) M := by
    refine hrest.invariant (P := fun M => M.Fits → Finished x (L'.queued x) M)
      (fun _ => hfinished) ?_
    intro N e' N' hN _ he' hfitsN'
    exact (hN (hfitsN'.of_exec he')).exec (hfitsN'.of_exec he') he'
  have hfed := (hM hfitsM).fed hclosed
  exact hfed ▸ List.prefix_rfl

/-- The side a message was queued on is closed by its peer: the states before
and after it sends its FIN, and after the peer has consumed that. `transfer`
is what happens to the message in between. -/
def passiveClose (check : Link → Event → Bool) (window : UInt16) (transfer : List (Link → Event)) :
    Option (Link × Link × Link) := do
  let step := Link.exec fun _ _ => 0
  let L ← play step check (Link.init fun _ => window)
    ([fun _ => .connect .a, Link.pass .b 0, Link.pass .a 0,
      fun _ => .sendMessage .b [1] (List.Vector.replicate 16 1)] ++ transfer ++
      [fun _ => .close .a])
  let L' ← play step check L [fun L => Link.pass .b ((L.core .a).outbox.length - 1) L]
  let M ← play step check L' [fun L => Link.pass .a ((L.core .b).outbox.length - 2) L]
  some (L, L', M)

/-- What is decided of the three states of `passiveClose`. -/
def ClosedBy (s : Link × Link × Link) : Prop :=
  (s.1.core .b).state ≠ .finSent ∧ (s.2.1.core .b).state = .finSent ∧
    (s.2.2.core .a).peerClosed = true ∧
    ∀ y ∈ [Side.a, .b], (s.2.2.core y).dead = false ∧ (s.2.2.core y).sendNext < 2 ^ 63

instance (s : Link × Link × Link) : Decidable (ClosedBy s) :=
  inferInstanceAs (Decidable (_ ∧ _ ∧ _ ∧ _))

/-- A frame may arrive at a core with nothing queued. -/
def checkDrained (L : Link) : Event → Bool
  | .deliver x _ => (L.core x).sendQueue.isEmpty
  | _ => true

theorem closesDrained_of_check (L : Link) (e : Event) (h : checkDrained L e = true) :
    L.ClosesDrained e := by
  cases e with
  | deliver x frame => exact fun _ _ _ _ => List.isEmpty_iff.mp h
  | _ => trivial

theorem passiveClose_runs {check : Link → Event → Bool}
    (hcheck : ∀ L e, check L e = true → ok L e) {window : UInt16}
    {transfer : List (Link → Event)}
    (h : passiveClose check window transfer = some (L, L', M)) :
    GuardedRun (Link.exec fun _ _ => 0) ok (Link.init fun _ => window) L ∧
      GuardedStep (Link.exec fun _ _ => 0) ok L L' ∧
      GuardedRun (Link.exec fun _ _ => 0) ok L' M := by
  obtain ⟨L₁, h₁, hrest⟩ := bind_eq_some_iff.mp h
  obtain ⟨L₂, h₂, hrest'⟩ := bind_eq_some_iff.mp hrest
  obtain ⟨L₃, h₃, hlast⟩ := bind_eq_some_iff.mp hrest'
  obtain ⟨rfl, rfl, rfl⟩ : L₁ = L ∧ L₂ = L' ∧ L₃ = M := by simpa using hlast
  refine ⟨guardedRun_play hcheck h₁, ?_, guardedRun_play hcheck h₃⟩
  obtain ⟨N, hN, hnil⟩ := bind_eq_some_iff.mp h₂
  cases hnil
  obtain ⟨hok, he⟩ := ite_none_right_eq_some.mp hN
  exact ⟨_, hcheck _ _ hok, he⟩

theorem queued_isPrefix_fed_of_closed_transferred : ∃ L L' M,
    passiveClose checkDrained 4 [Link.pass .a 1] = some (L, L', M) ∧
      (L'.queued .b).length = 1 ∧ L'.queued .b <+: (M.core .a).fed := by
  have hall : (passiveClose checkDrained 4 [Link.pass .a 1]).any
      (fun s => ClosedBy s ∧ (s.2.1.queued .b).length = 1) = true := by
    decide +kernel
  obtain ⟨⟨L, L', M⟩, hs, ⟨hbefore, hsends, hclosed, hside⟩, hlen⟩ := some_of_any hall
  obtain ⟨hrun, hstep, hrest⟩ := passiveClose_runs closesDrained_of_check hs
  refine ⟨L, L', M, hs, hlen, ?_⟩
  refine queued_isPrefix_fed_of_closed hrun hstep hrest ?_ hbefore hsends hclosed
  intro y
  exact lt_trans (hside y (by cases y <;> simp)).2 (by decide)

/-- With a window of one, a chunk queued behind the handshake is never sent:
the peer closes, the FIN is answered at once, and the peer takes the answer
for an orderly end although nothing arrived. -/
theorem passive_close_loses_chunk : ∃ L L' M,
    Link.Reachable (fun _ _ => 0) (fun _ => 1) L ∧
      (∃ e, Link.exec (fun _ _ => 0) L e = some L') ∧
      GuardedRun (Link.exec fun _ _ => 0) (fun _ _ => True) L' M ∧
      (L.core .b).state ≠ .finSent ∧ (L'.core .b).state = .finSent ∧
      (M.core .a).peerClosed = true ∧ (∀ y, (M.core y).dead = false) ∧
      (∀ y, (M.core y).sendNext < 2 ^ 63) ∧ (M.core .a).fed = [] ∧
      ¬ L'.queued .b <+: (M.core .a).fed := by
  have hall : (passiveClose (fun _ _ => true) 1 []).any (fun s => ClosedBy s ∧
      s.2.1.queued .b ≠ [] ∧ (s.2.2.core .a).fed = []) = true := by
    decide +kernel
  obtain ⟨⟨L, L', M⟩, hs, ⟨hbefore, hsends, hclosed, hside⟩, hqueued, hfed⟩ := some_of_any hall
  obtain ⟨hrun, ⟨e, -, he⟩, hrest⟩ : GuardedRun _ (fun _ _ => True) _ L ∧
      GuardedStep _ (fun _ _ => True) L L' ∧ GuardedRun _ (fun _ _ => True) L' M :=
    passiveClose_runs (fun _ _ _ => trivial) hs
  refine ⟨L, L', M, hrun, ⟨e, he⟩, hrest, hbefore, hsends, hclosed,
    fun y => (hside y (by cases y <;> simp)).1, fun y => (hside y (by cases y <;> simp)).2, hfed, ?_⟩
  rw [hfed, List.prefix_nil]
  exact hqueued

end Telesthete.Channel
