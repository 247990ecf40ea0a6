import Telesthete.Proofs.ChannelHostile
import Telesthete.Proofs.ChannelReliable

/-!
# Flow control is respected end to end

A sender counts frames in flight against the window it last heard of, and the
receiver checks a sequence number against its own position. The two are tied by
the acknowledgements: what a sender believes acknowledged, the receiver has
received, so a data frame that leaves while fewer than a window are in flight
lies below the receiver's position plus its window, then and ever after.

The loop of `pump` is the only place that sends data, and it runs last in every
method (`Paced`). A method that took a chunk from the queue therefore ends with
at most a window in flight, counting everything it sent, and every number the
sender has ever used lies in reach. A method that took none has put no data
under a new number.
-/

namespace Telesthete.Channel

open Telesthete.Lib Telesthete.Wire List Option

variable {now : Nat → Nat} {c d : ChannelCore} {f : ChannelFrame}

/-! ## What a call sends -/

/-- The data loop stops within the limit, or sends nothing. -/
theorem pumpData_paced (limit fuel : Nat) (c : ChannelCore) :
    (ChannelCore.pumpData limit fuel c).sendQueue = c.sendQueue ∨
      (ChannelCore.pumpData limit fuel c).unacked.length ≤ limit := by
  refine pumpData_rule (P := fun d => d.sendQueue = c.sendQueue ∨ d.unacked.length ≤ limit) ?_
    fuel c (.inl rfl)
  intro d data rest _ _ hroom
  show _ ∨ (d.unacked ++ [_]).length ≤ limit
  rw [length_append, length_singleton]
  exact .inr hroom

theorem pump_paced (c : ChannelCore) :
    c.pump.sendQueue = c.sendQueue ∨
      (c.state = .established ∧ c.pump.unacked.length ≤ max c.peerWindow.toNat 1) := by
  rw [ChannelCore.pump]
  split
  · exact .inl rfl
  · next hstate =>
    have hpaced := pumpData_paced (max c.peerWindow.toNat 1) c.sendQueue.length c
    dsimp only
    split
    · next hfin =>
      simp only [Bool.and_eq_true, decide_eq_true_eq] at hfin
      refine .inr ⟨not_not.mp hstate, ?_⟩
      show (List.length (_ ++ [_])) ≤ _
      rw [length_append, length_singleton]
      exact hfin.2
    · exact hpaced.imp id fun hle => ⟨not_not.mp hstate, hle⟩

/-- What a call can send: nothing, as it killed the core; no data; or data, and then it ends with at
most a window in flight. -/
def Paced (c : ChannelCore) (chunks : List Bytes) (d : ChannelCore) : Prop :=
  (d.dead = true ∧ d.sendNext = c.sendNext) ∨
    (d.dead = false ∧ d.sendQueue = c.sendQueue ++ chunks) ∨
    (d.dead = false ∧ (d.state = .established ∨ d.state = .finSent) ∧
      d.unacked.length ≤ max d.peerWindow.toNat 1)

/-- The calls that end in `pump`. -/
theorem paced_pump {b : ChannelCore} {chunks : List Bytes} (halive : b.dead = false)
    (hqueue : b.sendQueue = c.sendQueue ++ chunks) : Paced c chunks b.pump := by
  have hgrows := grows_pump b
  rcases pump_paced b with hsame | ⟨hstate, hle⟩
  · exact .inr (.inl ⟨hgrows.dead.trans halive, hsame.trans hqueue⟩)
  · refine .inr (.inr ⟨hgrows.dead.trans halive, ?_, ?_⟩)
    · have hacts : Actions id none b b.pump := pump_actions halive
      rcases (hacts.rcvNext_le (.inl hstate)).2 with hdead | hopen
      · exact absurd ((hgrows.dead.trans halive).symm.trans hdead) (by decide)
      · exact hopen
    · rw [hgrows.peerWindow]
      exact hle

theorem onFrame_paced (halive : c.dead = false) (f : ChannelFrame) :
    Paced c [] (c.onFrame now f) := by
  cases hrst : f.has flagRst with
  | true =>
    rw [onFrame_rst hrst]
    exact .inl ⟨rfl, rfl⟩
  | false =>
    have hqueue : (c.acked f).sendQueue = c.sendQueue ++ [] := (append_nil _).symm
    have halive' : (c.acked f).dead = false := halive
    rw [ChannelCore.onFrame]
    rw [if_neg (by rw [hrst]; decide)]
    split
    · split
      · exact .inr (.inl ⟨halive', hqueue⟩)
      · exact .inr (.inl ⟨halive', hqueue⟩)
    · split
      · exact paced_pump halive' hqueue
      · split
        · exact .inr (.inl ⟨halive', hqueue⟩)
        · exact .inr (.inl ⟨halive', hqueue⟩)
    · exact paced_pump ((grows_deliver now _ f).dead.trans halive')
        (deliver_sendQueue.trans hqueue)
    · exact paced_pump ((grows_deliver now _ f).dead.trans halive')
        (deliver_sendQueue.trans hqueue)

theorem call_paced {e : Call} (he : c.call now e = some d) : Paced c e.chunks d := by
  obtain ⟨halive, -⟩ := call_actions he
  obtain ⟨-, he⟩ := ite_none_left_eq_some.mp he
  cases e with
  | connect =>
    cases he
    have hqueue : c.connect.sendQueue = c.sendQueue ++ [] := by
      rw [append_nil, ChannelCore.connect]
      split
      · rfl
      · rfl
    exact .inr (.inl ⟨(grows_connect c).dead.trans halive, hqueue⟩)
  | sendMessage msg fid =>
    obtain ⟨chunks, hchunks, rfl⟩ := map_eq_some_iff.mp he
    refine paced_pump (b := c.enqueue chunks) halive ?_
    show c.sendQueue ++ chunks = c.sendQueue ++ (fragment msg Wire.maxChunkPayload fid).getD []
    rw [hchunks]
    rfl
  | close =>
    cases he
    exact paced_pump (b := { c with closing := true }) halive (append_nil _).symm
  | onTimeout =>
    cases he
    rcases onTimeout_cases c with ⟨-, heq⟩ | ⟨-, -, heq⟩ | ⟨-, -, heq⟩
    · rw [heq]
      exact .inr (.inl ⟨halive, (append_nil _).symm⟩)
    · rw [heq]
      exact .inr (.inl ⟨halive, (append_nil _).symm⟩)
    · rw [heq]
      exact .inl ⟨rfl, rfl⟩
  | onFrame f =>
    cases he
    exact onFrame_paced halive f

/-! ## The window the sender goes by -/

/-- Only a frame of the peer opens a core, or changes the window it goes by. -/
theorem Action.open_before (ha : Action now none c d) (halive : d.dead = false)
    (hopen : d.state = .established ∨ d.state = .finSent) :
    (c.state = .established ∨ c.state = .finSent) ∧ d.peerWindow = c.peerWindow := by
  cases ha with
  | syn _ => exact absurd (.inr rfl) (not_idle hopen)
  | exhausted _ _ => exact absurd (show true = false from halive) (by decide)
  | ack hinp => exact absurd hinp.symm (some_ne_none _)
  | rst hinp _ => exact absurd hinp.symm (some_ne_none _)
  | respond hinp _ _ => exact absurd hinp.symm (some_ne_none _)
  | opened hinp _ _ => exact absurd hinp.symm (some_ne_none _)
  | buffer hinp _ _ _ _ => exact absurd hinp.symm (some_ne_none _)
  | fin hstate _ _ => exact ⟨.inl hstate, rfl⟩
  | consume hstate _ => exact ⟨hstate, (grows_consume now c _).peerWindow⟩
  | chunk _ _ | closing | retry _ | resend _ | pureAck _ => exact ⟨hopen, rfl⟩

theorem Actions.open_before (hs : Actions now none c d) :
    d.dead = false → d.state = .established ∨ d.state = .finSent →
    (c.state = .established ∨ c.state = .finSent) ∧ d.peerWindow = c.peerWindow := by
  induction hs with
  | refl => exact fun _ hopen => ⟨hopen, rfl⟩
  | tail _ hlast ih =>
    intro halive hopen
    obtain ⟨hopen', hwindow⟩ := hlast.2.open_before halive hopen
    obtain ⟨hopen'', hwindow'⟩ := ih hlast.1 hopen'
    exact ⟨hopen'', hwindow.trans hwindow'⟩

/-- An open core goes by the window of the last frame it was given. -/
theorem call_peerWindow {e : Call} (he : c.call now e = some d) (halive : d.dead = false)
    (hopen : d.state = .established ∨ d.state = .finSent) :
    (∃ f, e = .onFrame f ∧ d.peerWindow = f.window) ∨
      ((c.state = .established ∨ c.state = .finSent) ∧ d.peerWindow = c.peerWindow) := by
  obtain ⟨halive', -⟩ := call_actions he
  obtain ⟨-, he⟩ := ite_none_left_eq_some.mp he
  cases e with
  | connect =>
    cases he
    have hacts : Actions now none c c.connect := connect_actions halive'
    exact .inr (hacts.open_before halive hopen)
  | sendMessage msg fid =>
    obtain ⟨chunks, -, hacts⟩ : ∃ chunks, _ ∧ Actions now none (c.enqueue chunks) d :=
      sendMessage_actions halive' he
    exact .inr (hacts.open_before halive hopen)
  | close =>
    cases he
    have hacts : Actions now none c c.close := close_actions halive'
    exact .inr (hacts.open_before halive hopen)
  | onTimeout =>
    cases he
    have hacts : Actions now none c c.onTimeout := onTimeout_actions halive'
    exact .inr (hacts.open_before halive hopen)
  | onFrame f =>
    cases he
    refine .inl ⟨f, rfl, ?_⟩
    cases hrst : f.has flagRst with
    | true =>
      rw [onFrame_rst hrst] at halive
      exact absurd (show true = false from halive) (by decide)
    | false => exact (grows_onFrame hrst).peerWindow

/-! ## Both sides -/

section link

variable {now : Side → Nat → Nat} {window : Side → UInt16} {L L' : Link}
  {log log' : Side → Log} {acked acked' : Side → Nat} {x : Side}

/-- A side is called, on a frame of the network or on none. -/
structure Link.Called (now : Side → Nat → Nat) (L : Link) (x : Side) (e : Call) (L' : Link) :
    Prop where
  call : (L.core x).call (now x) e = some (L'.core x)
  input : ∀ f, e = .onFrame f → ∃ b ∈ L.emitted x.other, ChannelFrame.parse b = some f
  queued : L'.queued x = L.queued x ++ e.chunks
  other : L'.core x.other = L.core x.other

theorem Link.exec_called {e : Event} (he : Link.exec now L e = some L') :
    (∃ x call, L.Called now x call L') ∨ (∃ x i, L' = L.flush x i) := by
  cases e with
  | connect x =>
    obtain ⟨hdead, ⟨⟩⟩ := ite_none_left_eq_some.mp he
    refine .inl ⟨x, .connect, ?_, ?_, (append_nil _).symm, ?_⟩
    · simp [ChannelCore.call, Link.act, hdead]
    · exact fun f hf => Call.noConfusion hf
    · simp [Link.act]
  | sendMessage x msg fid =>
    obtain ⟨hdead, hsend⟩ := ite_none_left_eq_some.mp he
    obtain ⟨d, hd, rfl⟩ := map_eq_some_iff.mp hsend
    refine .inl ⟨x, .sendMessage msg fid, ?_, ?_, ?_, ?_⟩
    · simp [ChannelCore.call, Link.act, Link.record, hdead, hd]
    · exact fun f hf => Call.noConfusion hf
    · simp [Link.queued, Link.record, Link.act, Call.chunks]
    · simp [Link.act, Link.record]
  | close x =>
    obtain ⟨hdead, ⟨⟩⟩ := ite_none_left_eq_some.mp he
    refine .inl ⟨x, .close, ?_, ?_, (append_nil _).symm, ?_⟩
    · simp [ChannelCore.call, Link.act, hdead]
    · exact fun f hf => Call.noConfusion hf
    · simp [Link.act]
  | onTimeout x =>
    obtain ⟨hdead, ⟨⟩⟩ := ite_none_left_eq_some.mp he
    refine .inl ⟨x, .onTimeout, ?_, ?_, (append_nil _).symm, ?_⟩
    · simp [ChannelCore.call, Link.act, hdead]
    · exact fun f hf => Call.noConfusion hf
    · simp [Link.act]
  | deliver x frame =>
    obtain ⟨hok, hparse⟩ := ite_none_left_eq_some.mp he
    obtain ⟨hdead, hmem⟩ := not_or.mp hok
    obtain ⟨f, hf, rfl⟩ := map_eq_some_iff.mp hparse
    refine .inl ⟨x, .onFrame f, ?_, ?_, (append_nil _).symm, ?_⟩
    · simp [ChannelCore.call, Link.act, hdead]
    · rintro g ⟨⟩
      exact ⟨frame, not_not.mp hmem, hf⟩
    · simp [Link.act]
  | flush x i => exact .inr ⟨x, i, (Option.some.inj he).symm⟩

/-- What ties a sender's numbers to its receiver's window. -/
structure Flows (L : Link) (log : Side → Log) : Prop where
  /-- An open side goes by the window its peer has. -/
  heard : ∀ x, (L.core x).dead = false →
    (L.core x).state = .established ∨ (L.core x).state = .finSent →
    (L.core x).peerWindow = (L.core x.other).window
  /-- The data sent lies within the window of its receiver. -/
  reach : ∀ x, ∀ u ∈ log x, u.data ≠ [] →
    u.seq < (L.core x.other).rcvNext + (L.core x.other).window.toNat

theorem flows_init (window : Side → UInt16) : Flows (Link.init window) fun _ => [] where
  heard _ _ hopen := absurd (.inl rfl) (not_idle hopen)
  reach _ _ hu := absurd hu not_mem_nil

/-- A call that leaves a sender's next number leaves its log. -/
theorem LinkInv.log_eq (h : LinkInv L log acked) (h' : LinkInv L' log' acked')
    (hlog : log x <+: log' x) (hnext : (L'.core x).sendNext = (L.core x).sendNext) :
    log' x = log x := by
  refine (hlog.eq_of_length ?_).symm
  rw [(h.half x).snd.len, (h'.half x).snd.len, hnext]

/-- The receive position of a side never goes back. -/
theorem Link.Called.rcvNext_le {e : Call} (hc : L.Called now x e L') (h : LinkInv L log acked) :
    (L.core x).rcvNext ≤ (L'.core x).rcvNext := by
  obtain ⟨halive, inp, hacts⟩ := call_actions hc.call
  by_cases hidle : (L.core x).state = .closed ∨ (L.core x).state = .synSent
  · rw [((h.half x).idle halive hidle).1]
    exact Nat.zero_le _
  · refine (Actions.rcvNext_le (c := (L.core x).enqueue e.chunks) ?_ hacts).1
    show (L.core x).state = .established ∨ (L.core x).state = .finSent
    revert hidle
    cases (L.core x).state <;> decide

theorem Link.Called.window_eq {e : Call} (hc : L.Called now x e L') :
    (L'.core x).window = (L.core x).window := by
  obtain ⟨-, inp, hacts⟩ := call_actions hc.call
  exact hacts.window_eq

theorem Flows.heard_called (hflow : Flows L log) (h : LinkInv L log acked) (hfits : L.Fits)
    {e : Call} (hc : L.Called now x e L') (halive : (L'.core x).dead = false)
    (hopen : (L'.core x).state = .established ∨ (L'.core x).state = .finSent) :
    (L'.core x).peerWindow = (L.core x.other).window := by
  rcases call_peerWindow hc.call halive hopen with ⟨f, rfl, hf⟩ | ⟨hopen', hsame⟩
  · obtain ⟨b, hb, hparse⟩ := hc.input f rfl
    exact hf.trans (h.input hfits hb hparse).window
  · exact hsame.trans (hflow.heard x (call_actions hc.call).1 hopen')

/-- The side that is called keeps within the window of the other. -/
theorem Flows.reach_called (hflow : Flows L log) (h : LinkInv L log acked) (hfits : L.Fits)
    (hwindow : 1 ≤ (L.core x.other).window.toNat) {e : Call} (hc : L.Called now x e L')
    (h' : LinkInv L' log' acked') (hlog : log x <+: log' x) {u : Unacked} (hu : u ∈ log' x)
    (hdata : u.data ≠ []) :
    u.seq < (L.core x.other).rcvNext + (L.core x.other).window.toNat := by
  rcases call_paced hc.call with ⟨-, hnext⟩ | ⟨halive, hqueue⟩ | ⟨halive, hopen, hle⟩
  · rw [h.log_eq h' hlog hnext] at hu
    exact hflow.reach x u hu hdata
  · -- No chunk left the queue, so what is new in the log carries none.
    obtain ⟨ext, hext⟩ := hlog
    have hsent : payloads (log' x) = payloads (log x) := by
      have hnew := (h'.half x).queue.eq halive
      rw [hqueue, hc.queued, ← (h.half x).queue.eq (call_actions hc.call).1,
        append_assoc] at hnew
      exact append_cancel_right hnew
    rw [← hext, payloads_append] at hsent
    have hnone : payloads ext = [] := append_right_eq_self.mp hsent
    rw [← hext] at hu
    rcases mem_append.mp hu with hu | hu
    · exact hflow.reach x u hu hdata
    · have hmem : u.data ∈ payloads ext :=
        mem_filter.mpr ⟨mem_map_of_mem hu, decide_eq_true hdata⟩
      rw [hnone] at hmem
      exact absurd hmem not_mem_nil
  · -- The numbers in use are those acknowledged and those in flight.
    have hseq := (h'.half x).snd.logOk.numbered.seq_lt hu
    have hflight := congrArg List.length ((h'.half x).snd.unacked halive)
    rw [length_drop] at hflight
    have hacked := (h'.half x).ackedBound
    rw [hc.other] at hacked
    rw [hflow.heard_called h hfits hc halive hopen] at hle
    omega

theorem Flows.called (hflow : Flows L log) (h : LinkInv L log acked) (hfits : L.Fits)
    (hwindow : ∀ y, 1 ≤ (L.core y).window.toNat) {e : Call} (hc : L.Called now x e L')
    (h' : LinkInv L' log' acked') (hlog : ∀ y, log y <+: log' y) : Flows L' log' where
  heard := by
    intro y halive hopen
    rcases Side.eq_or_eq_other x y with rfl | rfl
    · rw [hc.other]
      exact hflow.heard_called h hfits hc halive hopen
    · rw [hc.other] at halive hopen ⊢
      rw [Side.other_other, hc.window_eq]
      have hheard := hflow.heard x.other halive hopen
      rwa [Side.other_other] at hheard
  reach := by
    intro y u hu hdata
    rcases Side.eq_or_eq_other x y with rfl | rfl
    · rw [hc.other]
      exact hflow.reach_called h hfits (hwindow _) hc h' (hlog _) hu hdata
    · rw [h.log_eq h' (hlog _) (congrArg ChannelCore.sendNext hc.other)] at hu
      have hold := hflow.reach x.other u hu hdata
      rw [Side.other_other] at hold ⊢
      have hle := hc.rcvNext_le h
      rw [hc.window_eq]
      omega

/-- A frame that leaves an outbox changes no field that `Flows` reads. -/
theorem Flows.flushed (hflow : Flows L log) (h : LinkInv L log acked) {i : Nat}
    (h' : LinkInv (L.flush x i) log' acked') (hlog : ∀ y, log y <+: log' y) :
    Flows (L.flush x i) log' := by
  have hcore : ∀ y, ∃ out, (L.flush x i).core y = { L.core y with outbox := out } := by
    intro y
    rcases Side.eq_or_eq_other x y with rfl | rfl
    · exact ⟨(L.core y).outbox.eraseIdx i, by simp [Link.flush]⟩
    · exact ⟨(L.core x.other).outbox, by simp [Link.flush]⟩
  refine ⟨fun y => ?_, fun y u hu hdata => ?_⟩
  · obtain ⟨out, hy⟩ := hcore y
    obtain ⟨out', hother⟩ := hcore y.other
    rw [hy, hother]
    exact hflow.heard y
  · obtain ⟨out, hy⟩ := hcore y
    obtain ⟨out', hother⟩ := hcore y.other
    rw [h.log_eq h' (hlog y) (by rw [hy])] at hu
    rw [hother]
    exact hflow.reach y u hu hdata

theorem Link.Reachable.flows (hwindow : ∀ y, 1 ≤ (window y).toNat)
    (h : Link.Reachable now window L) (hfits : L.Fits) :
    ∃ log acked, LinkInv L log acked ∧ Flows L log := by
  induction h with
  | refl => exact ⟨_, _, linkInv_init window, flows_init window⟩
  | tail hrun hstep ih =>
    obtain ⟨e, -, he⟩ := hstep
    have hfits' := hfits.of_exec he
    obtain ⟨log, acked, hinv, hflow⟩ := ih hfits'
    obtain ⟨log', acked', hinv', hlog⟩ := hinv.exec hfits' he
    refine ⟨log', acked', hinv', ?_⟩
    rcases Link.exec_called he with ⟨x, call, hc⟩ | ⟨x, i, rfl⟩
    · refine hflow.called hinv hfits' (fun y => ?_) hc hinv' hlog
      rw [Link.Reachable.window_eq hrun y]
      exact hwindow y
    · exact hflow.flushed hinv hinv' hlog

/-- No data frame a core ever emitted, delivered whenever and however often, meets the window check
of its receiver. -/
theorem flow_control (hwindow : ∀ y, 1 ≤ (window y).toNat) (hreach : Link.Reachable now window L)
    (hfits : L.Fits) {b : Bytes} (hb : b ∈ L.emitted x.other) {f : ChannelFrame}
    (hparse : ChannelFrame.parse b = some f) (hdata : f.data ≠ []) :
    f.seq < (L.core x).rcvNext + (L.core x).window.toNat := by
  obtain ⟨log, acked, hinv, hflow⟩ := hreach.flows hwindow hfits
  rcases (hinv.input hfits hb hparse).kind with hpure | ⟨u, hu, -, hseq, hudata⟩
  · exact absurd hpure.2 hdata
  · have hlt := hflow.reach x.other u hu (hudata ▸ hdata)
    rw [Side.other_other] at hlt
    rw [hseq]
    exact hlt

/-- Open, queue three messages against a window of two, and let the first data frame be lost. -/
def throttled : Option Link :=
  play (Link.exec fun _ _ => 0) (fun _ _ => true) (Link.init fun _ => 2)
    [fun _ => .connect .a, Link.pass .b 0, Link.pass .a 0,
     fun _ => .sendMessage .a [1] (List.Vector.replicate 16 1),
     fun _ => .sendMessage .a [2] (List.Vector.replicate 16 2),
     fun _ => .sendMessage .a [3] (List.Vector.replicate 16 3),
     Link.pass .b 3, fun _ => .onTimeout .a]

theorem flow_control_throttled : ∃ L, throttled = some L ∧ ∃ b ∈ L.emitted .a, ∃ f,
    ChannelFrame.parse b = some f ∧ f.data ≠ [] ∧ (L.core .b).rcvNext < f.seq ∧
      f.seq < (L.core .b).rcvNext + (L.core .b).window.toNat := by
  refine exists_some (fun L => (∀ y, (L.core y).sendNext < 2 ^ 64) ∧
    (L.emitted .a).any fun b => (ChannelFrame.parse b).any fun f =>
      decide (f.data ≠ [] ∧ (L.core .b).rcvNext < f.seq)) (by decide +kernel) ?_
  rintro L hL ⟨hfits, hframe⟩
  obtain ⟨b, hb, hf⟩ := any_eq_true.mp hframe
  obtain ⟨f, hparse, hdata⟩ := (Option.any_eq_true _ _).mp hf
  obtain ⟨hdata, hlt⟩ := of_decide_eq_true hdata
  refine ⟨b, hb, f, hparse, hdata, hlt, ?_⟩
  exact flow_control (x := .b) (fun _ => by decide) (Link.reachable_play hL) hfits hb hparse hdata

end link

end Telesthete.Channel
