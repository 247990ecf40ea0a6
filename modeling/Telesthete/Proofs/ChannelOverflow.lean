import Telesthete.Channel.Checked
import Telesthete.Proofs.ChannelHostile
import Telesthete.Proofs.Reassembly

/-!
# Which frames overflow a counter

A core assigns a number to each chunk and to at most three control frames, so
`send_next` is bounded by what was queued (`budget`), and each call moves
`rcv_next` by at most the window. Neither comes near `2 ^ 64` in a run of any
practical length. What does is the sequence number of the SYN that opens the
connection: it is taken from the wire as it is and becomes the receive position.
With `2 ^ 64 - 1` the very addition that accepts it overflows, and with a number
within a window of that the next data frame does.
-/

namespace Telesthete.Channel

open Telesthete.Lib Telesthete.Wire

variable {now : Nat → Nat} {inp : Option ChannelFrame} {c d : ChannelCore} {f : ChannelFrame}

theorem checkedAdd_of_lt {a b : Nat} (h : a + b < 2 ^ 64) : checkedAdd a b = some (a + b) :=
  if_pos h

/-! ## How far the counters go -/

/-- Control frames a core in this state may still send. -/
def ConnState.control : ConnState → Nat
  | .closed => 3
  | .synSent => 2
  | .established => 1
  | .finSent => 0

/-- The numbers assigned and those that may still be, without another message. -/
def ChannelCore.budget (c : ChannelCore) : Nat :=
  c.sendNext + c.sendQueue.length + if c.dead then 0 else c.state.control

theorem budget_alive (h : c.dead = false) :
    c.budget = c.sendNext + c.sendQueue.length + c.state.control := by
  rw [ChannelCore.budget, if_neg (by rw [h]; decide)]

theorem budget_le_of (halive : c.dead = false) (hdead : d.dead = false)
    (h : d.sendNext + d.sendQueue.length + d.state.control ≤
      c.sendNext + c.sendQueue.length + c.state.control) : d.budget ≤ c.budget := by
  rwa [budget_alive halive, budget_alive hdead]

theorem budget_of_same (hnext : d.sendNext = c.sendNext) (hqueue : d.sendQueue = c.sendQueue)
    (hdead : d.dead = c.dead) (hstate : d.state = c.state) : d.budget = c.budget := by
  rw [ChannelCore.budget, hnext, hqueue, hdead, hstate]
  rfl

/-- A control frame is sent with a change of state that accounts for it. -/
theorem budget_control (next : ConnState) (halive : c.dead = false)
    (hlt : next.control < c.state.control) (hstate : d.state = next) (hdead : d.dead = false)
    (hnext : d.sendNext = c.sendNext + 1) (hqueue : d.sendQueue = c.sendQueue) :
    d.budget ≤ c.budget := by
  refine budget_le_of halive hdead ?_
  rw [hnext, hqueue, hstate]
  omega

theorem budget_teardown (c : ChannelCore) : c.teardown.budget ≤ c.budget := by
  show c.sendNext + 0 + 0 ≤ c.sendNext + c.sendQueue.length + _
  omega

/-- The state after a FIN is consumed, and one more number if it is answered. -/
theorem consume_budget_le (halive : c.dead = false) (fr : ChannelFrame) :
    (c.consume now fr).budget ≤ c.budget := by
  rw [ChannelCore.consume]
  dsimp only
  split
  · split
    · next hstate =>
      have hopen : c.state = .established := hstate
      exact budget_control .finSent halive (by rw [hopen]; decide) rfl halive rfl rfl
    · exact le_of_eq (budget_of_same rfl rfl rfl rfl)
  · split
    · exact le_of_eq (budget_of_same rfl rfl rfl rfl)
    · exact le_of_eq (budget_of_same rfl rfl rfl rfl)

/-- No action assigns a number that was not allowed for. -/
theorem Action.budget_le (halive : c.dead = false) (ha : Action now inp c d) :
    d.budget ≤ c.budget := by
  cases ha with
  | syn hstate =>
    exact budget_control .synSent halive (by rw [hstate]; decide) rfl halive rfl rfl
  | chunk hstate hqueue =>
    rename_i data rest
    refine budget_le_of halive halive ?_
    rw [hqueue, List.length_cons]
    show c.sendNext + 1 + rest.length + c.state.control ≤ _
    omega
  | fin hstate _ _ =>
    exact budget_control .finSent halive (by rw [hstate]; decide) rfl halive rfl rfl
  | respond _ hstate _ =>
    rcases hstate with hstate | hstate
    · exact budget_control .established halive (by rw [hstate]; decide) rfl halive rfl rfl
    · exact budget_control .established halive (by rw [hstate]; decide) rfl halive rfl rfl
  | opened _ hstate _ =>
    refine budget_le_of halive halive ?_
    rw [hstate]
    exact Nat.add_le_add_left (show 1 ≤ 2 by decide) _
  | exhausted _ _ => exact budget_teardown c
  | rst _ _ => exact budget_teardown _
  | consume _ _ => exact consume_budget_le halive _
  | closing | retry _ | resend _ | ack _ | pureAck _ | buffer _ _ _ _ _ =>
    exact le_of_eq (budget_of_same rfl rfl rfl rfl)

theorem Actions.budget_le (hs : Actions now inp c d) : d.budget ≤ c.budget := by
  induction hs with
  | refl => exact le_rfl
  | tail _ hlast ih => exact le_trans (hlast.2.budget_le hlast.1) ih

/-! ## Within those bounds the checked methods are the methods -/

theorem emitNext?_eq {flags : UInt8} {data : Bytes} (h : c.sendNext + 1 < 2 ^ 64) :
    c.emitNext? flags data = some (c.emitNext flags data) := by
  rw [ChannelCore.emitNext?, checkedAdd_of_lt h]
  rfl

/-- A control frame that is still allowed for has a number that fits. -/
theorem sendNext_lt {n : Nat} (halive : c.dead = false) (hbudget : c.budget < n)
    (hcontrol : 0 < c.state.control) : c.sendNext + 1 < n := by
  rw [budget_alive halive] at hbudget
  omega

theorem pumpData?_eq (limit : Nat) : ∀ (fuel : Nat) (c : ChannelCore), c.dead = false →
    c.state = .established → c.budget < 2 ^ 64 →
    ChannelCore.pumpData? limit fuel c = some (ChannelCore.pumpData limit fuel c) := by
  intro fuel
  induction fuel with
  | zero => exact fun c _ _ _ => rfl
  | succ n ih =>
    intro c halive hstate hbudget
    rw [ChannelCore.pumpData?, ChannelCore.pumpData]
    cases hqueue : c.sendQueue with
    | nil => rfl
    | cons data rest =>
      dsimp only
      split
      · have hlt : c.sendNext + 1 < 2 ^ 64 :=
          sendNext_lt halive hbudget (by rw [hstate]; decide)
        have hact : Action (fun _ => 0) none c _ := .chunk hstate hqueue
        rw [emitNext?_eq]
        · exact ih _ halive hstate (lt_of_le_of_lt (hact.budget_le halive) hbudget)
        · exact hlt
      · rfl

theorem pump?_eq (halive : c.dead = false) (hbudget : c.budget < 2 ^ 64) :
    c.pump? = some c.pump := by
  rw [ChannelCore.pump?, ChannelCore.pump]
  split
  · rfl
  · next hstate =>
    have hopen : c.state = .established := not_not.mp hstate
    have hloop : Actions (fun _ => 0) none c _ ∧ _ := pumpData_actions (max c.peerWindow.toNat 1)
      c.sendQueue.length halive hopen
    obtain ⟨hacts, hdead', hstate'⟩ := hloop
    have hbudget' := lt_of_le_of_lt hacts.budget_le hbudget
    dsimp only
    rw [pumpData?_eq _ _ c halive hopen hbudget]
    generalize ChannelCore.pumpData _ _ c = d at hacts hstate' hdead' hbudget' ⊢
    dsimp only [Option.bind_some]
    split
    · have hlt : d.sendNext + 1 < 2 ^ 64 :=
        sendNext_lt hdead' hbudget' (by rw [hstate']; decide)
      rw [emitNext?_eq hlt]
      rfl
    · rfl

theorem consume?_eq (halive : c.dead = false) (hbudget : c.budget < 2 ^ 64)
    (hrcv : c.rcvNext + 1 < 2 ^ 64) (fr : ChannelFrame) :
    c.consume? now fr = some (c.consume now fr) := by
  rw [ChannelCore.consume?, checkedAdd_of_lt hrcv, ChannelCore.consume]
  dsimp only [Option.bind_some]
  split
  · split
    · next hstate =>
      have hopen : c.state = .established := hstate
      have hlt : c.sendNext + 1 < 2 ^ 64 :=
        sendNext_lt halive hbudget (by rw [hopen]; decide)
      rw [emitNext?_eq]
      · rfl
      · exact hlt
    · rfl
  · split
    · rfl
    · rfl

/-- The drain loop stays below the end of the window. -/
theorem drain?_eq {bound : Nat} (hbound : bound < 2 ^ 64) : ∀ (fuel : Nat) (c : ChannelCore),
    c.dead = false → c.budget < 2 ^ 64 → (∀ k ∈ c.recvBuffer, k < bound) → c.rcvNext ≤ bound →
    c.drain? now fuel = some (c.drain now fuel) ∧ (c.drain now fuel).rcvNext ≤ bound := by
  intro fuel
  induction fuel with
  | zero => exact fun c _ _ _ hle => ⟨rfl, hle⟩
  | succ n ih =>
    intro c halive hbudget hkeys hle
    rw [ChannelCore.drain?, ChannelCore.drain]
    cases hdue : c.recvBuffer.lookup c.rcvNext with
    | none => exact ⟨rfl, hle⟩
    | some fr =>
      have hlt := hkeys _ (mem_of_lookup hdue)
      have hd := consume_consumes now c fr
      dsimp only
      rw [consume?_eq halive hbudget (by omega)]
      refine ih _ (hd.dead.trans halive)
        (lt_of_le_of_lt (consume_budget_le halive fr) hbudget) (fun k hk => ?_) ?_
      · rw [hd.recvBuffer] at hk
        exact hkeys k (AList.mem_erase.mp hk).2
      · rw [hd.rcvNext]
        exact hlt

theorem deliver?_eq (halive : c.dead = false) (hbudget : c.budget < 2 ^ 64) (hrecv : RecvOk c)
    (hwindow : c.rcvNext + c.window.toNat < 2 ^ 64) (f : ChannelFrame) :
    c.deliver? now f = some (c.deliver now f) ∧
      (c.deliver now f).rcvNext ≤ c.rcvNext + c.window.toNat := by
  rw [ChannelCore.deliver?, ChannelCore.deliver]
  split
  · exact ⟨rfl, Nat.le_add_right _ _⟩
  · split
    · exact ⟨rfl, Nat.le_add_right _ _⟩
    · rw [checkedAdd_of_lt hwindow]
      dsimp only [Option.bind_some]
      split
      · exact ⟨rfl, Nat.le_add_right _ _⟩
      · next hlt =>
        obtain ⟨heq, hle⟩ := drain?_eq hwindow
          (c.recvBuffer.insert f.seq f).entries.length
          { c with recvBuffer := c.recvBuffer.insert f.seq f } halive hbudget
          (fun k hk => by
            rcases (AList.mem_insert _).mp hk with rfl | hk
            · exact Nat.lt_of_not_le hlt
            · exact (hrecv.buffer k hk).2) (Nat.le_add_right _ _)
        rw [heq]
        exact ⟨rfl, hle⟩

theorem respond?_eq (halive : c.dead = false) (hbudget : c.budget < 2 ^ 64)
    (hcontrol : 0 < c.state.control) (hseq : f.seq + 1 < 2 ^ 64) :
    c.respond? f = some
      ({ c with rcvNext := f.seq + 1, state := .established, justEstablished := true }.emitNext
        (flagSyn ||| flagAck) []) := by
  have hlt : c.sendNext + 1 < 2 ^ 64 := sendNext_lt halive hbudget hcontrol
  rw [ChannelCore.respond?, checkedAdd_of_lt hseq]
  dsimp only [Option.bind_some]
  rw [emitNext?_eq]
  exact hlt

/-- The SYN that opens a connection has a sequence number in the lower half of the range. -/
def ChannelCore.Modest (c : ChannelCore) (e : Call) : Prop :=
  ∀ f, e = .onFrame f → f.has flagSyn = true → c.state = .closed ∨ c.state = .synSent →
    f.seq < 2 ^ 63

/-- What an incoming frame can do to the receive position. -/
theorem onFrame?_eq (halive : c.dead = false) (hbudget : c.budget < 2 ^ 64) (hrecv : RecvOk c)
    (hwindow : c.rcvNext + c.window.toNat < 2 ^ 64) (hmodest : c.Modest (.onFrame f)) :
    c.onFrame? now f = some (c.onFrame now f) ∧
      ((c.onFrame now f).rcvNext ≤ c.rcvNext + c.window.toNat ∨
        (c.onFrame now f).rcvNext ≤ 2 ^ 63) := by
  rw [ChannelCore.onFrame?, ChannelCore.onFrame]
  have halive' : (c.acked f).dead = false := halive
  have hbudget' : (c.acked f).budget < 2 ^ 64 := hbudget
  have hrecv' : RecvOk (c.acked f) := hrecv.congr rfl rfl rfl fun hd hs => ⟨hd, hs⟩
  have hrcv : (c.acked f).rcvNext = c.rcvNext := rfl
  have hwin : (c.acked f).window = c.window := rfl
  have hsyn : f.has flagSyn = true → (c.acked f).state = .closed ∨ (c.acked f).state = .synSent →
      f.seq < 2 ^ 63 := hmodest f rfl
  rw [← hrcv, ← hwin] at hwindow ⊢
  rw [ChannelCore.acked] at halive' hbudget' hrecv' hrcv hwin hsyn hwindow ⊢
  generalize { c.ack f.ackNum with peerWindow := f.window } = a
    at halive' hbudget' hrecv' hrcv hwin hsyn hwindow ⊢
  -- past the handshake the frame is delivered and the queue pumped
  have hdeliver : a.state = .established ∨ a.state = .finSent →
      (a.deliver? now f).bind ChannelCore.pump? = some (a.deliver now f).pump ∧
        ((a.deliver now f).pump.rcvNext ≤ a.rcvNext + a.window.toNat ∨
          (a.deliver now f).pump.rcvNext ≤ 2 ^ 63) := by
    intro hopen
    obtain ⟨heq, hle⟩ := deliver?_eq halive' hbudget' hrecv' hwindow f
    have hacts : Actions now (some f) a _ ∧ _ := deliver_actions halive' hopen
    rw [heq, (pump_recv _).1]
    exact ⟨pump?_eq hacts.2 (lt_of_le_of_lt hacts.1.budget_le hbudget'), .inl hle⟩
  split
  · exact ⟨rfl, .inl (Nat.le_add_right _ _)⟩
  · cases hstate : a.state with
    | closed =>
      dsimp only
      split
      · next hflag =>
        have hseq := hsyn hflag (.inl hstate)
        rw [respond?_eq halive' hbudget' (by rw [hstate]; decide) (by omega)]
        exact ⟨rfl, .inr hseq⟩
      · exact ⟨rfl, .inl (Nat.le_add_right _ _)⟩
    | synSent =>
      dsimp only
      split
      · next hflags =>
        have hseq := hsyn (Bool.and_eq_true_iff.mp hflags).1 (.inr hstate)
        rw [checkedAdd_of_lt (show f.seq + 1 < 2 ^ 64 by omega)]
        have hact : Action now (some f) a _ :=
          .opened rfl hstate (Bool.and_eq_true_iff.mp hflags).1
        rw [(pump_recv _).1]
        exact ⟨pump?_eq halive' (lt_of_le_of_lt (hact.budget_le halive') hbudget'),
          .inr hseq⟩
      · split
        · next hflag =>
          have hseq := hsyn hflag (.inr hstate)
          rw [respond?_eq halive' hbudget' (by rw [hstate]; decide) (by omega)]
          exact ⟨rfl, .inr hseq⟩
        · exact ⟨rfl, .inl (Nat.le_add_right _ _)⟩
    | established => exact hdeliver (.inl hstate)
    | finSent => exact hdeliver (.inr hstate)

theorem connect?_eq (halive : c.dead = false) (hbudget : c.budget < 2 ^ 64) :
    c.connect? = some c.connect := by
  rw [ChannelCore.connect?, ChannelCore.connect]
  split
  · rfl
  · next hstate =>
    have hlt : c.sendNext + 1 < 2 ^ 64 :=
      sendNext_lt halive hbudget (by rw [not_not.mp hstate]; decide)
    rw [emitNext?_eq]
    exact hlt

theorem call?_eq {e : Call} (hbudget : (c.enqueue e.chunks).budget < 2 ^ 64) (hrecv : RecvOk c)
    (hwindow : c.rcvNext + c.window.toNat < 2 ^ 64) (hmodest : c.Modest e) :
    c.call? now e = c.call now e := by
  cases hdead : c.dead with
  | true => exact (if_pos hdead).trans (if_pos hdead).symm
  | false =>
    have halive : ¬ c.dead = true := by rw [hdead]; decide
    refine (if_neg halive).trans (Eq.trans ?_ (if_neg halive).symm)
    cases e with
    | connect => exact connect?_eq hdead (enqueue_nil c ▸ hbudget)
    | sendMessage msg fid =>
      show (fragment msg Wire.maxChunkPayload fid).bind _ =
        (fragment msg Wire.maxChunkPayload fid).map _
      cases hchunks : fragment msg Wire.maxChunkPayload fid with
      | none => rfl
      | some chunks =>
        have hqueued : (Call.sendMessage msg fid).chunks = chunks := by
          show (fragment msg Wire.maxChunkPayload fid).getD [] = chunks
          rw [hchunks]
          rfl
        rw [hqueued] at hbudget
        exact pump?_eq hdead hbudget
    | close =>
      have hsame : ChannelCore.budget { c with closing := true } = c.budget :=
        budget_of_same rfl rfl rfl rfl
      exact pump?_eq hdead (hsame.symm ▸ enqueue_nil c ▸ hbudget)
    | onTimeout => rfl
    | onFrame f => exact (onFrame?_eq hdead (enqueue_nil c ▸ hbudget) hrecv hwindow hmodest).1

/-! ## Runs -/

theorem length_chunks_le (e : Call) : e.chunks.length ≤ wireMaxFragments := by
  cases e with
  | sendMessage msg fid =>
    show ((fragment msg Wire.maxChunkPayload fid).getD []).length ≤ _
    cases hchunks : fragment msg Wire.maxChunkPayload fid with
    | none => exact Nat.zero_le _
    | some chunks =>
      obtain ⟨ps, hcut⟩ := fragment_cut hchunks
      show chunks.length ≤ _
      rw [hcut.length]
      exact hcut.le
  | connect | close | onTimeout | onFrame f => exact Nat.zero_le _

/-- The counters after `n` calls. -/
structure Bounded (n : Nat) (c : ChannelCore) : Prop where
  budget : c.budget ≤ 3 + wireMaxFragments * n
  rcvNext : c.rcvNext ≤ 2 ^ 63 + wireMaxFragments * n
  recv : RecvOk c

theorem bounded_new (w : UInt16) : Bounded 0 (ChannelCore.new w) where
  budget := le_rfl
  rcvNext := Nat.zero_le _
  recv := (soloInv_init w).recv

theorem budget_enqueue (c : ChannelCore) (chunks : List Bytes) :
    (c.enqueue chunks).budget = c.budget + chunks.length := by
  have hlen : (c.sendQueue ++ chunks).length = c.sendQueue.length + chunks.length :=
    List.length_append
  show c.sendNext + (c.sendQueue ++ chunks).length + (if c.dead then 0 else c.state.control) =
    c.sendNext + c.sendQueue.length + (if c.dead then 0 else c.state.control) + chunks.length
  omega

/-- Only an incoming frame moves the receive position. -/
theorem call_rcvNext {e : Call} (he : c.call now e = some d) :
    d.rcvNext = c.rcvNext ∨ ∃ f, e = .onFrame f ∧ d = c.onFrame now f := by
  obtain ⟨-, he⟩ := Option.ite_none_left_eq_some.mp he
  cases e with
  | connect =>
    cases he
    rw [ChannelCore.connect]
    split
    · exact .inl rfl
    · exact .inl rfl
  | sendMessage msg fid =>
    obtain ⟨chunks, -, rfl⟩ := Option.map_eq_some_iff.mp he
    exact .inl (pump_recv _).1
  | close =>
    cases he
    exact .inl (pump_recv _).1
  | onTimeout =>
    cases he
    rcases onTimeout_cases c with ⟨-, heq⟩ | ⟨-, -, heq⟩ | ⟨-, -, heq⟩
    · exact .inl (by rw [heq])
    · exact .inl (by rw [heq])
    · exact .inl (by rw [heq]; rfl)
  | onFrame f => exact .inr ⟨f, rfl, (Option.some.inj he).symm⟩

theorem Bounded.call {n : Nat} {e : Call} (h : Bounded n c) (hn : n < 2 ^ 46)
    (hmodest : c.Modest e) :
    c.call? now e = c.call now e ∧ ∀ d, c.call now e = some d → Bounded (n + 1) d := by
  have hchunks := length_chunks_le e
  have hbudget := h.budget
  have hrcv := h.rcvNext
  have hwin : c.window.toNat < 2 ^ 16 := c.window.toNat_lt
  have hqueued := budget_enqueue c e.chunks
  rw [show wireMaxFragments = 65535 from rfl] at hchunks hbudget hrcv
  have hwindow : c.rcvNext + c.window.toNat < 2 ^ 64 := by omega
  have hfits : (c.enqueue e.chunks).budget < 2 ^ 64 := by omega
  refine ⟨call?_eq hfits h.recv hwindow hmodest, fun d hd => ?_⟩
  obtain ⟨halive, inp, hacts⟩ := call_actions hd
  have hle := hacts.budget_le
  have hrecv : RecvOk (c.enqueue e.chunks) := h.recv.congr rfl rfl rfl fun hd hs => ⟨hd, hs⟩
  refine ⟨?_, ?_, hrecv.actions hacts⟩
  · rw [show wireMaxFragments = 65535 from rfl]
    omega
  · rw [show wireMaxFragments = 65535 from rfl]
    rcases call_rcvNext hd with heq | ⟨f, rfl, rfl⟩
    · omega
    · have hfits' : c.budget < 2 ^ 64 := by omega
      rcases (@onFrame?_eq now c f halive hfits' h.recv hwindow hmodest).2 with hmoved | hopened
      · omega
      · exact le_trans hopened (Nat.le_add_right _ _)

theorem Bounded.calls : ∀ {calls : List Call} {n : Nat} {c d : ChannelCore}, Bounded n c →
    n + calls.length < 2 ^ 46 → ChannelCore.Calls now ChannelCore.Modest c calls d →
    Bounded (n + calls.length) d := by
  intro calls
  induction calls with
  | nil =>
    intro n c d h _ hd
    obtain rfl : d = c := hd
    exact h
  | cons e calls ih =>
    intro n c d h hlen hcalls
    obtain ⟨hmodest, c', hc', hrest⟩ := hcalls
    rw [List.length_cons] at hlen ⊢
    have hnext := (h.call (by omega) hmodest).2 c' hc'
    rw [show n + (calls.length + 1) = n + 1 + calls.length by omega]
    exact ih hnext (by omega) hrest

/-- In a run in which every SYN that opens the connection has a sequence number below `2 ^ 63`, no
addition overflows. Runs of more than `2 ^ 46` calls are left out: a counter that is moved by
single steps gets to the end of its range in them, whatever the peer sends. -/
theorem no_overflow (w : UInt16) (calls : List Call) (c : ChannelCore) (e : Call)
    (hcalls : ChannelCore.Calls now ChannelCore.Modest (ChannelCore.new w) calls c)
    (hlen : calls.length < 2 ^ 46) (he : c.Modest e) : ¬ c.Overflows now e := by
  have hbounded := (bounded_new w).calls (by omega) hcalls
  rintro ⟨hsome, hnone⟩
  rw [(hbounded.call (by omega) he).1, Option.isNone_iff_eq_none] at hnone
  rw [hnone] at hsome
  exact absurd hsome (by decide)

theorem no_overflow_opening :
    ((ChannelCore.new 4).connect).Modest (.onFrame ⟨flagSyn ||| flagAck, 1, 32, 5, []⟩) ∧
      ¬ ((ChannelCore.new 4).connect).Overflows (fun _ => 0)
        (.onFrame ⟨flagSyn ||| flagAck, 1, 32, 5, []⟩) := by
  have hmodest : ((ChannelCore.new 4).connect).Modest
      (.onFrame ⟨flagSyn ||| flagAck, 1, 32, 5, []⟩) := by
    intro f hf _ _
    rw [← Call.onFrame.inj hf]
    decide
  refine ⟨hmodest, no_overflow 4 [.connect] _ _ ⟨fun f hf => ?_, _, rfl, rfl⟩ (by decide) hmodest⟩
  exact Call.noConfusion hf

/-- The SYN of a peer that starts at the last sequence number, on the wire. -/
def lastSyn : Bytes := [1] ++ List.replicate 8 0 ++ [0, 32] ++ List.replicate 8 255

/-- The SYN of a peer that starts one before, and its first data frame. -/
def lateSyn : Bytes := [1] ++ List.replicate 8 0 ++ [0, 32] ++ List.replicate 7 255 ++ [254]
def lateData : Bytes := [4] ++ List.replicate 8 0 ++ [0, 32] ++ List.replicate 8 255 ++ [7]

theorem syn_overflows :
    (ChannelFrame.parse lastSyn).map (fun f =>
      decide ((ChannelCore.new 32).Overflows (fun _ => 0) (.onFrame f))) = some true ∧
    ((ChannelFrame.parse lateSyn).bind fun syn => (ChannelFrame.parse lateData).bind fun data =>
      ((ChannelCore.new 32).call (fun _ => 0) (.onFrame syn)).map fun c =>
        decide (c.Overflows (fun _ => 0) (.onFrame data))) = some true := by
  decide +kernel

end Telesthete.Channel
