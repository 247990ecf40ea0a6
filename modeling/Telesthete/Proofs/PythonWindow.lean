import Telesthete.Lib.Run
import Telesthete.Proofs.PythonChannel
import Telesthete.Python.Connection

/-!
# The window of a Python channel is never shut

A Python channel advertises the slots left in its reorder buffer. The buffer
holds frames of the window behind the next one expected, so one of the 32
slots is always free, and between two Python channels nobody is ever told a
window of zero. A channel with nothing in flight can therefore always send:
in particular its FIN.

`Roomy m` says that the buffered numbers lie in the 31 from `m` on. Between
two calls `m` is the number behind the next one expected. While buffered
frames are drained it is the next one expected itself, and answers that go
out in between still advertise room.
-/

namespace Telesthete.Python

open Telesthete.Lib Telesthete.Wire Telesthete.Channel Option

/-- A serialized frame that advertises room. -/
def Offers (b : Bytes) : Prop := ∃ f : ChannelFrame, b = f.serialize ∧ f.window ≠ 0

theorem parse_serialize_window {f g : ChannelFrame} (h : ChannelFrame.parse f.serialize = some g) :
    g.window = f.window := by
  by_cases hflags : f.flags &&& reservedMask = 0
  · rw [ChannelFrame.parse_serialize_mod hflags] at h
    rw [← Option.some.inj h]
  · obtain ⟨-, h⟩ := ite_none_left_eq_some.mp h
    obtain ⟨hok, -⟩ := ite_none_left_eq_some.mp h
    exact absurd hflags hok

theorem Offers.window_ne_zero {b : Bytes} {f : ChannelFrame} (h : Offers b)
    (hf : ChannelFrame.parse b = some f) : f.window ≠ 0 := by
  obtain ⟨g, rfl, hg⟩ := h
  rw [parse_serialize_window hf]
  exact hg

namespace Channel

variable {m : Nat} {c d : Channel}

structure Roomy (m : Nat) (c : Channel) : Prop where
  span : ∀ k ∈ c.recvBuffer, m ≤ k ∧ k < m + 31
  offers : ∀ b ∈ c.outbox, Offers b
  remote : c.remoteWindow ≠ 0

theorem Roomy.of_eq {n : Nat} (h : Roomy m c) (heq : m = n) : Roomy n c := heq ▸ h

theorem Roomy.recvWindow_ne_zero (h : Roomy m c) : c.recvWindow ≠ 0 := by
  have hlen : c.recvBuffer.entries.length ≤ (List.range' m 31).length :=
    length_entries_le_of_forall_mem fun k hk => List.mem_range'_1.mpr (h.span k hk)
  rw [List.length_range'] at hlen
  have htoNat : c.recvWindow.toNat = windowSize - c.recvBuffer.entries.length := by
    rw [recvWindow, UInt16.toNat_ofNat']
    exact Nat.mod_eq_of_lt (by unfold windowSize; omega)
  intro hzero
  rw [hzero, UInt16.toNat_zero] at htoNat
  unfold windowSize at htoNat
  omega

theorem Roomy.sends (h : Roomy m c) (hs : Sends c d) : Roomy m d where
  span := by
    rw [hs.recvBuffer]
    exact h.span
  offers := by
    intro b hb
    rcases hs.outbox b hb with hb | ⟨f, hf, hw⟩
    · exact h.offers b hb
    · exact ⟨f, hf, hw ▸ h.recvWindow_ne_zero⟩
  remote := hs.remoteWindow ▸ h.remote

/-! ## Receiving -/

/-- Draining stops at a number that is not in the buffer. -/
theorem Roomy.drain (now : Nat) : ∀ (fuel : Nat) (c : Channel) (acked : Bool),
    c.recvBuffer.entries.length ≤ fuel → Roomy c.rcvNext c →
    Roomy ((c.drain now fuel acked).1.rcvNext + 1) (c.drain now fuel acked).1 := by
  intro fuel
  induction fuel with
  | zero =>
    intro c acked hfuel h
    refine { h with span := fun k hk => ?_ }
    have hlen : (c.recvBuffer.erase k).entries.length + 1 = c.recvBuffer.entries.length :=
      length_entries_erase hk
    omega
  | succ fuel ih =>
    intro c acked hfuel h
    rw [Channel.drain]
    split
    · next hnone =>
      refine { h with span := fun k hk => ?_ }
      have hne : k ≠ c.rcvNext := by
        rintro rfl
        exact AList.lookup_eq_none.mp hnone hk
      have hspan := h.span k hk
      show c.rcvNext + 1 ≤ k ∧ k < c.rcvNext + 1 + 31
      omega
    · next flags data hsome =>
      have herase : Roomy (c.rcvNext + 1)
          { c with recvBuffer := c.recvBuffer.erase c.rcvNext, rcvNext := c.rcvNext + 1 } := by
        refine { h with span := fun k hk => ?_ }
        obtain ⟨hne, hk⟩ := AList.mem_erase.mp hk
        have hspan := h.span k hk
        omega
      have hsends := processFrame_sends now
        { c with recvBuffer := c.recvBuffer.erase c.rcvNext, rcvNext := c.rcvNext + 1 } flags data
      refine ih _ _ ?_ ?_
      · rw [hsends.recvBuffer]
        have hlen := length_entries_erase (mem_of_lookup hsome)
        show (c.recvBuffer.erase c.rcvNext).entries.length ≤ fuel
        omega
      · rw [hsends.rcvNext]
        exact herase.sends hsends

theorem Roomy.accept (h : Roomy (c.rcvNext + 1) c) (now : Nat) (f : ChannelFrame) :
    Roomy ((c.accept now f).rcvNext + 1) (c.accept now f) := by
  have htaken : Roomy (c.rcvNext + 1) { c with rcvNext := c.rcvNext + 1 } := { h with }
  have hsends := processFrame_sends now { c with rcvNext := c.rcvNext + 1 } f.flags f.data
  have hprocess := (htaken.sends hsends).of_eq hsends.rcvNext.symm
  have hdrain := Roomy.drain now _ _
    ({ c with rcvNext := c.rcvNext + 1 }.processFrame now f.flags f.data).2 (le_rfl) hprocess
  rw [Channel.accept]
  split
  · exact hdrain
  · exact hdrain.sends (transmit_sends _ _ _ _)

theorem Roomy.keepEarly {f : ChannelFrame} (h : Roomy (c.rcvNext + 1) c) (hlt : c.rcvNext < f.seq) :
    Roomy ((c.keepEarly f).rcvNext + 1) (c.keepEarly f) := by
  rw [Channel.keepEarly]
  split
  · next hroom =>
    refine { h with span := fun k hk => ?_ }
    rcases (AList.mem_insert _).mp hk with rfl | hold
    · have hwin := hroom.1
      unfold windowSize at hwin
      show c.rcvNext + 1 ≤ f.seq ∧ f.seq < c.rcvNext + 1 + 31
      omega
    · exact h.span k hold
  · exact h

theorem Roomy.handleFrame {f : ChannelFrame} (h : Roomy (c.rcvNext + 1) c) (now : Nat)
    (hf : f.window ≠ 0) : Roomy ((c.handleFrame now f).rcvNext + 1) (c.handleFrame now f) := by
  have hwindow : Roomy (c.rcvNext + 1) { c with remoteWindow := f.window } :=
    { h with remote := hf }
  rw [Channel.handleFrame]
  dsimp only
  split
  · exact { hwindow with }
  · have hacked : Roomy (c.rcvNext + 1) (if f.has flagAck then
        { c with remoteWindow := f.window }.handleAck now f.ackNum
        else { c with remoteWindow := f.window }) := by
      split
      · exact hwindow.sends (handleAck_sends now _ _).2
      · exact hwindow
    have hrcv : (if f.has flagAck then { c with remoteWindow := f.window }.handleAck now f.ackNum
        else { c with remoteWindow := f.window }).rcvNext = c.rcvNext := by
      split
      · exact (handleAck_sends now _ _).2.rcvNext
      · rfl
    generalize (if f.has flagAck then { c with remoteWindow := f.window }.handleAck now f.ackNum
      else { c with remoteWindow := f.window }) = d at hacked hrcv
    rw [← hrcv] at hacked
    split
    · exact hacked
    · split
      · exact hacked.sends (transmit_sends _ _ _ _)
      · split
        · next hlt => exact (hacked.keepEarly hlt).sends (transmit_sends _ _ _ _)
        · exact hacked.accept now f

theorem Roomy.call (h : Roomy (c.rcvNext + 1) c) (hs : Sends c d) : Roomy (d.rcvNext + 1) d :=
  (h.sends hs).of_eq (by rw [hs.rcvNext])

theorem roomy_new : Roomy (Channel.new.rcvNext + 1) Channel.new where
  span := fun _ hk => by cases hk
  offers := fun _ hb => by cases hb
  remote := by decide

end Channel

/-! ## Two Python channels -/

/-- A Python channel between two calls. -/
def End.Roomy : End → Prop
  | .python c => c.Roomy (c.rcvNext + 1)
  | .rust _ => False

theorem End.Roomy.exists {e : End} (h : e.Roomy) : ∃ c, e = .python c ∧ c.Roomy (c.rcvNext + 1) := by
  cases e with
  | python c => exact ⟨c, rfl, h⟩
  | rust c => cases h

namespace Connection

variable {L L' : Connection} {x : Side}

/-- Both ends are Python channels with room, and nothing on the network says otherwise. -/
structure Ample (L : Connection) : Prop where
  ends : ∀ x, (L.ends x).Roomy
  net : ∀ x, ∀ b ∈ L.emitted x, Offers b

theorem Ample.act {d : Channel} (h : Ample L) (hd : d.Roomy (d.rcvNext + 1)) :
    Ample (L.act x (.python d)) where
  ends := by
    intro y
    show (Function.update L.ends x (End.sent (.python d)) y).Roomy
    rcases Side.eq_or_eq_other x y with rfl | rfl
    · rw [Function.update_self]
      exact { hd with offers := fun _ hb => (by cases hb) }
    · rw [Function.update_of_ne (Side.other_ne x)]
      exact h.ends x.other
  net := by
    intro y b hb
    have hb : b ∈ Function.update L.emitted x (L.emitted x ++ d.outbox) y := hb
    rcases Side.eq_or_eq_other x y with rfl | rfl
    · rw [Function.update_self] at hb
      rcases List.mem_append.mp hb with hold | hnew
      · exact h.net y b hold
      · exact hd.offers b hnew
    · rw [Function.update_of_ne (Side.other_ne x)] at hb
      exact h.net x.other b hb

theorem Ample.exec {ev : Event} (h : Ample L) (he : L.exec ev = some L') : Ample L' := by
  cases ev with
  | connect x now =>
    obtain ⟨e, hop, rfl⟩ := map_eq_some_iff.mp he
    obtain ⟨c, hc, hroomy⟩ := (h.ends x).exists
    rw [hc] at hop
    obtain ⟨d, hd, rfl⟩ := map_eq_some_iff.mp hop
    exact h.act (hroomy.call (Channel.connect_sends hd))
  | sendMessage x msg fid now =>
    obtain ⟨e, hop, rfl⟩ := map_eq_some_iff.mp he
    obtain ⟨c, hc, hroomy⟩ := (h.ends x).exists
    rw [hc] at hop
    obtain ⟨d, hd, rfl⟩ := map_eq_some_iff.mp hop
    exact { h.act (x := x) (hroomy.call (Channel.sendMessage_sends hd)) with }
  | close x now =>
    obtain ⟨e, hop, rfl⟩ := map_eq_some_iff.mp he
    obtain ⟨c, hc, hroomy⟩ := (h.ends x).exists
    rw [hc] at hop
    cases hop
    exact h.act (hroomy.call (Channel.close_sends now c))
  | closeReturn x =>
    obtain ⟨e, hop, rfl⟩ := map_eq_some_iff.mp he
    obtain ⟨c, hc, hroomy⟩ := (h.ends x).exists
    rw [hc] at hop
    obtain ⟨-, hop⟩ := ite_none_right_eq_some.mp hop
    cases hop
    exact h.act { hroomy with }
  | retransmit x now =>
    obtain ⟨e, hop, rfl⟩ := map_eq_some_iff.mp he
    obtain ⟨c, hc, hroomy⟩ := (h.ends x).exists
    rw [hc] at hop
    obtain ⟨d, hd, rfl⟩ := map_eq_some_iff.mp hop
    exact h.act (hroomy.call (Channel.retransmit_sends hd).1)
  | deliver x frame now =>
    obtain ⟨hb, he⟩ := ite_none_right_eq_some.mp he
    obtain ⟨f, hf, he⟩ := bind_eq_some_iff.mp he
    obtain ⟨e, hop, rfl⟩ := map_eq_some_iff.mp he
    obtain ⟨c, hc, hroomy⟩ := (h.ends x).exists
    rw [hc] at hop
    cases hop
    have hoffers := h.net x.other frame (List.contains_iff_mem.mp hb)
    exact h.act (hroomy.handleFrame now (hoffers.window_ne_zero hf))

theorem ample_init : Ample (init fun _ => .python .new) where
  ends := fun _ => Channel.roomy_new
  net := fun _ _ hb => by cases hb

/-- Between two Python channels nobody ever advertises an empty window. -/
theorem ample_of_run {ok : Connection → Event → Prop}
    (h : GuardedRun exec ok (init fun _ => .python .new) L) : Ample L :=
  GuardedRun.invariant h ample_init fun _ _ _ hs _ he => hs.exec he

end Connection

end Telesthete.Python
