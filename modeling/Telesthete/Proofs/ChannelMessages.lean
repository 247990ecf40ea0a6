import Mathlib.Order.Monotone.Defs
import Telesthete.Proofs.ChannelReliable
import Telesthete.Proofs.Reassembly

/-!
# From chunks to messages

The reliable stream hands a core's reassembler the peer's chunks in order.
What the application sees is what the reassembler makes of them, and the
reassembler has a clock: a message that takes longer than its timeout to
transfer is discarded although every chunk of it arrives.

`History` says that the state of the reassembler and the messages delivered
are a replay of the chunks fed at their readings, which never go back.
Together with the stream theorem and the replay theorem this settles what is
delivered: the messages that were on time, in order, each once and whole.
-/

namespace Telesthete.Channel

open Telesthete.Lib Telesthete.Wire

/-- The reassembler and the messages delivered are a replay of the history. -/
structure History (now : Nat → Nat) (c : ChannelCore) : Prop where
  replay : (c.reassembler, c.delivered) =
    (Reassembler.forChunkSize Wire.maxChunkPayload).replay (c.fed.zip c.fedAt)
  len : c.fed.length = c.fedAt.length
  sorted : c.fedAt.Pairwise (· ≤ ·)
  below : ∀ t ∈ c.fedAt, ∃ s, s < c.rcvNext ∧ t = now s
  early : c.dead = false → c.state = .closed ∨ c.state = .synSent → c.fedAt = []

section core

variable {now : Nat → Nat} {inp : Option ChannelFrame} {c d : ChannelCore}

theorem history_new (window : UInt16) : History now (ChannelCore.new window) :=
  ⟨rfl, rfl, List.Pairwise.nil, by simp [ChannelCore.new], fun _ _ => rfl⟩

/-- An action that leaves the history alone. -/
theorem History.congr (h : History now c) (hreasm : d.reassembler = c.reassembler)
    (hdel : d.delivered = c.delivered) (hfed : d.fed = c.fed) (hat : d.fedAt = c.fedAt)
    (hrcv : c.rcvNext ≤ d.rcvNext)
    (hearly : d.dead = false → d.state = .closed ∨ d.state = .synSent → c.fedAt = []) :
    History now d where
  replay := by rw [hreasm, hdel, hfed, hat]; exact h.replay
  len := by rw [hfed, hat]; exact h.len
  sorted := by rw [hat]; exact h.sorted
  below := by
    rw [hat]
    intro t ht
    obtain ⟨s, hs, rfl⟩ := h.below t ht
    exact ⟨s, lt_of_lt_of_le hs hrcv, rfl⟩
  early := by rw [hat]; exact hearly

theorem not_early (h : c.state = .established ∨ c.state = .finSent) :
    ¬ (c.state = .closed ∨ c.state = .synSent) := by
  rintro (he | he) <;> rcases h with h | h <;> rw [h] at he <;> exact absurd he (by decide)

/-- Draining a data frame appends one entry to the history. -/
theorem History.fed (h : History now c) (hmono : Monotone now) {data : Bytes}
    (hd : (d.reassembler, d.delivered) = ((c.reassembler.feed data (now c.rcvNext)).1,
      c.delivered ++ (c.reassembler.feed data (now c.rcvNext)).2.toList))
    (hfed : d.fed = c.fed ++ [data]) (hat : d.fedAt = c.fedAt ++ [now c.rcvNext])
    (hrcv : d.rcvNext = c.rcvNext + 1) (hopen : ¬ (d.state = .closed ∨ d.state = .synSent)) :
    History now d where
  replay := by
    rw [hd, hfed, hat, List.zip_append h.len, Reassembler.replay_append, ← h.replay]
    simp [Reassembler.replay]
  len := by rw [hfed, hat, List.length_append, List.length_append, h.len]; rfl
  sorted := by
    rw [hat, List.pairwise_append]
    refine ⟨h.sorted, List.pairwise_singleton _ _, ?_⟩
    intro t ht t' ht'
    obtain ⟨s, hs, rfl⟩ := h.below t ht
    rw [List.mem_singleton.mp ht']
    exact hmono (le_of_lt hs)
  below := by
    rw [hat, hrcv]
    intro t ht
    rcases List.mem_append.mp ht with ht | ht
    · obtain ⟨s, hs, rfl⟩ := h.below t ht
      exact ⟨s, Nat.lt_succ_of_lt hs, rfl⟩
    · exact ⟨c.rcvNext, Nat.lt_succ_self _, List.mem_singleton.mp ht⟩
  early := fun _ he => absurd he hopen

theorem History.consume {fr : ChannelFrame} (h : History now c) (hmono : Monotone now)
    (hstate : c.state = .established ∨ c.state = .finSent) : History now (c.consume now fr) := by
  have hopen := not_early hstate
  rw [ChannelCore.consume]
  simp only
  split
  · split
    · exact h.congr rfl rfl rfl rfl (Nat.le_succ _) fun _ he => absurd he (by simp)
    · exact h.congr rfl rfl rfl rfl (Nat.le_succ _) fun _ he => absurd he hopen
  · split
    · exact h.fed hmono rfl rfl rfl rfl hopen
    · exact h.congr rfl rfl rfl rfl (Nat.le_succ _) fun _ he => absurd he hopen

theorem History.action (h : History now c) (hmono : Monotone now) (halive : c.dead = false)
    (hact : Action now inp c d) : History now d := by
  cases hact with
  | consume hstate _ => exact h.consume hmono hstate
  | respond _ hstate _ =>
    have hnil := h.early halive hstate
    refine ⟨h.replay, h.len, h.sorted, ?_, fun _ _ => hnil⟩
    show ∀ t ∈ c.fedAt, _
    rw [hnil]
    simp
  | opened _ hstate _ =>
    have hnil := h.early halive (.inr hstate)
    refine ⟨h.replay, h.len, h.sorted, ?_, fun _ _ => hnil⟩
    show ∀ t ∈ c.fedAt, _
    rw [hnil]
    simp
  | syn hstate =>
    exact h.congr rfl rfl rfl rfl (le_rfl) fun _ _ => h.early halive (.inl hstate)
  | chunk hstate _ => exact h.congr rfl rfl rfl rfl (le_rfl) h.early
  | fin hstate _ _ =>
    exact h.congr rfl rfl rfl rfl (le_rfl) fun _ he => absurd he (by simp)
  | exhausted _ _ | rst _ _ => exact h.congr rfl rfl rfl rfl (le_rfl) nofun
  | closing | retry _ | resend _ | ack _ | pureAck _ | buffer _ _ _ _ _ =>
    exact h.congr rfl rfl rfl rfl (le_rfl) h.early

theorem History.actions (h : History now c) (hmono : Monotone now) (hacts : Actions now inp c d) :
    History now d := by
  induction hacts with
  | refl => exact h
  | tail _ hlast ih => exact ih.action hmono hlast.1 hlast.2

end core

variable {now : Side → Nat → Nat} {window : Side → UInt16} {L L' : Link}

theorem Link.Reachable.history (h : Link.Reachable now window L) (hclock : ∀ x, Monotone (now x)) :
    ∀ x, History (now x) (L.core x) := by
  induction h with
  | refl => exact fun x => history_new (window x)
  | @tail M M' _ hstep ih =>
    obtain ⟨e, -, he⟩ := hstep
    intro y
    rcases Link.exec_cases he with ⟨x, inp, d, hacts, rfl⟩ |
        ⟨x, msg, fid, chunks, d, -, hacts, rfl⟩ | ⟨x, i, rfl⟩
    · rcases Side.eq_or_eq_other x y with rfl | rfl
      · simpa [Link.act] using (ih y).actions (hclock y) hacts.actions
      · simpa [Link.act] using ih x.other
    · rcases Side.eq_or_eq_other x y with rfl | rfl
      · have hq : History (now y) ((M.core y).enqueue chunks) :=
          (ih y).congr rfl rfl rfl rfl (le_rfl) (ih y).early
        simpa [Link.act, Link.record] using hq.actions (hclock y) hacts.actions
      · simpa [Link.act, Link.record] using ih x.other
    · rcases Side.eq_or_eq_other x y with rfl | rfl
      · simp only [Link.flush, Function.update_self]
        exact (ih y).congr rfl rfl rfl rfl (le_rfl) (ih y).early
      · simpa [Link.flush] using ih x.other

/-- Only messages that can be cut were ever sent. -/
theorem Link.Reachable.fragments (h : Link.Reachable now window L) :
    ∀ x, ∀ m ∈ L.sent x, ∃ chunks, fragment m.2 Wire.maxChunkPayload m.1 = some chunks := by
  induction h with
  | refl => simp [Link.init]
  | tail _ hstep ih =>
    obtain ⟨e, -, he⟩ := hstep
    intro y m hm
    rcases Link.exec_cases he with ⟨x, inp, d, -, rfl⟩ |
        ⟨x, msg, fid, chunks, d, hchunks, -, rfl⟩ | ⟨x, i, rfl⟩
    · exact ih y m hm
    · rcases Side.eq_or_eq_other x y with rfl | rfl
      · simp only [Link.act, Link.record, Function.update_self, List.mem_append,
          List.mem_singleton] at hm
        rcases hm with hm | rfl
        · exact ih y m hm
        · exact ⟨chunks, hchunks⟩
      · simp only [Link.act, Link.record, ne_eq, Side.other_ne, not_false_eq_true,
          Function.update_of_ne] at hm
        exact ih x.other m hm
    · exact ih y m hm

/-- With clocks that never go back and fragment ids that are never reused, a
core has delivered exactly the messages that were on time: of the messages
its peer sent, in order, those of which every chunk was fed, the last within
the reassembly timeout of the first. While no message takes longer than that,
they are a prefix of the messages sent. -/
theorem delivered_eq_onTime (hclock : ∀ y, Monotone (now y))
    (hreach : Link.Reachable now window L) (hfits : ∀ y, (L.core y).sendNext < 2 ^ 64)
    (hids : ∀ y, ((L.sent y).map Prod.fst).Nodup) (x : Side) :
    (L.core x).delivered =
        onTime defaultReassemblyTimeout (L.sent x.other) (L.core x).fedAt ∧
      (Timely defaultReassemblyTimeout (L.sent x.other) (L.core x).fedAt →
        (L.core x).delivered <+: (L.sent x.other).map Prod.snd) := by
  have hhist := hreach.history hclock x
  obtain ⟨log, acked, hinv⟩ := hreach.linkInv hfits
  have hfst : ((L.core x).fed.zip (L.core x).fedAt).map Prod.fst = (L.core x).fed :=
    List.map_fst_zip (le_of_eq hhist.len)
  have hsnd : ((L.core x).fed.zip (L.core x).fedAt).map Prod.snd = (L.core x).fedAt :=
    List.map_snd_zip (le_of_eq hhist.len.symm)
  have heq : (L.core x).delivered =
      onTime defaultReassemblyTimeout (L.sent x.other) (L.core x).fedAt := by
    have hreplay := replay_eq_onTime (L.sent x.other) _ []
      ((L.core x).fed.zip (L.core x).fedAt) Reassembler.sane_forChunkSize
      (hreach.fragments x.other) (hids x.other) (fun _ _ => List.not_mem_nil)
      (by rw [hfst]; exact hinv.fed_isPrefix x) (by rw [hsnd]; exact hhist.sorted)
    rw [← hhist.replay, hsnd] at hreplay
    exact hreplay
  refine ⟨heq, fun htimely => ?_⟩
  rw [heq]
  exact onTime_isPrefix _ _ htimely

/-- Open, then send a message of two chunks and one of one, and deliver the
three chunks in order. -/
def twoMessages (now : Side → Nat → Nat) : Option Link :=
  play (Link.exec now) (fun _ _ => true) (Link.init fun _ => 4)
    [fun _ => .connect .a, Link.pass .b 0, Link.pass .a 0,
     fun _ => .sendMessage .a (List.replicate 1004 7) (List.Vector.replicate 16 1),
     fun _ => .sendMessage .a [2] (List.Vector.replicate 16 2),
     Link.pass .b 2, Link.pass .b 3, Link.pass .b 4]

theorem delivered_eq_onTime_prompt : ∃ L, twoMessages (fun _ s => s) = some L ∧
    (L.core .b).delivered = [List.replicate 1004 7, [2]] ∧
    (L.core .b).delivered =
      onTime defaultReassemblyTimeout (L.sent .a) (L.core .b).fedAt := by
  refine exists_some (fun L => (L.core .b).delivered = [List.replicate 1004 7, [2]] ∧
    ∀ x, (L.core x).sendNext < 2 ^ 64 ∧ ((L.sent x).map Prod.fst).Nodup) (by decide +kernel) ?_
  rintro L hL ⟨hdel, hside⟩
  refine ⟨hdel, ?_⟩
  exact (delivered_eq_onTime (fun _ => monotone_id) (Link.reachable_play hL)
    (fun x => (hside x).1) (fun x => (hside x).2) .b).1

/-- The second chunk arrives 31 seconds after the first. -/
def slowClock (_ : Side) (s : Nat) : Nat := if s ≤ 1 then 0 else 31 * 10 ^ 9

/-- The message that took 31 seconds is lost, and the one after it is not:
what is delivered is no prefix of what was sent. -/
theorem slow_message_skipped : ∃ L, Link.Reachable slowClock (fun _ => 4) L ∧
    (∀ y, Monotone (slowClock y)) ∧ (∀ y, (L.core y).sendNext < 2 ^ 63) ∧
    (∀ y, ((L.sent y).map Prod.fst).Nodup) ∧
    (L.core .b).delivered = [[2]] ∧
    (L.sent .a).map Prod.snd = [List.replicate 1004 7, [2]] ∧
    ¬ (L.core .b).delivered <+: (L.sent .a).map Prod.snd := by
  have hall : (twoMessages slowClock).any (fun L =>
      (L.core .b).delivered = [[2]] ∧
      (L.sent .a).map Prod.snd = [List.replicate 1004 7, [2]] ∧
      ∀ x, (L.core x).sendNext < 2 ^ 63 ∧ ((L.sent x).map Prod.fst).Nodup) = true := by
    decide +kernel
  obtain ⟨L, hL, hdel, hsent, hside⟩ := some_of_any hall
  refine ⟨L, Link.reachable_play hL, ?_, fun x => (hside x).1, fun x => (hside x).2,
    hdel, hsent, ?_⟩
  · intro y s s' hs
    rw [slowClock, slowClock]
    split
    · exact Nat.zero_le _
    · rw [if_neg (by omega)]
  · rw [hdel, hsent]
    decide

end Telesthete.Channel
