import Telesthete.Channel.Task
import Telesthete.Proofs.ChannelHostile

/-!
# Retransmission is bounded

One counter stands for all frames in flight. A timeout that retransmits adds one
to it, an acknowledgement that removes a frame sets it back to zero, and nothing
else touches it. So in a stretch in which no incoming frame removes anything the
counter only grows, whatever is sent, acknowledged again or opened in between,
and the timeout that finds it at the limit tears the connection down.

For the counter to stay, it has to be shown that a frame whose acknowledgement
clears something really removes it from what is in flight afterwards: the frames
that the same call appends have other numbers.
-/

namespace Telesthete.Channel

open Telesthete.Lib Telesthete.Wire Option

variable {now : Nat → Nat} {inp : Option ChannelFrame} {c d : ChannelCore} {f : ChannelFrame}

/-! ## The counter -/

/-- An incoming frame leaves everything that was in flight in flight. -/
def ChannelCore.Quiet (now : Nat → Nat) (c : ChannelCore) (e : Call) : Prop :=
  ∀ f, e = .onFrame f → ∀ u ∈ c.unacked, u ∈ (c.onFrame now f).unacked

/-- The counter never passes the limit. -/
theorem Action.retries_le (ha : Action now inp c d) (h : c.retries ≤ maxRetries) :
    d.retries ≤ maxRetries := by
  cases ha with
  | retry hlt => exact hlt
  | ack _ =>
    show (if _ then 0 else c.retries) ≤ _
    split
    · exact Nat.zero_le _
    · exact h
  | consume _ _ => exact (grows_consume now c _).retries ▸ h
  | _ => exact h

theorem Actions.retries_le (hs : Actions now inp c d) (h : c.retries ≤ maxRetries) :
    d.retries ≤ maxRetries := by
  induction hs with
  | refl => exact h
  | tail _ hlast ih => exact hlast.2.retries_le ih

theorem Solo.Reachable.retries_le {w : UInt16} {s : Solo} (h : Solo.Reachable now w s) :
    s.core.retries ≤ maxRetries := by
  refine GuardedRun.invariant (P := fun s => s.core.retries ≤ maxRetries) h (Nat.zero_le _) ?_
  intro s e s' hs _ he
  obtain ⟨d, hd, rfl⟩ := map_eq_some_iff.mp he
  obtain ⟨-, inp, hacts⟩ := call_actions hd
  exact hacts.retries_le hs

namespace Task

variable {rto clock : Nat} {accepts : Bool} {t t' : Task} {w : Wake} {window : UInt16}

/-- The steps of settling between the flush and the end of the pass send nothing. -/
structure Still (t t' : Task) : Prop where
  sent : t'.sent = t.sent
  outbox : t'.core.outbox = t.core.outbox
  dead : t'.core.dead = t.core.dead
  running : t'.running = t.running

theorem still_answer (t : Task) : Still t t.answer := by
  rw [answer]
  split
  · exact ⟨rfl, rfl, rfl, rfl⟩
  · exact ⟨rfl, rfl, rfl, rfl⟩

theorem still_hangUp (t : Task) : Still t t.hangUp := by
  rw [hangUp]
  split
  · exact ⟨rfl, rfl, rfl, rfl⟩
  · exact ⟨rfl, rfl, rfl, rfl⟩

theorem rearm_spec (t : Task) (clock rto : Nat) :
    (t.rearm clock rto).sent = t.sent ∧ (t.rearm clock rto).core = t.core ∧
      (t.rearm clock rto).running = (t.running && !t.core.dead) := by
  rw [rearm]
  split
  · next hdead =>
    rw [hdead, Bool.not_true, Bool.and_false]
    exact ⟨rfl, rfl, rfl⟩
  · next hdead =>
    rw [Bool.not_eq_true] at hdead
    rw [hdead, Bool.not_false, Bool.and_true]
    exact ⟨rfl, rfl, rfl⟩

/-- Settling sends what is in the outbox, and the loop goes on if the core lives. -/
theorem settle_spec (t : Task) (clock rto : Nat) (accepts : Bool) :
    (t.settle clock rto accepts).sent = t.sent ++ t.core.outbox ∧
      (t.settle clock rto accepts).core.outbox = [] ∧
      (t.settle clock rto accepts).core.dead = t.core.dead ∧
      (t.settle clock rto accepts).running = (t.running && !t.core.dead) := by
  have hanswer := still_answer (t.flush.handOver accepts)
  have hhangUp := still_hangUp (t.flush.handOver accepts).answer
  obtain ⟨hsent, hcore, hrunning⟩ :=
    rearm_spec (t.flush.handOver accepts).answer.hangUp clock rto
  rw [settle]
  refine ⟨?_, ?_, ?_, ?_⟩
  · rw [hsent, hhangUp.sent, hanswer.sent]
    rfl
  · rw [hcore, hhangUp.outbox, hanswer.outbox]
    rfl
  · rw [hcore, hhangUp.dead, hanswer.dead]
    rfl
  · rw [hrunning, hhangUp.running, hanswer.running, hhangUp.dead, hanswer.dead]
    rfl

/-- A pass leaves the loop at once, or handles what woke it and settles. -/
theorem turn_cases (h : turn now rto clock accepts t w = some t') :
    t.running = true ∧ (t' = { t with running := false } ∨
      ∃ a, t.handle now clock w = some a ∧ t' = a.settle clock rto accepts) := by
  obtain ⟨hrunning, h⟩ := ite_none_left_eq_some.mp h
  refine ⟨by simpa using hrunning, ?_⟩
  cases w with
  | endpointDropped => exact .inl (Option.some.inj h).symm
  | hubGone => exact .inl (Option.some.inj h).symm
  | command cmd =>
    obtain ⟨a, ha, rfl⟩ := map_eq_some_iff.mp h
    exact .inr ⟨a, ha, rfl⟩
  | frame f =>
    obtain ⟨a, ha, rfl⟩ := map_eq_some_iff.mp h
    exact .inr ⟨a, ha, rfl⟩
  | timer =>
    obtain ⟨a, ha, rfl⟩ := map_eq_some_iff.mp h
    exact .inr ⟨a, ha, rfl⟩

/-- The loop only goes on with a core that is alive. -/
theorem Reachable.alive (h : Reachable now rto window t) (hrunning : t.running = true) :
    t.core.dead = false := by
  refine GuardedRun.invariant (P := fun t : Task => t.running = true → t.core.dead = false) h
    (fun _ => rfl) ?_ hrunning
  intro t p t' _ _ hturn hrunning'
  obtain ⟨-, rfl | ⟨a, -, rfl⟩⟩ := turn_cases hturn
  · exact absurd (show false = true from hrunning') (by decide)
  · obtain ⟨-, -, hdead, hrun⟩ := settle_spec a p.clock rto p.accepts
    rw [hrun, Bool.and_eq_true, Bool.not_eq_true'] at hrunning'
    rw [hdead, hrunning'.2]

end Task

end Telesthete.Channel
