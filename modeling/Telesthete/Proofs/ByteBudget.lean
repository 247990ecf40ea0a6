import Telesthete.Lib.Run
import Telesthete.Relay.Budget

/-!
# The counter is what is queued and what is under way

Every byte that is charged is in a queue or in the hands of one step that has not
finished: a send that holds a charge, or a writer that has taken a frame out and
not yet given its charge back. `step_effect` says that a step either moves bytes
among these, or charges new ones, or gives some of them back; so the counter is
their sum, and giving back never takes it below zero.
-/

namespace Telesthete.Relay

open Telesthete.Lib

variable {s s' : Egress} {limit : UInt64}

def SendCall.bytes : SendCall → Nat
  | .reserved _ frame => frame.bytes.length
  | .refunding frame => frame.bytes.length

def Writer.bytes : Writer → Nat
  | .dequeued frame => frame.bytes.length
  | _ => 0

def Queue.queued (q : Queue) : Nat := (q.frames.map fun frame => frame.bytes.length).sum

namespace Egress

/-- The bytes sitting in the queues. -/
def queuedBytes (s : Egress) : Nat := (s.queues.entries.map fun e => e.2.queued).sum

/-- The bytes a send has charged and not yet queued or given back. -/
def callBytes (s : Egress) : Nat := (s.calls.entries.map fun e => e.2.bytes).sum

/-- The bytes a writer has dequeued and not yet given back. -/
def writerBytes (s : Egress) : Nat := (s.queues.entries.map fun e => e.2.writer.bytes).sum

/-- All bytes that are charged. -/
def charged (s : Egress) : Nat := s.queuedBytes + (s.callBytes + s.writerBytes)

/-- What a step can do, and the frame whose charge it gives back: move charged bytes, charge a
frame, or give the charge of one back. -/
inductive Effect (s s' : Egress) : Option Frame → Prop
  | moved (budget : s'.budget = s.budget) (charged : s'.charged = s.charged) : Effect s s' none
  | reserved (frame : Frame) (budget : s.budget.tryReserve frame.len = some s'.budget)
      (charged : s'.charged = s.charged + frame.bytes.length) : Effect s s' none
  | released (frame : Frame) (budget : s'.budget = s.budget.release frame.len)
      (charged : s'.charged + frame.bytes.length = s.charged) : Effect s s' (some frame)

variable {task queue depth : Nat} {frame : Frame} {q q' : Queue} {call call' : SendCall}

/-! ## What a change of one entry does to the sums -/

theorem same_queues (h : s'.queues = s.queues) :
    s'.queuedBytes = s.queuedBytes ∧ s'.writerBytes = s.writerBytes := by
  unfold queuedBytes writerBytes
  rw [h]
  exact ⟨rfl, rfl⟩

theorem replace_queue (h : s.queues.lookup queue = some q)
    (hqueues : s'.queues = s.queues.insert queue q') :
    s'.queuedBytes + q.queued = s.queuedBytes + q'.queued ∧
      s'.writerBytes + q.writer.bytes = s.writerBytes + q'.writer.bytes := by
  unfold queuedBytes writerBytes
  rw [hqueues]
  exact ⟨sum_entries_replace (fun e => e.2.queued) h,
    sum_entries_replace (fun e => e.2.writer.bytes) h⟩

theorem replace_call (h : s.calls.lookup task = some call)
    (hcalls : s'.calls = s.calls.insert task call') :
    s'.callBytes + call.bytes = s.callBytes + call'.bytes := by
  unfold callBytes
  rw [hcalls]
  exact sum_entries_replace (fun e => e.2.bytes) h

theorem erase_call (h : s.calls.lookup task = some call)
    (hcalls : s'.calls = s.calls.erase task) : s'.callBytes + call.bytes = s.callBytes := by
  unfold callBytes
  rw [hcalls]
  exact sum_entries_erase (fun e => e.2.bytes) h

theorem queued_append (q : Queue) (frame : Frame) :
    ({ q with frames := q.frames ++ [frame] } : Queue).queued =
      q.queued + frame.bytes.length := by
  simp [Queue.queued]

/-! ## The events -/

theorem effect_peerSink (h : s.step (.peerSink queue depth) = some s') : Effect s s' none := by
  cases hq : s.queues.lookup queue with
  | some q => simp [step, hq] at h
  | none =>
    simp only [step, hq, Option.some.injEq] at h
    subst h
    refine .moved rfl ?_
    unfold charged queuedBytes writerBytes callBytes
    rw [sum_entries_insert_of_none _ hq, sum_entries_insert_of_none _ hq]
    simp [Queue.queued, Writer.bytes]

theorem effect_reserve (h : s.step (.reserve task queue frame) = some s') : Effect s s' none := by
  cases hc : s.calls.lookup task with
  | some call => simp [step, hc] at h
  | none =>
    cases hq : s.queues.lookup queue with
    | none => simp [step, hc, hq] at h
    | some q =>
      cases hb : s.budget.tryReserve frame.len with
      | none =>
        simp only [step, hc, hq, hb, Option.some.injEq] at h
        subst h
        exact .moved rfl rfl
      | some budget =>
        simp only [step, hc, hq, hb, Option.some.injEq] at h
        subst h
        refine .reserved frame hb ?_
        unfold charged queuedBytes writerBytes callBytes
        rw [sum_entries_insert_of_none _ hc]
        simp only [SendCall.bytes]
        omega

/-- The charge of a send goes with its frame into the queue, or stays with the send. -/
theorem effect_enqueue (h : s.step (.enqueue task) = some s') : Effect s s' none := by
  cases hc : s.calls.lookup task with
  | none => simp [step, hc] at h
  | some call =>
    cases call with
    | refunding frame => simp [step, hc] at h
    | reserved queue frame =>
      have hbytes : (SendCall.reserved queue frame).bytes = frame.bytes.length := rfl
      cases hq : s.queues.lookup queue with
      | none => simp [step, hc, hq] at h
      | some q =>
        simp only [step, hc, hq] at h
        split at h
        · have hs := Option.some.inj h.symm
          have hcalls := replace_call hc (congrArg Egress.calls hs)
          have hqueues := same_queues (show s'.queues = s.queues by rw [hs])
          have hrefund : (SendCall.refunding frame).bytes = frame.bytes.length := rfl
          refine .moved (show s'.budget = s.budget by rw [hs]) ?_
          unfold charged
          omega
        · have hs := Option.some.inj h.symm
          have hcalls := erase_call hc (congrArg Egress.calls hs)
          have hqueues := replace_queue hq (congrArg Egress.queues hs)
          simp only [queued_append] at hqueues
          refine .moved (show s'.budget = s.budget by rw [hs]) ?_
          unfold charged
          omega

theorem effect_refund (h : s.step (.refund task) = some s') :
    Effect s s' (s.releases (.refund task)) := by
  simp only [step] at h
  split at h
  · next frame hc =>
    have hreleases : s.releases (.refund task) = some frame := by simp [releases, hc]
    have hbytes : (SendCall.refunding frame).bytes = frame.bytes.length := rfl
    have hs := Option.some.inj h.symm
    have hcalls := erase_call hc (congrArg Egress.calls hs)
    have hqueues := same_queues (show s'.queues = s.queues by rw [hs])
    rw [hreleases]
    refine .released frame (congrArg Egress.budget hs) ?_
    unfold charged
    omega
  · cases h

/-- One queue and its writer change, and nothing else that is charged. -/
theorem charged_replace (budget : ByteBudget) (h : s.queues.lookup queue = some q) (q' : Queue) :
    ({ s with budget := budget, queues := s.queues.insert queue q' } : Egress).charged +
        (q.queued + q.writer.bytes) =
      s.charged + (q'.queued + q'.writer.bytes) := by
  generalize hs :
    ({ s with budget := budget, queues := s.queues.insert queue q' } : Egress) = s'
  obtain ⟨hqueued, hwriter⟩ := replace_queue h (congrArg Egress.queues hs.symm)
  have hcalls := congrArg Egress.callBytes hs
  unfold charged
  simp only [callBytes] at hcalls ⊢
  omega

theorem moved_replace (h : s.queues.lookup queue = some q)
    (hbytes : q.queued + q.writer.bytes = q'.queued + q'.writer.bytes) :
    Effect s { s with queues := s.queues.insert queue q' } none := by
  refine .moved rfl ?_
  have hcharged := charged_replace s.budget h q'
  omega

/-- A frame goes from its queue into the hands of the writer. -/
theorem effect_dequeue (h : s.step (.dequeue queue) = some s') : Effect s s' none := by
  simp only [step] at h
  split at h
  · next hq =>
    cases h
    refine moved_replace hq ?_
    simp only [Queue.queued, List.map_cons, List.sum_cons, Writer.bytes]
    omega
  · cases h

theorem effect_release (h : s.step (.release queue) = some s') :
    Effect s s' (s.releases (.release queue)) := by
  simp only [step] at h
  split at h
  · next depth frames frame hq =>
    have hreleases : s.releases (.release queue) = some frame := by simp [releases, hq]
    cases h
    have hcharged := charged_replace (s.budget.release frame.len) hq ⟨depth, frames, .sending⟩
    simp only [Queue.queued, Writer.bytes] at hcharged
    rw [hreleases]
    exact .released frame rfl (by omega)
  · cases h

theorem effect_sent (h : s.step (.sent queue) = some s') : Effect s s' none := by
  simp only [step] at h
  split at h
  · next hq =>
    cases h
    exact moved_replace hq rfl
  · cases h

theorem effect_finish (h : s.step (.finish queue) = some s') : Effect s s' none := by
  simp only [step] at h
  split at h
  · next hq =>
    cases h
    exact moved_replace hq rfl
  · cases h

theorem step_effect {e : Event} (h : s.step e = some s') : Effect s s' (s.releases e) := by
  cases e with
  | peerSink queue depth => exact effect_peerSink h
  | reserve task queue frame => exact effect_reserve h
  | enqueue task => exact effect_enqueue h
  | refund task => exact effect_refund h
  | dequeue queue => exact effect_dequeue h
  | release queue => exact effect_release h
  | sent queue => exact effect_sent h
  | finish queue => exact effect_finish h

/-! ## The counter -/

theorem tryReserve_eq_some {b b' : ByteBudget} {n : UInt64} (h : b.tryReserve n = some b') :
    b'.limit = b.limit ∧ b'.used.toNat = b.used.toNat + n.toNat ∧
      (b.limit ≠ 0 → b'.used ≤ b.limit) := by
  unfold ByteBudget.tryReserve at h
  split at h
  · rename_i hlt
    dsimp only at h
    split at h
    · rename_i hok
      cases h
      refine ⟨rfl, ?_, fun hne => hok.resolve_left hne⟩
      rw [UInt64.toNat_add, Nat.mod_eq_of_lt hlt]
    · cases h
  · cases h

theorem toNat_release {b : ByteBudget} {n : UInt64} (h : n.toNat ≤ b.used.toNat) :
    (b.release n).used.toNat = b.used.toNat - n.toNat :=
  UInt64.toNat_sub_of_le _ _ (UInt64.le_iff_toNat_le.mpr h)

/-- The counter is what is charged, within the limit. -/
structure Accounted (limit : UInt64) (s : Egress) : Prop where
  fixed : s.budget.limit = limit
  used : s.budget.used.toNat = s.charged
  le : limit ≠ 0 → s.budget.used ≤ limit

theorem accounted_new : Accounted limit (new limit) :=
  ⟨rfl, rfl, fun _ => UInt64.le_iff_toNat_le.mpr (Nat.zero_le _)⟩

theorem Accounted.step {e : Event} (hs : Accounted limit s) (h : s.step e = some s') :
    Accounted limit s' := by
  have heffect := step_effect h
  generalize s.releases e = frame? at heffect
  cases heffect with
  | moved budget charged =>
    refine ⟨by rw [budget, hs.fixed], by rw [budget, charged, hs.used], fun hne => ?_⟩
    rw [budget]
    exact hs.le hne
  | reserved frame budget charged =>
    obtain ⟨hlimit, hused, hle⟩ := tryReserve_eq_some budget
    refine ⟨hlimit.trans hs.fixed, ?_, fun hne => ?_⟩
    · rw [hused, hs.used, charged, frame.toNat_len]
    · rw [← hs.fixed] at hne ⊢
      exact hle hne
  | released frame budget charged =>
    have hcovered : frame.len.toNat ≤ s.budget.used.toNat := by
      rw [frame.toNat_len, hs.used]
      omega
    have hused := toNat_release hcovered
    rw [← budget, frame.toNat_len] at hused
    have hbefore := hs.used
    refine ⟨by rw [budget]; exact hs.fixed, by omega, fun hne => ?_⟩
    have hle := UInt64.le_iff_toNat_le.mp (hs.le hne)
    exact UInt64.le_iff_toNat_le.mpr (by omega)

/-- What an event gives back is part of what is charged. -/
theorem length_le_charged {e : Event} {frame : Frame} (h : s.releases e = some frame) :
    frame.bytes.length ≤ s.charged := by
  have hstep : ∃ s', s.step e = some s' := by
    cases e with
    | refund task =>
      simp only [releases] at h
      split at h
      · rename_i found hc
        exact ⟨_, by simp only [step, hc]; rfl⟩
      · cases h
    | release queue =>
      simp only [releases] at h
      split at h
      · rename_i hq
        exact ⟨_, by simp only [step, hq]; rfl⟩
      · cases h
    | peerSink queue depth => cases h
    | reserve task queue frame => cases h
    | enqueue task => cases h
    | dequeue queue => cases h
    | sent queue => cases h
    | finish queue => cases h
  obtain ⟨s', hs'⟩ := hstep
  have heffect := step_effect hs'
  rw [h] at heffect
  cases heffect with
  | released _ budget charged => omega

/-- No send and no writer is between charging and giving back. -/
def Quiescent (s : Egress) : Prop :=
  s.calls = ∅ ∧ ∀ queue q, s.queues.lookup queue = some q → ∀ frame, q.writer ≠ .dequeued frame

theorem charged_eq_zero (hquiet : Quiescent s)
    (hempty : ∀ queue q, s.queues.lookup queue = some q → q.frames = []) : s.charged = 0 := by
  have hlookup : ∀ e ∈ s.queues.entries, s.queues.lookup e.1 = some e.2 := fun e he =>
    AList.mem_lookup_iff.mpr he
  have hqueued : s.queuedBytes = 0 := by
    refine List.sum_eq_zero fun n hn => ?_
    obtain ⟨e, he, rfl⟩ := List.mem_map.mp hn
    simp [Queue.queued, hempty e.1 e.2 (hlookup e he)]
  have hwriters : s.writerBytes = 0 := by
    refine List.sum_eq_zero fun n hn => ?_
    obtain ⟨e, he, rfl⟩ := List.mem_map.mp hn
    have hnot := hquiet.2 e.1 e.2 (hlookup e he)
    cases hw : e.2.writer with
    | dequeued frame => exact absurd hw (hnot frame)
    | receiving => rfl
    | sending => rfl
    | ended => rfl
  have hcalls : s.callBytes = 0 := by
    unfold callBytes
    rw [hquiet.1]
    rfl
  unfold charged
  omega

/-- With a limit set, in every interleaving: the queues hold at most the limit, the counter is the
bytes in the queues and in the hands of sends and writers under way, no charge given back exceeds
the counter, and the counter is zero once all queues are empty and nothing is under way. -/
theorem budget_accounts {limit : UInt64} (hlimit : 0 < limit) {s : Egress}
    (h : GuardedRun step (fun _ _ => True) (new limit) s) :
    s.queuedBytes ≤ limit.toNat ∧
    s.budget.used.toNat = s.queuedBytes + (s.callBytes + s.writerBytes) ∧
    (∀ e frame, s.releases e = some frame → frame.bytes.length ≤ s.budget.used.toNat) ∧
    (Quiescent s → (∀ queue q, s.queues.lookup queue = some q → q.frames = []) →
      s.budget.used = 0) := by
  have hinv : Accounted limit s :=
    GuardedRun.invariant h accounted_new fun s e s' hs _ hstep => hs.step hstep
  have hne : limit ≠ 0 := by
    rintro rfl
    exact absurd hlimit (by decide)
  have hle := UInt64.le_iff_toNat_le.mp (hinv.le hne)
  have hused := hinv.used
  refine ⟨?_, hused, fun e frame he => ?_, fun hquiet hempty => ?_⟩
  · unfold charged at hused
    omega
  · rw [hused]
    exact length_le_charged he
  · refine UInt64.toNat_inj.mp ?_
    rw [hused, charged_eq_zero hquiet hempty]
    rfl

/-- Two sends of three bytes against a limit of five: the second is refused. -/
theorem budget_accounts_five :
    ∃ s : Egress, GuardedRun step (fun _ _ => True) (new 5) s ∧
      s.queuedBytes = 3 ∧ s.queuedBytes ≤ (5 : UInt64).toNat ∧
      s.budget.used.toNat = s.queuedBytes + (s.callBytes + s.writerBytes) := by
  have hplay : (play step (fun _ _ => true) (new 5) [fun _ => .peerSink 0 2,
      fun _ => .reserve 1 0 ⟨[1, 2, 3], by decide⟩, fun _ => .reserve 2 0 ⟨[4, 5, 6], by decide⟩,
      fun _ => .enqueue 1]).any (fun s => s.queuedBytes = 3) = true := by decide +kernel
  obtain ⟨s, hs, hqueued⟩ := some_of_any hplay
  have hrun : GuardedRun step (fun _ _ => True) (new 5) s :=
    guardedRun_play (fun _ _ _ => trivial) hs
  obtain ⟨hle, hused, -⟩ := budget_accounts (by decide) hrun
  exact ⟨s, hrun, hqueued, hle, hused⟩

end Egress

end Telesthete.Relay
