import Mathlib.Order.Basic

/-!
# What a nondeterministic system cannot avoid

`Inevitably step P s` says that every run from `s` arrives at a state with
`P`, whatever choices are made on the way: no run is stuck before it gets
there and none goes on for ever without getting there. It is the liveness
counterpart of an invariant, and `Inevitably.of_measure` is its induction
rule: an invariant under which the system always has a step to take until
`P` holds, and a measure every step brings down.

A single infinite run is a sequence of states. There the rule is
`exists_of_unless`: a phase that each step keeps or hands over to the next
phase, and that does not last for ever, is followed by the next phase.
-/

namespace Telesthete.Lib

variable {σ : Type*} {step : σ → σ → Prop} {P Q : σ → Prop}

/-- Every run from a state is finite and ends where `P` holds. -/
inductive Inevitably (step : σ → σ → Prop) (P : σ → Prop) : σ → Prop
  | now {s} (h : P s) : Inevitably step P s
  | next {s} (hcan : ∃ s', step s s') (hall : ∀ s', step s s' → Inevitably step P s') :
      Inevitably step P s

theorem Inevitably.mono {s : σ} (h : Inevitably step P s) (hPQ : ∀ s, P s → Q s) :
    Inevitably step Q s := by
  induction h with
  | now h => exact .now (hPQ _ h)
  | next hcan _ ih => exact .next hcan ih

theorem Inevitably.of_measure (I : σ → Prop) (measure : σ → Nat)
    (hcan : ∀ s, I s → ¬ P s → ∃ s', step s s')
    (hstep : ∀ s s', I s → step s s' → I s' ∧ measure s' < measure s) {s : σ} (hs : I s) :
    Inevitably step P s := by
  induction hm : measure s using Nat.strongRecOn generalizing s with
  | ind m ih =>
    subst hm
    by_cases hP : P s
    · exact .now hP
    · refine .next (hcan s hs hP) fun s' hs' => ?_
      obtain ⟨hI, hlt⟩ := hstep s s' hs hs'
      exact ih (measure s') hlt hI rfl

section InfiniteRun

variable {P Q : Nat → Prop} {n m : Nat}

/-- A phase that is over has been handed over. -/
theorem exists_of_unless (hstep : ∀ k, P k → P (k + 1) ∨ Q (k + 1)) (hn : P n) (hle : n ≤ m)
    (hover : ¬ P m) : ∃ k, n ≤ k ∧ Q k := by
  induction hle with
  | refl => exact absurd hn hover
  | @step m hle ih =>
    by_cases hm : P m
    · rcases hstep m hm with hP | hQ
      · exact absurd hP hover
      · exact ⟨m + 1, Nat.le_succ_of_le hle, hQ⟩
    · exact ih hm

end InfiniteRun

end Telesthete.Lib
