import Mathlib.Logic.Relation

/-!
# Runs whose steps meet a condition

A system is a function `step` that an event either takes to a next state or
does not apply to. `GuardedRun step ok` are its runs in which every event
met `ok` in the state it found; an invariant of such runs is proved by
`GuardedRun.invariant`, one allowed step at a time. With no condition they
are all the runs.

`play` computes a run from a script, each entry of which picks its event
from the state it finds, so that a concrete run can be evaluated and then
used as one. `follow` is its infinite counterpart; a run that comes to a
state its events no longer change is known after finitely many steps.
-/

namespace Telesthete.Lib

variable {σ ε : Type*} {step : σ → ε → Option σ} {ok : σ → ε → Prop} {s s' : σ}

/-- One step, by an event that was allowed. -/
def GuardedStep (step : σ → ε → Option σ) (ok : σ → ε → Prop) (s s' : σ) : Prop :=
  ∃ e, ok s e ∧ step s e = some s'

/-- A run of such steps. -/
abbrev GuardedRun (step : σ → ε → Option σ) (ok : σ → ε → Prop) : σ → σ → Prop :=
  Relation.ReflTransGen (GuardedStep step ok)

theorem GuardedRun.invariant {P : σ → Prop} (h : GuardedRun step ok s s') (hs : P s)
    (hstep : ∀ s e s', P s → ok s e → step s e = some s' → P s') : P s' := by
  induction h with
  | refl => exact hs
  | tail _ hlast ih =>
    obtain ⟨e, hok, he⟩ := hlast
    exact hstep _ e _ ih hok he

theorem GuardedRun.mono {ok' : σ → ε → Prop} (h : GuardedRun step ok s s')
    (himp : ∀ s e, ok s e → ok' s e) : GuardedRun step ok' s s' := by
  refine Relation.ReflTransGen.mono ?_ _ _ h
  rintro s s' ⟨e, hok, he⟩
  exact ⟨e, himp s e hok, he⟩

/-- Play a script under a check; `none` if an event fails it or cannot happen. -/
def play (step : σ → ε → Option σ) (check : σ → ε → Bool) (s : σ) (script : List (σ → ε)) :
    Option σ :=
  script.foldlM (fun s pick => if check s (pick s) then step s (pick s) else none) s

theorem guardedRun_play {check : σ → ε → Bool} (hcheck : ∀ s e, check s e = true → ok s e) :
    ∀ {script : List (σ → ε)} {s s' : σ}, play step check s script = some s' →
      GuardedRun step ok s s' := by
  intro script
  induction script with
  | nil =>
    intro s s' h
    cases h
    exact .refl
  | cons pick script ih =>
    intro s s' h
    obtain ⟨t, ht, hrest⟩ := Option.bind_eq_some_iff.mp h
    obtain ⟨hok, he⟩ := Option.ite_none_right_eq_some.mp ht
    exact .head ⟨pick s, hcheck s _ hok, he⟩ (ih hrest)

theorem some_of_any {α : Type*} {o : Option α} {p : α → Prop} [DecidablePred p]
    (h : o.any (fun a => p a) = true) : ∃ a, o = some a ∧ p a := by
  obtain ⟨a, ha, hp⟩ := (Option.any_eq_true _ _).mp h
  exact ⟨a, ha, of_decide_eq_true hp⟩

/-- A computation was checked to come to a value with `p`, and such a value has `q`. -/
theorem exists_some {α : Type*} {o : Option α} {q : α → Prop} (p : α → Prop) [DecidablePred p]
    (h : o.any (fun a => p a) = true) (hq : ∀ a, o = some a → p a → q a) :
    ∃ a, o = some a ∧ q a := by
  obtain ⟨a, ha, hp⟩ := some_of_any h
  exact ⟨a, ha, hq a ha hp⟩

/-- A script that was checked to come to a state with `q`. -/
theorem exists_guardedRun {q : σ → Prop} [DecidablePred q] (check : σ → ε → Bool)
    (script : List (σ → ε)) (h : (play step check s script).any (fun s => q s) = true)
    (hcheck : ∀ s e, check s e = true → ok s e) : ∃ s', GuardedRun step ok s s' ∧ q s' := by
  obtain ⟨s', hs', hq⟩ := some_of_any h
  exact ⟨s', guardedRun_play hcheck hs', hq⟩

/-! ## Infinite runs -/

/-- The states of a run that picks its events by number and state; it stays
where the event does not apply. -/
def follow (step : σ → ε → Option σ) (pick : Nat → σ → ε) (s : σ) : Nat → σ
  | 0 => s
  | n + 1 =>
    (step (follow step pick s n) (pick n (follow step pick s n))).getD (follow step pick s n)

section follow

variable {pick : Nat → σ → ε} {k : Nat}

theorem follow_eq_of_fixed
    (hfix : ∀ n, k ≤ n →
      step (follow step pick s k) (pick n (follow step pick s k)) = some (follow step pick s k)) :
    ∀ n, k ≤ n → follow step pick s n = follow step pick s k := by
  intro n hle
  induction hle with
  | refl => rfl
  | @step n hle ih =>
    rw [follow, ih, hfix n hle]
    rfl

theorem follow_step (hsome : ∀ n < k,
      (step (follow step pick s n) (pick n (follow step pick s n))).isSome = true)
    (hfix : ∀ n, k ≤ n →
      step (follow step pick s k) (pick n (follow step pick s k)) = some (follow step pick s k))
    (n : Nat) :
    step (follow step pick s n) (pick n (follow step pick s n)) = some (follow step pick s (n + 1)) := by
  rcases Nat.lt_or_ge n k with hlt | hge
  · obtain ⟨s', hs'⟩ := Option.isSome_iff_exists.mp (hsome n hlt)
    rw [follow, hs']
    rfl
  · rw [follow_eq_of_fixed hfix n hge, follow_eq_of_fixed hfix (n + 1) (Nat.le_succ_of_le hge)]
    exact hfix n hge

theorem forall_follow {P : σ → Prop}
    (hfix : ∀ n, k ≤ n →
      step (follow step pick s k) (pick n (follow step pick s k)) = some (follow step pick s k))
    (h : ∀ n < k + 1, P (follow step pick s n)) (n : Nat) : P (follow step pick s n) := by
  rcases Nat.lt_or_ge n (k + 1) with hlt | hge
  · exact h n hlt
  · rw [follow_eq_of_fixed hfix n (by omega)]
    exact h k (Nat.lt_succ_self k)

theorem follow_invariant {P : σ → Prop} (hs : P s)
    (hstep : ∀ s e s', P s → step s e = some s' → P s') (n : Nat) : P (follow step pick s n) := by
  induction n with
  | zero => exact hs
  | succ n ih =>
    rw [follow]
    cases he : step (follow step pick s n) (pick n (follow step pick s n)) with
    | none => exact ih
    | some s' => exact hstep _ _ _ ih he

end follow

end Telesthete.Lib
