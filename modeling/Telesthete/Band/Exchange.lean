import Mathlib.Logic.Function.Basic
import Mathlib.Logic.Relation
import Telesthete.Channel.Link

/-!
# Two parties that greet each other

What a cipher negotiation is, without packets, sequences or keys. Each party
may greet the other at any time; a greeting commits its receiver to `choice`
of the greeter, the receiver owes an answer that names it, and the answer
commits the greeter to what `reply` makes of it. Messages arrive in order.

Whatever is committed now, `future` lists what a party will still commit to
if nobody greets again: the messages on their way to it, then the answers it
is owed. The last of these is where it ends (`final`). Receiving and answering
change neither party's end, and a greeting sets both to the same one, unless
it crosses a greeting of the other party: then each ends with its own.
-/

namespace Telesthete.Band

open List Function

open Telesthete.Channel (Side)

variable {κ : Type*}

/-- A message: a greeting, or the answer to one. -/
inductive Greet (κ : Type*) where
  | hello
  | ack (cipher : κ)
deriving DecidableEq

@[ext] structure Exchange (κ : Type*) where
  /-- The messages on their way to a party, the oldest first. -/
  inbox : Side → List (Greet κ)
  /-- The answers it still has to send. -/
  due : Side → List κ
  committed : Side → Option κ

namespace Exchange

variable {x : Side} {rest : List (Greet κ)} {cipher : κ}

theorem ext_sides {e e' : Exchange κ} (x : Side)
    (hx : e.inbox x = e'.inbox x ∧ e.due x = e'.due x ∧ e.committed x = e'.committed x)
    (hy : e.inbox x.other = e'.inbox x.other ∧ e.due x.other = e'.due x.other ∧
      e.committed x.other = e'.committed x.other) : e = e' := by
  refine Exchange.ext (funext fun z => ?_) (funext fun z => ?_) (funext fun z => ?_) <;>
    rcases Side.eq_or_eq_other x z with rfl | rfl
  · exact hx.1
  · exact hy.1
  · exact hx.2.1
  · exact hy.2.1
  · exact hx.2.2
  · exact hy.2.2

def start : Exchange κ := ⟨fun _ => [], fun _ => [], fun _ => none⟩

/-- No greeting of the other party waits for an answer of `x`. -/
def Answered (e : Exchange κ) (x : Side) : Prop := e.due x = [] ∧ Greet.hello ∉ e.inbox x

variable (choice : Side → κ) (reply : κ → κ)

/-- A greeting by `x` is in order if it crosses no greeting and the answer to it
means what it says, or if it crosses one that leads to the same. -/
def Orderly (e : Exchange κ) (x : Side) : Prop :=
  (e.Answered x → reply (choice x) = choice x) ∧
    (¬ e.Answered x → reply (choice x) = reply (choice x.other))

inductive Step : Exchange κ → Exchange κ → Prop
  | hello (e : Exchange κ) (x : Side) (hok : e.Orderly choice reply x) :
      Step e { e with
        inbox := update e.inbox x.other (e.inbox x.other ++ [.hello]) }
  | takeHello (e : Exchange κ) (x : Side) (rest : List (Greet κ))
      (h : e.inbox x = .hello :: rest) :
      Step e
        { inbox := update e.inbox x rest
          due := update e.due x (e.due x ++ [choice x.other])
          committed := update e.committed x (some (choice x.other)) }
  | takeAck (e : Exchange κ) (x : Side) (cipher : κ) (rest : List (Greet κ))
      (h : e.inbox x = .ack cipher :: rest) :
      Step e { e with
        inbox := update e.inbox x rest
        committed := update e.committed x (some (reply cipher)) }
  | answer (e : Exchange κ) (x : Side) (cipher : κ) (rest : List κ) (h : e.due x = cipher :: rest) :
      Step e { e with
        inbox := update e.inbox x.other (e.inbox x.other ++ [.ack cipher])
        due := update e.due x rest }

/-- What a message commits `x` to. -/
def commits (x : Side) : Greet κ → κ
  | .hello => choice x.other
  | .ack cipher => reply cipher

/-- The answer to a message of `x`. -/
def owed (x : Side) : Greet κ → Option κ
  | .hello => some (choice x)
  | .ack _ => none

/-- What `x` will commit to if nobody greets again. -/
def future (e : Exchange κ) (x : Side) : List κ :=
  (e.inbox x).map (commits choice reply x) ++
    (e.due x.other ++ (e.inbox x.other).filterMap (owed choice x)).map reply

/-- Where `x` ends. -/
def final (e : Exchange κ) (x : Side) : Option κ :=
  (e.future choice reply x).getLast?.or (e.committed x)

variable {choice : Side → κ} {reply : κ → κ} {e e' : Exchange κ}

theorem getLast?_cons_or (c : κ) (l : List κ) (prev : Option κ) :
    (c :: l).getLast?.or prev = l.getLast?.or (some c) := by
  cases l with
  | nil => rfl
  | cons d l =>
    rw [getLast?_cons_cons, getLast?_cons]
    rfl

/-- Taking a message leaves both ends where they are. -/
theorem final_takeHello (h : e.inbox x = .hello :: rest) (z : Side) :
    final choice reply
        { inbox := update e.inbox x rest
          due := update e.due x (e.due x ++ [choice x.other])
          committed := update e.committed x (some (choice x.other)) } z =
      final choice reply e z := by
  rcases Side.eq_or_eq_other x z with rfl | rfl
  · simp only [final, future, update_self, update_of_ne, ne_eq, Side.other_ne,
      not_false_eq_true, h, map_cons, cons_append]
    exact (getLast?_cons_or _ _ _).symm
  · simp [final, future, h, owed]

theorem final_takeAck (h : e.inbox x = .ack cipher :: rest) (z : Side) :
    final choice reply { e with
        inbox := update e.inbox x rest
        committed := update e.committed x (some (reply cipher)) } z =
      final choice reply e z := by
  rcases Side.eq_or_eq_other x z with rfl | rfl
  · simp only [final, future, update_self, update_of_ne, ne_eq, Side.other_ne,
      not_false_eq_true, h, map_cons, cons_append]
    exact (getLast?_cons_or _ _ _).symm
  · simp [final, future, h, owed]

/-- So does sending an answer. -/
theorem final_answer {rest : List κ} (h : e.due x = cipher :: rest) (z : Side) :
    final choice reply { e with
        inbox := update e.inbox x.other (e.inbox x.other ++ [.ack cipher])
        due := update e.due x rest } z =
      final choice reply e z := by
  rcases Side.eq_or_eq_other x z with rfl | rfl
  · simp [final, future, owed]
  · simp [final, future, h, commits]

/-- The answers `x` owes or will owe name the other party's choice, and those on
their way to `x` its own. -/
structure Faithful (choice : Side → κ) (e : Exchange κ) : Prop where
  due : ∀ x, ∀ c ∈ e.due x, c = choice x.other
  acks : ∀ x c, Greet.ack c ∈ e.inbox x → c = choice x

theorem Faithful.owed_eq (he : Faithful choice e) (x : Side) :
    ∀ c ∈ e.due x ++ (e.inbox x).filterMap (owed choice x.other), c = choice x.other := by
  intro c hc
  rcases mem_append.mp hc with hdue | hinbox
  · exact he.due x c hdue
  · obtain ⟨msg, -, hmsg⟩ := mem_filterMap.mp hinbox
    cases msg with
    | hello => exact (Option.some.inj hmsg).symm
    | ack cipher => cases hmsg

theorem owed_eq_nil_iff :
    e.due x ++ (e.inbox x).filterMap (owed choice x.other) = [] ↔ e.Answered x := by
  rw [append_eq_nil_iff, filterMap_eq_nil_iff]
  refine and_congr_right fun _ => ⟨fun h hmem => ?_, fun h msg hmsg => ?_⟩
  · cases h .hello hmem
  · cases msg with
    | hello => exact absurd hmsg h
    | ack cipher => rfl

/-- An orderly greeting sets both ends. -/
theorem final_hello (he : Faithful choice e) (hok : e.Orderly choice reply x) (z : Side) :
    final choice reply { e with
        inbox := update e.inbox x.other (e.inbox x.other ++ [.hello]) } z =
      some (reply (choice x)) := by
  rcases Side.eq_or_eq_other x z with rfl | rfl
  · -- the greeter ends with the answer to this greeting
    simp [final, future, owed]
  · -- the greeted party ends with it too, or with what it is owed already
    have hfuture : future choice reply { e with
        inbox := update e.inbox x.other (e.inbox x.other ++ [.hello]) } x.other =
        (e.inbox x.other).map (commits choice reply x.other) ++ [choice x] ++
          (e.due x ++ (e.inbox x).filterMap (owed choice x.other)).map reply := by
      simp [future, commits]
    rw [final, hfuture]
    cases hlast : (e.due x ++ (e.inbox x).filterMap (owed choice x.other)).getLast? with
    | none =>
      have hnil := getLast?_eq_none_iff.mp hlast
      rw [hnil, hok.1 (owed_eq_nil_iff.mp hnil)]
      simp
    | some c =>
      have hc := he.owed_eq x c (mem_of_getLast? hlast)
      have hcross : ¬ e.Answered x := by
        intro hans
        rw [owed_eq_nil_iff.mpr hans] at hlast
        cases hlast
      rw [getLast?_append, getLast?_map, hlast, hc, Option.map_some, hok.2 hcross]
      rfl

/-- What every orderly exchange keeps. -/
structure Inv (choice : Side → κ) (reply : κ → κ) (e : Exchange κ) : Prop
    extends Faithful choice e where
  meet : ∀ x, final choice reply e x = final choice reply e x.other
  committed : ∀ x c, e.committed x = some c → ∃ z, c = choice z ∨ c = reply (choice z)

theorem Inv.start : Inv choice reply start where
  due := fun _ _ h => absurd h not_mem_nil
  acks := fun _ _ h => absurd h not_mem_nil
  meet := fun _ => rfl
  committed := fun _ _ h => nomatch h

theorem Faithful.step (he : Faithful choice e) (h : Step choice reply e e') :
    Faithful choice e' := by
  cases h with
  | hello x hok =>
    refine ⟨he.due, fun z c hc => ?_⟩
    rcases Side.eq_or_eq_other x.other z with rfl | rfl
    · simp only [update_self, mem_append, mem_singleton, reduceCtorEq,
        or_false] at hc
      exact he.acks _ c hc
    · simp only [Side.other_other, ne_eq, Side.ne_other, not_false_eq_true,
        update_of_ne] at hc ⊢
      exact he.acks x c hc
  | takeHello x rest hinbox =>
    refine ⟨fun z c hc => ?_, fun z c hc => ?_⟩ <;>
      rcases Side.eq_or_eq_other x z with rfl | rfl <;>
      simp only [update_self, ne_eq, Side.other_ne, not_false_eq_true,
        update_of_ne, mem_append, mem_singleton] at hc
    · exact hc.elim (he.due z c) id
    · exact he.due _ c hc
    · exact he.acks z c (hinbox ▸ mem_cons_of_mem _ hc)
    · exact he.acks _ c hc
  | takeAck x cipher rest hinbox =>
    refine ⟨he.due, fun z c hc => ?_⟩
    rcases Side.eq_or_eq_other x z with rfl | rfl <;>
      simp only [update_self, ne_eq, Side.other_ne, not_false_eq_true,
        update_of_ne] at hc
    · exact he.acks z c (hinbox ▸ mem_cons_of_mem _ hc)
    · exact he.acks _ c hc
  | answer x cipher rest hdue =>
    refine ⟨fun z c hc => ?_, fun z c hc => ?_⟩
    · rcases Side.eq_or_eq_other x z with rfl | rfl <;>
        simp only [update_self, ne_eq, Side.other_ne, not_false_eq_true,
          update_of_ne] at hc
      · exact he.due z c (hdue ▸ mem_cons_of_mem _ hc)
      · exact he.due _ c hc
    · rcases Side.eq_or_eq_other x z with rfl | rfl <;>
        simp only [update_self, ne_eq, Side.ne_other, not_false_eq_true,
          update_of_ne, mem_append, mem_singleton, Greet.ack.injEq] at hc
      · exact he.acks z c hc
      · rcases hc with hc | rfl
        · exact he.acks _ c hc
        · exact he.due x c (hdue ▸ mem_cons_self)

/-- A step keeps both ends, or sets both to one choice. -/
theorem final_step (he : Faithful choice e) (h : Step choice reply e e') :
    (∀ z, final choice reply e' z = final choice reply e z) ∨
      ∃ c, ∀ z, final choice reply e' z = some c := by
  cases h with
  | hello x hok => exact .inr ⟨reply (choice x), final_hello he hok⟩
  | takeHello x rest hinbox => exact .inl (final_takeHello hinbox)
  | takeAck x cipher rest hinbox => exact .inl (final_takeAck hinbox)
  | answer x cipher rest hdue => exact .inl (final_answer hdue)

theorem Inv.step (he : Inv choice reply e) (h : Step choice reply e e') :
    Inv choice reply e' := by
  refine ⟨he.toFaithful.step h, ?_, ?_⟩
  · intro x
    rcases final_step he.toFaithful h with hsame | ⟨c, hc⟩
    · rw [hsame x, hsame x.other]
      exact he.meet x
    · rw [hc x, hc x.other]
  · intro z c hc
    cases h with
    | hello x hok => exact he.committed z c hc
    | takeHello x rest hinbox =>
      rcases Side.eq_or_eq_other x z with rfl | rfl <;>
        simp only [update_self, ne_eq, Side.other_ne, not_false_eq_true,
          update_of_ne] at hc
      · exact ⟨z.other, .inl (Option.some.inj hc).symm⟩
      · exact he.committed _ c hc
    | takeAck x cipher rest hinbox =>
      rcases Side.eq_or_eq_other x z with rfl | rfl <;>
        simp only [update_self, ne_eq, Side.other_ne, not_false_eq_true,
          update_of_ne] at hc
      · rw [he.acks z cipher (hinbox ▸ mem_cons_self)] at hc
        exact ⟨z, .inr (Option.some.inj hc).symm⟩
      · exact he.committed _ c hc
    | answer x cipher rest hdue => exact he.committed z c hc

/-- Whoever owes an answer will be followed by a commitment of both. -/
theorem Inv.final_isSome (he : Inv choice reply e) (hdue : e.due x ≠ []) (z : Side) :
    (final choice reply e z).isSome = true := by
  have hother : (final choice reply e x.other).isSome = true := by
    have hfuture : future choice reply e x.other ≠ [] := by simp [future, hdue]
    obtain ⟨c, hc⟩ := Option.ne_none_iff_exists'.mp (mt getLast?_eq_none_iff.mp hfuture)
    rw [final, hc]
    rfl
  rcases Side.eq_or_eq_other x z with rfl | rfl
  · rw [he.meet z]
    exact hother
  · exact hother

/-- With nothing on its way and nothing owed, an end is what is committed. -/
theorem final_of_idle (hinbox : ∀ x, e.inbox x = []) (hdue : ∀ x, e.due x = []) (x : Side) :
    final choice reply e x = e.committed x := by
  simp [final, future, hinbox, hdue]

end Exchange

end Telesthete.Band
