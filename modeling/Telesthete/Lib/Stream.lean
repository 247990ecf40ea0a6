import Telesthete.Lib.Bytes

/-!
# Messages in a byte stream

A reader of a byte stream takes one message after the other from its front and
handles each, until what has arrived is not a whole message. `Encodes` is what a
codec has to give for that: the bytes of a message are parsed in front of anything
that may follow, and no proper prefix of them is taken for a message. Then at
every moment, whatever number of bytes has arrived, exactly the messages that
have arrived whole have been handled (`drive_take`).

`drive` runs on fuel. A message takes at least one byte, so any fuel that covers
the bytes there are gives the same answer.
-/

namespace Telesthete.Lib

open List

variable {μ σ : Type*} {next : Bytes → Option (μ × Bytes)} {handle : σ → μ → σ}

/-- Take messages from the front and handle them. -/
def drive (next : Bytes → Option (μ × Bytes)) (handle : σ → μ → σ) : Nat → σ → Bytes → σ
  | 0, s, _ => s
  | fuel + 1, s, bs =>
    match next bs with
    | some (m, rest) => drive next handle fuel (handle s m) rest
    | none => s

/-- The bytes are those of one message. -/
structure Encodes (next : Bytes → Option (μ × Bytes)) (bs : Bytes) (m : μ) : Prop where
  nonempty : 0 < bs.length
  complete : ∀ rest, next (bs ++ rest) = some (m, rest)
  incomplete : ∀ n < bs.length, next (bs.take n) = none

/-- While a message and what follows it are arriving, a message that is taken from what has arrived
is that message. -/
theorem Encodes.next_eq {bs front back rest tail : Bytes} {m m' : μ} (h : Encodes next bs m)
    (heq : front ++ back = bs ++ tail) (hnext : next front = some (m', rest)) :
    m' = m ∧ rest ++ back = tail := by
  rcases append_eq_append_iff.mp heq with ⟨more, hbs, -⟩ | ⟨more, hfront, htail⟩
  · -- not all of the message has arrived, unless nothing is missing
    cases more with
    | nil =>
      rw [append_nil] at hbs
      subst hbs
      have hcomplete := h.complete []
      rw [append_nil, hnext] at hcomplete
      obtain ⟨rfl, rfl⟩ := Prod.mk.inj (Option.some.inj hcomplete)
      exact ⟨rfl, append_cancel_left heq⟩
    | cons b more =>
      have hnone := h.incomplete front.length (by rw [hbs]; simp)
      rw [hbs, take_left' rfl, hnext] at hnone
      cases hnone
  · rw [hfront, h.complete more] at hnext
    obtain ⟨rfl, rfl⟩ := Prod.mk.inj (Option.some.inj hnext)
    exact ⟨rfl, htail.symm⟩

theorem drive_of_none {fuel : Nat} {s : σ} {bs : Bytes} (h : next bs = none) :
    drive next handle fuel s bs = s := by
  cases fuel with
  | zero => rfl
  | succ fuel => simp only [drive, h]

/-- When `n` bytes of a sequence of messages have arrived, the first `k` messages have been handled:
those that end within the `n` bytes, while the next one does not. -/
theorem drive_take (hnil : next [] = none) (msgs : List (Bytes × μ))
    (hmsgs : ∀ e ∈ msgs, Encodes next e.1 e.2) :
    ∀ (fuel n : Nat) (s : σ), n ≤ fuel → n ≤ (msgs.flatMap Prod.fst).length →
      ∃ k ≤ msgs.length, ((msgs.take k).flatMap Prod.fst).length ≤ n ∧
        (k < msgs.length → n < ((msgs.take (k + 1)).flatMap Prod.fst).length) ∧
        drive next handle fuel s ((msgs.flatMap Prod.fst).take n) =
          ((msgs.take k).map Prod.snd).foldl handle s := by
  induction msgs with
  | nil =>
    intro fuel n s hfuel hn
    exact ⟨0, Nat.le_refl 0, Nat.zero_le n, fun h => absurd h (lt_irrefl 0),
      drive_of_none (by simpa using hnil)⟩
  | cons e msgs ih =>
    intro fuel n s hfuel hn
    have he := hmsgs e mem_cons_self
    have hpos := he.nonempty
    rcases lt_or_ge n e.1.length with hlt | hge
    · -- the first message has not arrived whole
      refine ⟨0, Nat.zero_le _, Nat.zero_le n, fun _ => by simpa using hlt, drive_of_none ?_⟩
      rw [flatMap_cons, take_append_of_le_length (le_of_lt hlt)]
      exact he.incomplete n hlt
    · obtain ⟨fuel, rfl⟩ : ∃ f, fuel = f + 1 := ⟨fuel - 1, by omega⟩
      have hn' : n - e.1.length ≤ (msgs.flatMap Prod.fst).length := by
        rw [flatMap_cons, length_append] at hn
        omega
      obtain ⟨k, hk, hle, hnext, hdrive⟩ := ih (fun e he => hmsgs e (mem_cons_of_mem _ he))
        fuel (n - e.1.length) (handle s e.2) (by omega) hn'
      have htake : ((e :: msgs).flatMap Prod.fst).take n =
          e.1 ++ (msgs.flatMap Prod.fst).take (n - e.1.length) := by
        rw [flatMap_cons, take_append, take_of_length_le hge]
      refine ⟨k + 1, Nat.succ_le_succ hk, ?_, fun h => ?_, ?_⟩
      · rw [take_succ_cons, flatMap_cons, length_append]
        omega
      · have hlater := hnext (Nat.lt_of_succ_lt_succ h)
        rw [take_succ_cons, flatMap_cons, length_append]
        omega
      · rw [htake, drive, he.complete]
        exact hdrive

end Telesthete.Lib
