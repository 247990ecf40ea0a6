import Mathlib.Data.List.Basic
import Mathlib.Data.Nat.ModEq
import Mathlib.Logic.Function.Basic
import Mathlib.Order.Basic

/-!
# Logs whose entries carry their own index

A sender that numbers what it sends and never reuses a number keeps, in
effect, a list in which the entry at index `i` has sequence number `i`. The
two facts a sliding-window protocol needs of such a list are here: a new
entry numbered by the length keeps the numbering, and a cumulative
acknowledgement, the loop that drops entries from the front while their
number is below the acknowledged one, lands exactly on the suffix the number
names. Where only the order of the numbers is known, the loop is a filter.

Before that, what every list that grows at its end keeps: a property of its
entries that the new one has, and that no two of them have one name. At the
end, a counter that counts modulo `m` and hands out one number for each thing
that asks for one: as long as it handed out no more than `m`, a number belongs
to one thing only.
-/

namespace Telesthete.Lib

open List

variable {α : Type*} {seq : α → Nat} {log : List α}

theorem forall_mem_snoc {p : α → Prop} {u : α} (h : ∀ v ∈ log, p v) (hu : p u) :
    ∀ v ∈ log ++ [u], p v :=
  forall_mem_append.mpr ⟨h, forall_mem_singleton.mpr hu⟩

theorem unique_snoc {β : Type*} {name : α → β} {u : α}
    (h : ∀ v ∈ log, ∀ w ∈ log, name v = name w → v = w) (hu : ∀ v ∈ log, name v ≠ name u) :
    ∀ v ∈ log ++ [u], ∀ w ∈ log ++ [u], name v = name w → v = w := by
  refine forall_mem_snoc (fun v hv => forall_mem_snoc (h v hv) fun heq => ?_)
    (forall_mem_snoc (fun w hw heq => ?_) fun _ => rfl)
  · exact absurd heq (hu v hv)
  · exact absurd heq.symm (hu w hw)

/-- The entry at index `i` has sequence number `i`. -/
def Numbered (seq : α → Nat) (log : List α) : Prop :=
  ∀ i u, log[i]? = some u → seq u = i

theorem numbered_nil : Numbered seq ([] : List α) := by
  intro i u h
  simp at h

theorem Numbered.snoc {u : α} (h : Numbered seq log) (hu : seq u = log.length) :
    Numbered seq (log ++ [u]) := by
  intro i v hv
  rcases lt_or_ge i log.length with hi | hi
  · rw [getElem?_append_left hi] at hv
    exact h i v hv
  · rw [getElem?_append_right hi, getElem?_singleton] at hv
    split at hv
    · injection hv with hv
      subst hv
      omega
    · exact absurd hv (by simp)

theorem Numbered.getElem?_seq {u : α} (h : Numbered seq log) (hu : u ∈ log) :
    log[seq u]? = some u := by
  obtain ⟨i, hi, rfl⟩ := getElem_of_mem hu
  have hsome : log[i]? = some log[i] := getElem?_eq_getElem hi
  rw [h i _ hsome, hsome]

theorem Numbered.seq_lt {u : α} (h : Numbered seq log) (hu : u ∈ log) :
    seq u < log.length := by
  obtain ⟨hlt, _⟩ := List.getElem?_eq_some_iff.mp (h.getElem?_seq hu)
  exact hlt

/-- Dropping from the front every entry numbered below `n` is dropping up to
`n`, when the log starts at `k`. -/
theorem Numbered.dropWhile_drop (h : Numbered seq log) (n : Nat) : ∀ k, k ≤ log.length →
    (log.drop k).dropWhile (fun u => decide (seq u < n)) = log.drop (max k (min n log.length)) := by
  intro k hk
  induction hm : log.length - k generalizing k with
  | zero =>
    have hke : k = log.length := by omega
    subst hke
    rw [drop_length, dropWhile_nil, drop_eq_nil_of_le (by omega)]
  | succ m ih =>
    have hlt : k < log.length := by omega
    have hseq : seq log[k] = k := h k _ (getElem?_eq_getElem hlt)
    rw [drop_eq_getElem_cons hlt, dropWhile_cons, hseq]
    by_cases hkn : k < n
    · rw [if_pos (by simpa using hkn), ih (k + 1) (by omega) (by omega)]
      congr 1
      omega
    · rw [if_neg (by simpa using hkn), ← drop_eq_getElem_cons hlt]
      congr 1
      omega

/-! ## Ascending lists -/

/-- In an ascending list, a cut at a number is a filter on both sides of it. -/
theorem takeWhile_dropWhile_lt (seq : α → Nat) (m : Nat) : ∀ {l : List α},
    l.Pairwise (fun a b => seq a ≤ seq b) →
    l.takeWhile (fun a => decide (seq a < m)) = l.filter (fun a => decide (seq a < m)) ∧
      l.dropWhile (fun a => decide (seq a < m)) = l.filter fun a => decide (m ≤ seq a) := by
  intro l
  induction l with
  | nil => exact fun _ => ⟨rfl, rfl⟩
  | cons a l ih =>
    intro h
    obtain ⟨ha, hl⟩ := pairwise_cons.mp h
    by_cases hlt : seq a < m
    · obtain ⟨htake, hdrop⟩ := ih hl
      simp [hlt, htake, hdrop]
    · have hge : ∀ b ∈ a :: l, m ≤ seq b :=
        forall_mem_cons.mpr ⟨by omega, fun b hb => by have := ha b hb; omega⟩
      rw [takeWhile_cons_of_neg (by simpa using hlt),
        dropWhile_cons_of_neg (by simpa using hlt)]
      constructor
      · exact (filter_eq_nil_iff.mpr fun b hb => by simpa using hge b hb).symm
      · exact (filter_eq_self.mpr fun b hb => by simpa using hge b hb).symm

theorem dropWhile_lt_eq_filter (seq : α → Nat) (m : Nat) {l : List α}
    (h : l.Pairwise fun a b => seq a ≤ seq b) :
    l.dropWhile (fun a => decide (seq a < m)) = l.filter fun a => decide (m ≤ seq a) :=
  (takeWhile_dropWhile_lt seq m h).2

theorem filter_lt_append_filter_ge (seq : α → Nat) (m : Nat) {l : List α}
    (h : l.Pairwise fun a b => seq a ≤ seq b) :
    l.filter (fun a => decide (seq a < m)) ++ l.filter (fun a => decide (m ≤ seq a)) = l := by
  obtain ⟨htake, hdrop⟩ := takeWhile_dropWhile_lt seq m h
  rw [← htake, ← hdrop, takeWhile_append_dropWhile]

/-! ## Numbers handed out by a wrapping counter -/

section counter

variable {μ : Type*} {m start count seq : Nat} {of : Nat → μ} {x y : μ}

/-- `seq` is one of the first `count` numbers, and was handed out for `x`. -/
def Issued (m start count : Nat) (of : Nat → μ) (seq : Nat) (x : μ) : Prop :=
  ∃ i < count, seq = (start + i) % m ∧ of i = x

theorem Issued.next (h : Issued m start count of seq x) (y : μ) :
    Issued m start (count + 1) (Function.update of count y) seq x := by
  obtain ⟨i, hi, hseq, hof⟩ := h
  refine ⟨i, by omega, hseq, ?_⟩
  rw [Function.update_of_ne (by omega), hof]

/-- The number handed out next. -/
theorem issued_next (m start count : Nat) (of : Nat → μ) (y : μ) :
    Issued m start (count + 1) (Function.update of count y) ((start + count) % m) y :=
  ⟨count, by omega, rfl, Function.update_self ..⟩

theorem Issued.unique (h : Issued m start count of seq x) (h' : Issued m start count of seq y)
    (hcount : count ≤ m) : x = y := by
  obtain ⟨i, hi, hseq, hx⟩ := h
  obtain ⟨j, hj, hseq', hy⟩ := h'
  have hmod : start + i ≡ start + j [MOD m] := hseq.symm.trans hseq'
  have hij : i = j :=
    (hmod.add_left_cancel' start).eq_of_lt_of_lt (by omega) (by omega)
  rw [← hx, ← hy, hij]

end counter

end Telesthete.Lib
