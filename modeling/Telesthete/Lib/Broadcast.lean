import Mathlib.Data.List.Basic
import Mathlib.Tactic.Common

/-!
# A bounded broadcast channel

Every receiver gets every value that is sent after it subscribed, unless it
falls behind: the channel keeps the last `capacity` values. A receiver that is
further behind is told once that it lagged and continues with the oldest value
kept. The channel is the list of all values ever sent, a receiver is the
number of values it has passed; `untaken` is what it will still get if nothing
more is sent, and a send costs it at most the value `overwritten`.
-/

namespace Telesthete.Lib.Broadcast

open List

variable {α : Type*} {capacity next next' : Nat} {sent : List α} {a b : α}

/-- What a receiver at `next` gets: nothing if it has passed all values, else
a lag (no value) or the next value, and its new position. -/
def recv (capacity : Nat) (sent : List α) (next : Nat) : Option (Option α × Nat) :=
  if capacity < sent.length - next then some (none, sent.length - capacity)
  else sent[next]?.map fun a => (some a, next + 1)

/-- The values a receiver has not passed that the channel still keeps. -/
def untaken (capacity : Nat) (sent : List α) (next : Nat) : List α :=
  sent.drop (max next (sent.length - capacity))

/-- The value that one more send takes from a receiver. -/
def overwritten (capacity : Nat) (sent : List α) (next : Nat) : Option α :=
  if next + capacity ≤ sent.length then sent[sent.length - capacity]? else none

theorem recv_le {value : Option α} (h : recv capacity sent next = some (value, next')) :
    next' ≤ sent.length := by
  unfold recv at h
  split at h
  · obtain ⟨-, rfl⟩ := Prod.mk.inj (Option.some.inj h)
    exact Nat.sub_le _ _
  · obtain ⟨a, ha, hpair⟩ := Option.map_eq_some_iff.mp h
    obtain ⟨-, rfl⟩ := Prod.mk.inj hpair
    exact (List.getElem?_eq_some_iff.mp ha).1

theorem untaken_of_lag (h : recv capacity sent next = some (none, next')) :
    untaken capacity sent next' = untaken capacity sent next := by
  unfold recv at h
  split at h
  · rename_i hlag
    obtain ⟨-, rfl⟩ := Prod.mk.inj (Option.some.inj h)
    rw [untaken, untaken, Nat.max_self, Nat.max_eq_right (by omega)]
  · obtain ⟨a, -, hpair⟩ := Option.map_eq_some_iff.mp h
    cases (Prod.mk.inj hpair).1

theorem untaken_of_value (h : recv capacity sent next = some (some a, next')) :
    untaken capacity sent next = a :: untaken capacity sent next' := by
  unfold recv at h
  split at h
  · cases (Prod.mk.inj (Option.some.inj h)).1
  · rename_i hkept
    obtain ⟨c, hc, hpair⟩ := Option.map_eq_some_iff.mp h
    obtain ⟨hca, rfl⟩ := Prod.mk.inj hpair
    cases hca
    obtain ⟨hlt, rfl⟩ := List.getElem?_eq_some_iff.mp hc
    rw [untaken, untaken, Nat.max_eq_left (by omega), Nat.max_eq_left (by omega)]
    exact drop_eq_getElem_cons hlt

theorem untaken_of_none (h : recv capacity sent next = none) :
    untaken capacity sent next = [] := by
  unfold recv at h
  split at h
  · cases h
  · have hlen := getElem?_eq_none_iff.mp (Option.map_eq_none_iff.mp h)
    exact drop_eq_nil_of_le (Nat.le_trans hlen (Nat.le_max_left _ _))

/-- A send keeps what a receiver will get, up to the value overwritten. -/
theorem mem_untaken_append (h : a ∈ untaken capacity sent next) :
    a ∈ untaken capacity (sent ++ [b]) next ∨ overwritten capacity sent next = some a := by
  unfold untaken at h ⊢
  rw [length_append, length_singleton]
  by_cases hfull : next + capacity ≤ sent.length
  · rw [overwritten, if_pos hfull]
    rw [Nat.max_eq_right (by omega)] at h ⊢
    have hlt : sent.length - capacity < sent.length := by
      have hpos := length_pos_of_mem h
      rw [length_drop] at hpos
      omega
    rw [drop_eq_getElem_cons hlt] at h
    rcases mem_cons.mp h with rfl | hrest
    · exact .inr (getElem?_eq_getElem hlt)
    · refine .inl ?_
      rw [show sent.length + 1 - capacity = sent.length - capacity + 1 by omega,
        drop_append_of_le_length (by omega)]
      exact mem_append_left _ hrest
  · refine .inl ?_
    rw [Nat.max_eq_left (by omega)] at h ⊢
    have hlt : next < sent.length := by
      have hpos := length_pos_of_mem h
      rw [length_drop] at hpos
      omega
    rw [drop_append_of_le_length (by omega)]
    exact mem_append_left _ h

theorem mem_untaken_self (hpos : 0 < capacity) (hnext : next ≤ sent.length) :
    b ∈ untaken capacity (sent ++ [b]) next := by
  unfold untaken
  rw [length_append, length_singleton, drop_append_of_le_length (by omega)]
  exact mem_append_right _ (mem_singleton_self b)

end Telesthete.Lib.Broadcast
