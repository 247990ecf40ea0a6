import Telesthete.Lib.Assoc

/-!
# High-water marks

A receiver keeps one mark per key, the highest sequence it admitted. The
first sequence of a key is admitted whatever it is, later ones only above the
mark. `Covers` says that a sequence can no longer be admitted; it lasts until
the mark of its key is removed.
-/

namespace Telesthete.Lib.HighWater

variable {κ : Type*} [DecidableEq κ]

/-- `none` for a sequence at or below the mark, else the marks with this one
advanced. -/
def raise (marks : AList fun _ : κ => Nat) (key : κ) (seq : Nat) :
    Option (AList fun _ : κ => Nat) :=
  if (marks.lookup key).any (seq ≤ ·) then none else some (marks.insert key seq)

/-- The mark of `key` is at `seq` or above. -/
def Covers (marks : AList fun _ : κ => Nat) (key : κ) (seq : Nat) : Prop :=
  ∃ mark, marks.lookup key = some mark ∧ seq ≤ mark

variable {marks marks' : AList fun _ : κ => Nat} {key k : κ} {seq s : Nat}

theorem raise_eq_some : raise marks key seq = some marks' ↔
    (∀ mark, marks.lookup key = some mark → mark < seq) ∧ marks.insert key seq = marks' := by
  unfold raise
  cases hmark : marks.lookup key with
  | none => simp
  | some mark => simp

/-- What is covered is not admitted. -/
theorem Covers.lt_of_raise (h : Covers marks key s) (hraise : raise marks key seq = some marks') :
    s < seq := by
  obtain ⟨mark, hmark, hle⟩ := h
  exact lt_of_le_of_lt hle ((raise_eq_some.mp hraise).1 mark hmark)

theorem Covers.raise (h : Covers marks k s) (hraise : raise marks key seq = some marks') :
    Covers marks' k s := by
  obtain ⟨hlt, rfl⟩ := raise_eq_some.mp hraise
  obtain ⟨mark, hmark, hle⟩ := h
  by_cases hkey : k = key
  · subst hkey
    exact ⟨seq, AList.lookup_insert marks, le_trans hle (le_of_lt (hlt mark hmark))⟩
  · exact ⟨mark, by rw [AList.lookup_insert_ne hkey, hmark], hle⟩

theorem covers_of_raise (hraise : raise marks key seq = some marks') : Covers marks' key seq := by
  obtain ⟨-, rfl⟩ := raise_eq_some.mp hraise
  exact ⟨seq, AList.lookup_insert marks, Nat.le_refl seq⟩

theorem Covers.retain {keep : κ → Bool} (h : Covers marks k s) (hkeep : keep k = true) :
    Covers (retain keep marks) k s := by
  obtain ⟨mark, hmark, hle⟩ := h
  exact ⟨mark, by rw [lookup_retain, if_pos hkeep, hmark], hle⟩

end Telesthete.Lib.HighWater
