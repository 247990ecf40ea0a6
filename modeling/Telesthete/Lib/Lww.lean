import Mathlib.Order.Lattice
import Telesthete.Lib.NumberedLog

/-!
# The last writer wins

Writes go to keys and carry stamps from a total order. Of the writes that were
seen, the one with the greatest stamp counts for its key: `Newest` says that it
is a given one, or that there is none. What was seen only matters up to what is
newer, which is what makes the order and the number of arrivals irrelevant:
when each of two histories has for every write of the other one that is at
least as new, and no two writes to a key share a stamp, the same writes count
in both (`Newest.eq_of_dominated`).
-/

namespace Telesthete.Lib

variable {κ τ ω : Type*} [LinearOrder τ] {key : ω → κ} {stamp : ω → τ}
  {seen other : List ω} {k : κ} {w : ω} {o o' : Option ω}

/-- Of the writes seen, this one counts for the key `k`. -/
def Newest (key : ω → κ) (stamp : ω → τ) (seen : List ω) (k : κ) : Option ω → Prop
  | none => ∀ w ∈ seen, key w ≠ k
  | some w => w ∈ seen ∧ key w = k ∧ ∀ v ∈ seen, key v = k → stamp v ≤ stamp w

/-- For every write seen here there is one over there that is at least as new. -/
def Dominated (key : ω → κ) (stamp : ω → τ) (seen other : List ω) : Prop :=
  ∀ w ∈ seen, ∃ v ∈ other, key v = key w ∧ stamp w ≤ stamp v

theorem dominated_of_subset (h : seen ⊆ other) : Dominated key stamp seen other :=
  fun w hw => ⟨w, h hw, rfl, le_refl _⟩

theorem Dominated.append {seen' : List ω} (h : Dominated key stamp seen other)
    (h' : Dominated key stamp seen' other) : Dominated key stamp (seen ++ seen') other := by
  exact List.forall_mem_append.mpr ⟨h, h'⟩

theorem Dominated.mono {other' : List ω} (h : Dominated key stamp seen other)
    (hsub : other ⊆ other') : Dominated key stamp seen other' := by
  intro w hw
  obtain ⟨v, hv, hle⟩ := h w hw
  exact ⟨v, hsub hv, hle⟩

theorem newest_nil : Newest key stamp [] k none := by
  intro w hw
  cases hw

/-- A write to another key. -/
theorem Newest.append_of_ne (h : Newest key stamp seen k o) (hk : key w ≠ k) :
    Newest key stamp (seen ++ [w]) k o := by
  cases o with
  | none =>
    exact forall_mem_snoc h hk
  | some u =>
    obtain ⟨hu, hku, hmax⟩ := h
    exact ⟨List.mem_append_left _ hu, hku, forall_mem_snoc hmax fun hkw => absurd hkw hk⟩

/-- A write that is at least as new as everything seen for its key. -/
theorem newest_append_self (hmax : ∀ v ∈ seen, key v = key w → stamp v ≤ stamp w) :
    Newest key stamp (seen ++ [w]) (key w) (some w) :=
  ⟨List.mem_append_right _ List.mem_cons_self, rfl, forall_mem_snoc hmax fun _ => le_rfl⟩

/-- A write that is no newer than what counts. -/
theorem Newest.append_of_le {u : ω} (h : Newest key stamp seen k (some u))
    (hle : stamp w ≤ stamp u) : Newest key stamp (seen ++ [w]) k (some u) := by
  obtain ⟨hu, hku, hmax⟩ := h
  exact ⟨List.mem_append_left _ hu, hku, forall_mem_snoc hmax fun _ => hle⟩

/-- To have what counts for each key is enough. -/
theorem dominated_of_newest (h : ∀ k, ∃ o, Newest key stamp seen k o ∧ ∀ v ∈ o, v ∈ other) :
    Dominated key stamp seen other := by
  intro w hw
  obtain ⟨o, ho, hother⟩ := h (key w)
  cases o with
  | none => exact absurd rfl (ho w hw)
  | some v => exact ⟨v, hother v rfl, ho.2.1, ho.2.2 w hw rfl⟩

theorem Newest.eq_of_dominated (h : Newest key stamp seen k o) (h' : Newest key stamp other k o')
    (hle : Dominated key stamp seen other) (hge : Dominated key stamp other seen)
    (hunique : ∀ v ∈ seen, ∀ w ∈ other, key v = key w → stamp v = stamp w → v = w) : o = o' := by
  cases o with
  | none =>
    cases o' with
    | none => rfl
    | some w =>
      obtain ⟨hw, hkw, -⟩ := h'
      obtain ⟨v, hv, hkv, -⟩ := hge w hw
      exact absurd (hkv.trans hkw) (h v hv)
  | some v =>
    obtain ⟨hv, hkv, hmax⟩ := h
    obtain ⟨w, hw, hkw, hvw⟩ := hle v hv
    cases o' with
    | none => exact absurd (hkw.trans hkv) (h' w hw)
    | some u =>
      -- each of the two is at least as new as the other one
      obtain ⟨hu, hku, hmax'⟩ := h'
      obtain ⟨x, hx, hkx, hux⟩ := hge u hu
      have hvu : stamp v ≤ stamp u := le_trans hvw (hmax' w hw (hkw.trans hkv))
      have huv : stamp u ≤ stamp v := le_trans hux (hmax x hx (hkx.trans hku))
      rw [hunique v hv u hu (hkv.trans hku.symm) (le_antisymm hvu huv)]

end Telesthete.Lib
