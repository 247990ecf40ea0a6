import Mathlib.Algebra.BigOperators.Group.List.Basic
import Mathlib.Algebra.Ring.Nat
import Mathlib.Data.List.AList

/-!
# Association lists: sizes, and keeping some of the keys

The maps of the model are association lists without repeated keys. Loops
that take entries out of a map run on its size, and budgets are sums over
its entries, so what an insertion or a removal does to the number of entries
and to a sum over them is stated here once. `retain` drops the entries of
all keys that fail a test, `filterVals` those whose value fails one too, and
`mapVals` and `modify` change values in place.
-/

namespace Telesthete.Lib

open List

variable {α : Type*} {β : α → Type*}
variable {s : AList β} {f : (a : α) → β a → β a} {a : α} {b : β a}

theorem eq_empty_of_isEmpty (h : s.entries.isEmpty) : s = ∅ :=
  AList.ext (isEmpty_iff.mp h)

theorem mem_of_mem_entries {e : Sigma β} (h : e ∈ s.entries) : e.1 ∈ s :=
  AList.mem_keys.mpr (mem_keys_of_mem h)

theorem mapM_eq_some {ι γ : Type*} {f : ι → Option γ} {g : ι → γ} {l : List ι}
    (h : ∀ i ∈ l, f i = some (g i)) : l.mapM f = some (l.map g) := by
  induction l with
  | nil => rfl
  | cons i l ih =>
    have hl := ih fun j hj => h j (mem_cons_of_mem i hj)
    simp [h i mem_cons_self, hl]

/-- Keys that are all there have a value each. -/
theorem mapM_lookup [DecidableEq α] {γ : Type*} {s : AList fun _ : α => γ} (d : γ) {l : List α}
    (h : ∀ a ∈ l, a ∈ s) :
    l.mapM (fun a => s.lookup a) = some (l.map fun a => (s.lookup a).getD d) := by
  refine mapM_eq_some fun a ha => ?_
  obtain ⟨b, hb⟩ := Option.isSome_iff_exists.mp (AList.lookup_isSome.mpr (h a ha))
  rw [hb, Option.getD_some]

/-- Every value changed in place. -/
def mapVals (f : (a : α) → β a → β a) (s : AList β) : AList β :=
  ⟨s.entries.map fun e => ⟨e.1, f e.1 e.2⟩, by
    have hkeys : (s.entries.map fun e : Sigma β => (⟨e.1, f e.1 e.2⟩ : Sigma β)).keys =
        s.entries.keys := by simp [List.keys]
    show List.Nodup _
    rw [hkeys]
    exact s.nodupKeys⟩

theorem mem_mapVals :
    a ∈ mapVals f s ↔ a ∈ s := by
  show a ∈ List.keys (s.entries.map _) ↔ a ∈ List.keys s.entries
  simp [List.keys]

theorem mapVals_mapVals_of_eq {f g : (a : α) → β a → β a}
    (h : ∀ a b, f a (g a b) = f a b) : mapVals f (mapVals g s) = mapVals f s := by
  refine AList.ext ?_
  show (s.entries.map _).map _ = s.entries.map _
  rw [map_map]
  refine map_congr_left fun e _ => ?_
  simp [h]

theorem length_entries_mapVals :
    (mapVals f s).entries.length = s.entries.length := length_map _

/-- A map with fewer keys is not larger. -/
theorem length_entries_le {δ : α → Type*} {t : AList δ} (h : ∀ a ∈ s, a ∈ t) :
    s.entries.length ≤ t.entries.length := by
  have hsub : s.keys ⊆ t.keys := fun a ha => h a ha
  have hle := (subperm_of_subset s.keys_nodup hsub).length_le
  simpa [AList.keys, List.keys] using hle

/-- A map whose keys are all in a list is not longer than the list. -/
theorem length_entries_le_of_forall_mem {keys : List α} (h : ∀ a ∈ s, a ∈ keys) :
    s.entries.length ≤ keys.length := by
  have hle := (subperm_of_subset s.keys_nodup fun a ha => h a ha).length_le
  simpa [AList.keys, List.keys] using hle

theorem length_le_of_forall_mem {keys : List α} (hnodup : keys.Nodup)
    (h : ∀ a ∈ keys, a ∈ s) : keys.length ≤ s.entries.length := by
  have hle := (subperm_of_subset hnodup fun a ha => AList.mem_keys.mp (h a ha)).length_le
  simpa [AList.keys, List.keys] using hle

/-- A map of indexes below a bound is no longer than the bound, and as long when it has them all. -/
theorem length_entries_le_of_lt {γ : Nat → Type*} {s : AList γ} {n : Nat} (h : ∀ i ∈ s, i < n) :
    s.entries.length ≤ n := by
  have hle := length_entries_le_of_forall_mem fun i hi => mem_range.mpr (h i hi)
  rwa [length_range] at hle

theorem length_entries_eq_iff {γ : Nat → Type*} {s : AList γ} {n : Nat} (h : ∀ i ∈ s, i < n) :
    s.entries.length = n ↔ ∀ i < n, i ∈ s := by
  constructor
  · intro hlen i hi
    by_contra hno
    have hle : s.entries.length ≤ ((List.range n).erase i).length :=
      length_entries_le_of_forall_mem fun j hj =>
        (mem_erase_of_ne (by rintro rfl; exact hno hj)).mpr (mem_range.mpr (h j hj))
    rw [length_erase_of_mem (mem_range.mpr hi), length_range] at hle
    omega
  · intro hall
    have hge := length_le_of_forall_mem (s := s) nodup_range
      fun i hi => hall i (mem_range.mp hi)
    rw [length_range] at hge
    exact le_antisymm (length_entries_le_of_lt h) hge

variable [DecidableEq α]

theorem length_entries_erase (h : a ∈ s) :
    (s.erase a).entries.length + 1 = s.entries.length := by
  have hkeys : (s.erase a).keys = s.keys.erase a := AList.keys_erase a s
  have hmem : a ∈ s.keys := AList.mem_keys.mp h
  have hlen := length_erase_add_one hmem
  rw [← hkeys] at hlen
  simpa [AList.keys, List.keys] using hlen

/-- A map with fewer keys that lacks one is smaller. -/
theorem length_entries_lt {δ : α → Type*} {t : AList δ}
    (h : ∀ a ∈ s, a ∈ t) (ht : a ∈ t) (hs : a ∉ s) : s.entries.length < t.entries.length := by
  have hle : s.entries.length ≤ (t.erase a).entries.length := by
    refine length_entries_le fun b hb => AList.mem_erase.mpr ⟨?_, h b hb⟩
    rintro rfl
    exact hs hb
  have herase := length_entries_erase ht
  omega

theorem mem_of_lookup (h : s.lookup a = some b) : a ∈ s :=
  AList.lookup_isSome.mp (by rw [h]; rfl)

theorem mem_entries_of_lookup (h : s.lookup a = some b) :
    (⟨a, b⟩ : Sigma β) ∈ s.entries :=
  AList.mem_lookup_iff.mp h

/-- Taking an entry out takes its summand out. -/
theorem sum_entries_erase (f : Sigma β → Nat) (h : s.lookup a = some b) :
    ((s.erase a).entries.map f).sum + f ⟨a, b⟩ = (s.entries.map f).sum := by
  have hkey : a ∈ s.entries.keys := mem_of_lookup h
  obtain ⟨b', l₁, l₂, hnot, hs, herase⟩ := exists_of_kerase hkey
  have hb : b' = b := by
    have hmem : (⟨a, b'⟩ : Sigma β) ∈ s.entries := by rw [hs]; simp
    exact Option.some.inj ((AList.mem_lookup_iff.mpr hmem).symm.trans h)
  subst hb
  show ((List.kerase a s.entries).map f).sum + _ = _
  rw [herase, hs]
  simp only [map_append, map_cons, sum_append, sum_cons]
  omega

theorem sum_entries_erase_of_notMem (f : Sigma β → Nat) (h : a ∉ s) :
    ((s.erase a).entries.map f).sum = (s.entries.map f).sum := by
  show ((List.kerase a s.entries).map f).sum = _
  rw [kerase_of_notMem_keys h]

/-- An insertion replaces whatever was there. -/
theorem sum_entries_insert (f : Sigma β → Nat) :
    ((s.insert a b).entries.map f).sum = f ⟨a, b⟩ + ((s.erase a).entries.map f).sum := by
  show ((List.kinsert a b s.entries).map f).sum = _
  rw [kinsert_def, map_cons, sum_cons]
  rfl

/-- A key that was not there goes as it came. -/
theorem erase_insert (h : a ∉ s) :
    (s.insert a b).erase a = s := by
  refine AList.ext ?_
  show List.kerase a (List.kinsert a b s.entries) = s.entries
  rw [kinsert_def, kerase_of_notMem_keys h]
  exact kerase_cons_eq rfl

/-- Replacing a value replaces its summand. -/
theorem sum_entries_replace {b b' : β a} (f : Sigma β → Nat) (h : s.lookup a = some b) :
    ((s.insert a b').entries.map f).sum + f ⟨a, b⟩ = (s.entries.map f).sum + f ⟨a, b'⟩ := by
  rw [sum_entries_insert, ← sum_entries_erase f h]
  omega

theorem sum_entries_insert_of_none (f : Sigma β → Nat) (h : s.lookup a = none) :
    ((s.insert a b).entries.map f).sum = f ⟨a, b⟩ + (s.entries.map f).sum := by
  rw [sum_entries_insert, sum_entries_erase_of_notMem f (AList.lookup_eq_none.mp h)]

theorem length_entries_insert (h : a ∉ s) :
    (s.insert a b).entries.length = s.entries.length + 1 := by
  show (List.kinsert a b s.entries).length = _
  rw [kinsert_def, length_cons, kerase_of_notMem_keys h]

theorem length_entries_insert_of_mem (h : a ∈ s) :
    (s.insert a b).entries.length = s.entries.length := by
  show (List.kinsert a b s.entries).length = _
  rw [kinsert_def, length_cons]
  exact length_entries_erase h

theorem length_entries_insert_le :
    (s.insert a b).entries.length ≤ s.entries.length + 1 := by
  by_cases h : a ∈ s
  · rw [length_entries_insert_of_mem h]
    exact Nat.le_succ _
  · rw [length_entries_insert h]

section Constant

variable {γ : Type*} {m : AList fun _ : α => γ} {a a' : α} {c : γ}

theorem lookup_insert_ite :
    (m.insert a c).lookup a' = if a' = a then some c else m.lookup a' := by
  by_cases h : a' = a
  · subst h
    simp
  · rw [AList.lookup_insert_ne h, if_neg h]

theorem lookup_erase_ite : (m.erase a).lookup a' = if a' = a then none else m.lookup a' := by
  by_cases h : a' = a
  · subst h
    simp
  · rw [AList.lookup_erase_ne h, if_neg h]

end Constant

/-- The entries that pass. -/
def filterVals (keep : (a : α) → β a → Bool) (s : AList β) : AList β :=
  ⟨s.entries.filter fun e => keep e.1 e.2, s.nodupKeys.sublist filter_sublist⟩

@[simp] theorem lookup_filterVals {keep : (a : α) → β a → Bool} :
    (filterVals keep s).lookup a = (s.lookup a).filter (keep a) := by
  refine Option.ext fun b => ?_
  have hmem : (⟨a, b⟩ : Sigma β) ∈ (filterVals keep s).entries ↔
      (⟨a, b⟩ : Sigma β) ∈ s.entries ∧ keep a b = true := mem_filter
  have hl : (filterVals keep s).lookup a = some b ↔
      (⟨a, b⟩ : Sigma β) ∈ (filterVals keep s).entries := AList.mem_lookup_iff
  have hr : s.lookup a = some b ↔ (⟨a, b⟩ : Sigma β) ∈ s.entries := AList.mem_lookup_iff
  rw [hl, hmem, ← hr, Option.filter_eq_some_iff]

/-- The entries whose key passes. -/
def retain (keep : α → Bool) (s : AList β) : AList β :=
  ⟨s.entries.filter fun e => keep e.1, s.nodupKeys.sublist filter_sublist⟩

@[simp] theorem lookup_retain {keep : α → Bool} :
    (retain keep s).lookup a = if keep a then s.lookup a else none := by
  have hvals : (filterVals (fun a _ => keep a) s).lookup a = _ := lookup_filterVals
  refine hvals.trans ?_
  cases s.lookup a with
  | none => simp
  | some b => simp [Option.filter_some]

theorem mem_retain {keep : α → Bool} :
    a ∈ retain keep s ↔ keep a = true ∧ a ∈ s := by
  rw [← AList.lookup_isSome, ← AList.lookup_isSome, lookup_retain]
  cases keep a <;> simp

@[simp] theorem lookup_mapVals :
    (mapVals f s).lookup a = (s.lookup a).map (f a) := by
  cases hs : s.lookup a with
  | none =>
    have hnot : a ∉ mapVals f s := by
      rw [mem_mapVals]
      exact AList.lookup_eq_none.mp hs
    exact AList.lookup_eq_none.mpr hnot
  | some b =>
    refine AList.mem_lookup_iff.mpr ?_
    exact mem_map.mpr ⟨⟨a, b⟩, mem_entries_of_lookup hs, rfl⟩

section Modify

variable {γ : Type*} {m : AList fun _ : α => γ} {a a' : α} {f : γ → γ}

/-- The value of one key changed in place, if the key is there. -/
def modify (a : α) (f : γ → γ) (m : AList fun _ : α => γ) : AList fun _ : α => γ :=
  mapVals (fun k c => if k = a then f c else c) m

theorem lookup_modify :
    (modify a f m).lookup a' = if a' = a then (m.lookup a').map f else m.lookup a' := by
  rw [modify, lookup_mapVals]
  by_cases h : a' = a
  · simp [h]
  · simp [h]

/-- A change that a later one does not see. -/
theorem mapVals_modify_of_eq {g : α → γ → γ} (h : ∀ c, g a (f c) = g a c) :
    mapVals g (modify a f m) = mapVals g m := by
  refine mapVals_mapVals_of_eq fun k c => ?_
  by_cases hk : k = a
  · rw [if_pos hk, hk, h]
  · rw [if_neg hk]

theorem modify_of_notMem (h : a ∉ m) : modify a f m = m := by
  refine AList.ext ?_
  refine map_congr_left (fun e he => ?_) |>.trans (map_id _)
  have hne : e.1 ≠ a := fun heq => h (heq ▸ mem_of_mem_entries he)
  simp [hne]

theorem length_entries_modify : (modify a f m).entries.length = m.entries.length :=
  length_entries_mapVals

end Modify

end Telesthete.Lib
