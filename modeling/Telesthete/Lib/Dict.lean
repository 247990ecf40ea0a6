import Mathlib.Algebra.BigOperators.Group.List.Basic
import Mathlib.Algebra.Ring.Nat
import Mathlib.Data.List.Nodup

/-!
# Maps that remember the order of insertion

A `Dict` lists its entries in the order in which their keys came in. Setting a
key that is there changes its value in place; a key that was taken out and set
again goes to the end. `trim` and `popWhile` are the two loops that delete the
first entry, while there are too many or while it passes a test.

Lookups are facts about membership: `mem_entries_iff`.
-/

namespace Telesthete.Lib

open List

structure Dict (K V : Type*) where
  entries : List (K × V)
  nodup : (entries.map Prod.fst).Nodup

namespace Dict

variable {K V : Type*} {d : Dict K V} {k : K} {v w : V}

def empty : Dict K V := ⟨[], nodup_nil⟩

def length (d : Dict K V) : Nat := d.entries.length

/-- The end of a list, from where it is no longer than `n`. -/
def dropExcess {α : Type*} (n : Nat) : List α → List α
  | [] => []
  | e :: rest => if n < rest.length + 1 then dropExcess n rest else e :: rest

theorem dropExcess_eq {α : Type*} (n : Nat) :
    ∀ l : List α, dropExcess n l = l.drop (l.length - n) := by
  intro l
  induction l with
  | nil => rw [dropExcess, drop_nil]
  | cons e rest ih =>
    rw [dropExcess, length_cons]
    split
    · rw [ih, show rest.length + 1 - n = rest.length - n + 1 by omega, drop_succ_cons]
    · rw [show rest.length + 1 - n = 0 by omega, drop_zero]

/-- `del d[next(iter(d))]` while there are more than `n` entries. -/
def trim (d : Dict K V) (n : Nat) : Dict K V :=
  ⟨dropExcess n d.entries, by
    rw [dropExcess_eq]
    exact d.nodup.sublist ((drop_sublist _ _).map _)⟩

theorem entries_trim (d : Dict K V) (n : Nat) :
    (d.trim n).entries = d.entries.drop (d.entries.length - n) := dropExcess_eq n d.entries

/-- `del d[next(iter(d))]` while the first entry passes. -/
def popWhile (d : Dict K V) (test : K × V → Bool) : Dict K V :=
  ⟨d.entries.dropWhile test, d.nodup.sublist ((dropWhile_sublist _).map _)⟩

def filter (d : Dict K V) (keep : K × V → Bool) : Dict K V :=
  ⟨d.entries.filter keep, d.nodup.sublist (filter_sublist.map _)⟩

/-- A key has one value. -/
theorem eq_of_mem (hv : (k, v) ∈ d.entries) (hw : (k, w) ∈ d.entries) : v = w :=
  congrArg Prod.snd (inj_on_of_nodup_map d.nodup hv hw rfl)

variable [DecidableEq K]

/-- Taking the entry of a key out takes its summand out. -/
theorem sum_filter_ne (f : K × V → Nat) : ∀ {l : List (K × V)}, (l.map Prod.fst).Nodup →
    (k, v) ∈ l → ((l.filter fun e => e.1 ≠ k).map f).sum + f (k, v) = (l.map f).sum := by
  intro l
  induction l with
  | nil => exact fun _ hmem => absurd hmem not_mem_nil
  | cons e l ih =>
    intro hnodup hmem
    obtain ⟨hnot, hrest⟩ := nodup_cons.mp (map_cons ▸ hnodup)
    by_cases he : e.1 = k
    · have heq : (k, v) = e := by
        rcases mem_cons.mp hmem with heq | hmem
        · exact heq
        · exact absurd (mem_map_of_mem (f := Prod.fst) hmem) (he ▸ hnot)
      have hself : l.filter (fun e => e.1 ≠ k) = l := by
        refine filter_eq_self.mpr fun e' he' => ?_
        have hne : e'.1 ≠ k := fun h => hnot (he ▸ h ▸ mem_map_of_mem he')
        simpa using hne
      rw [filter_cons_of_neg (by simpa using he), hself, map_cons, sum_cons, heq,
        Nat.add_comm]
    · have htail : (k, v) ∈ l := by
        refine (mem_cons.mp hmem).resolve_left fun heq => he ?_
        rw [← heq]
      rw [filter_cons_of_pos (by simpa using he), map_cons, sum_cons, map_cons,
        sum_cons, Nat.add_assoc, ih hrest htail]

def contains (d : Dict K V) (k : K) : Bool := d.entries.any fun e => e.1 = k

def get? (d : Dict K V) (k : K) : Option V := (d.entries.find? fun e => e.1 = k).map Prod.snd

def pop (d : Dict K V) (k : K) : Dict K V :=
  ⟨d.entries.filter fun e => e.1 ≠ k, d.nodup.sublist (filter_sublist.map _)⟩

theorem contains_iff : d.contains k = true ↔ k ∈ d.entries.map Prod.fst := by
  simp [contains]

/-- `d[k] = v` -/
def set (d : Dict K V) (k : K) (v : V) : Dict K V :=
  if h : d.contains k = true then
    ⟨d.entries.map fun e => if e.1 = k then (k, v) else e, by
      have hkeys : (d.entries.map fun e => if e.1 = k then (k, v) else e).map Prod.fst =
          d.entries.map Prod.fst := by
        rw [map_map]
        refine map_congr_left fun e _ => ?_
        by_cases he : e.1 = k
        · simp [he]
        · simp [he]
      rw [hkeys]
      exact d.nodup⟩
  else
    ⟨d.entries ++ [(k, v)], by
      have hk : k ∉ d.entries.map Prod.fst := fun hmem => h (contains_iff.mpr hmem)
      rw [map_append, map_singleton]
      exact d.nodup.append (nodup_singleton k) (disjoint_singleton.mpr hk)⟩

theorem mem_entries_iff : (k, v) ∈ d.entries ↔ d.get? k = some v := by
  constructor
  · intro hmem
    have hsome : (d.entries.find? fun e => e.1 = k).isSome = true :=
      find?_isSome.mpr ⟨(k, v), hmem, by simp⟩
    obtain ⟨⟨k', w⟩, hfind⟩ := Option.isSome_iff_exists.mp hsome
    have hk : k' = k := by simpa using find?_some hfind
    subst hk
    rw [get?, hfind, eq_of_mem hmem (mem_of_find?_eq_some hfind)]
    rfl
  · intro hget
    obtain ⟨⟨k', w⟩, hfind, rfl⟩ := Option.map_eq_some_iff.mp hget
    have hk : k' = k := by simpa using find?_some hfind
    exact hk ▸ mem_of_find?_eq_some hfind

theorem get?_isSome : (d.get? k).isSome = d.contains k := by
  rw [get?, Option.isSome_map, contains, Bool.eq_iff_iff, find?_isSome, any_eq_true]

theorem entries_set_of_contains (h : d.contains k = true) :
    (d.set k v).entries = d.entries.map fun e => if e.1 = k then (k, v) else e := by
  rw [set, dif_pos h]

theorem entries_set_of_not_contains (h : d.contains k = false) :
    (d.set k v).entries = d.entries ++ [(k, v)] := by
  rw [set, dif_neg (by rw [h]; decide)]

theorem get?_set {k' : K} : (d.set k v).get? k' = if k' = k then some v else d.get? k' := by
  refine Option.ext fun w => ?_
  rw [← mem_entries_iff]
  cases h : d.contains k with
  | true =>
    rw [entries_set_of_contains h, mem_map]
    obtain ⟨⟨_, u⟩, hu, rfl⟩ := mem_map.mp (contains_iff.mp h)
    split
    · next hk =>
      subst hk
      constructor
      · rintro ⟨e, -, he⟩
        split at he
        · rw [← (Prod.mk.inj he).2]
        · next hne => exact absurd (congrArg Prod.fst he) hne
      · intro hw
        exact ⟨_, hu, by rw [if_pos rfl, Option.some.inj hw]⟩
    · next hk =>
      rw [← mem_entries_iff]
      constructor
      · rintro ⟨e, he, heq⟩
        split at heq
        · exact absurd (congrArg Prod.fst heq).symm hk
        · exact heq ▸ he
      · exact fun hmem => ⟨_, hmem, if_neg hk⟩
  | false =>
    rw [entries_set_of_not_contains h, mem_append, mem_singleton]
    split
    · next hk =>
      subst hk
      have hnot : (k', w) ∉ d.entries := fun hmem => by
        have hc : d.contains k' = true := contains_iff.mpr (mem_map_of_mem hmem)
        exact absurd (h.symm.trans hc) Bool.false_ne_true
      rw [Option.some.injEq]
      exact ⟨fun hor => (Prod.mk.inj (hor.resolve_left hnot)).2.symm,
        fun hv => .inr (by rw [hv])⟩
    · next hk =>
      rw [← mem_entries_iff]
      exact ⟨fun hor => hor.resolve_right fun heq => hk (Prod.mk.inj heq).1, .inl⟩

theorem pop_of_not_contains (h : d.contains k = false) : (d.pop k).entries = d.entries := by
  refine filter_eq_self.mpr fun e he => ?_
  have hne : ¬ e.1 = k := fun heq => by
    have : d.contains k = true := contains_iff.mpr (heq ▸ mem_map_of_mem he)
    rw [h] at this
    exact Bool.false_ne_true this
  simpa using hne

end Dict

end Telesthete.Lib
