import Mathlib.Data.String.Basic
import Mathlib.Tactic.SplitIfs

/-!
# UTF-8 keeps the order of strings

Strings are ordered by code points, byte sequences byte by byte. UTF-8 takes one
order to the other. That is a property of the code words of single characters:
of two characters the words differ, and differ the way the characters do, before
either ends. An `OrderedCode` is a code of that kind, and what is spelled in it
compares as the texts do, whatever follows.
-/

namespace Telesthete.Lib

open List

section code

variable {α β : Type*} [LinearOrder α] [LinearOrder β] {word : α → List β} {s t : List α}

/-- Every letter has a word, and the first difference of two words is that of their letters. -/
structure OrderedCode (word : α → List β) : Prop where
  ne_nil : ∀ a, word a ≠ []
  lt : ∀ {a b}, a < b → ∀ u v, word a ++ u < word b ++ v

theorem append_lt_append {u v : List β} (w : List β) (h : u < v) : w ++ u < w ++ v := by
  induction w with
  | nil => exact h
  | cons x w ih => exact cons_lt_cons_iff.mpr (.inr ⟨rfl, ih⟩)

theorem OrderedCode.flatMap_lt (h : OrderedCode word) (hst : s < t) :
    s.flatMap word < t.flatMap word := by
  induction s generalizing t with
  | nil =>
    cases t with
    | nil => exact absurd hst (lt_irrefl _)
    | cons b t =>
      obtain ⟨x, u, hx⟩ := exists_cons_of_ne_nil (h.ne_nil b)
      rw [flatMap_nil, flatMap_cons, hx, cons_append]
      exact nil_lt_cons x _
  | cons a s ih =>
    cases t with
    | nil => exact absurd hst (not_lt_nil _)
    | cons b t =>
      rw [flatMap_cons, flatMap_cons]
      rcases cons_lt_cons_iff.mp hst with hab | ⟨rfl, hrest⟩
      · exact h.lt hab _ _
      · exact append_lt_append _ (ih hrest)

theorem OrderedCode.flatMap_lt_iff (h : OrderedCode word) :
    s.flatMap word < t.flatMap word ↔ s < t :=
  StrictMono.lt_iff_lt (f := fun s => s.flatMap word) fun _ _ hst => h.flatMap_lt hst

end code

/-- `compare` on lists is their lexicographic order. -/
theorem compare_list_eq_lt : ∀ {s t : List Nat}, compare s t = .lt ↔ s < t := by
  intro s
  induction s with
  | nil =>
    intro t
    cases t with
    | nil => exact ⟨fun h => Ordering.noConfusion h, fun h => absurd h (lt_irrefl _)⟩
    | cons b t => exact ⟨fun _ => nil_lt_cons b t, fun _ => rfl⟩
  | cons a s ih =>
    intro t
    cases t with
    | nil => exact ⟨fun h => Ordering.noConfusion h, fun h => absurd h (not_lt_nil _)⟩
    | cons b t =>
      rw [List.compare_cons_cons, List.cons_lt_cons_iff, Ordering.then_eq_lt, Nat.compare_eq_lt,
        Nat.compare_eq_eq, ih]

/-- The values of the bytes that spell a code point. -/
def utf8Word (v : Nat) : List Nat :=
  if v ≤ 0x7f then [v]
  else if v ≤ 0x7ff then [v / 64 + 192, v % 64 + 128]
  else if v ≤ 0xffff then [v / 4096 + 224, v / 64 % 64 + 128, v % 64 + 128]
  else [v / 262144 + 240, v / 4096 % 64 + 128, v / 64 % 64 + 128, v % 64 + 128]

theorem utf8Word_lt {v w : Nat} (h : v < w) (s t : List Nat) :
    utf8Word v ++ s < utf8Word w ++ t := by
  unfold utf8Word
  split_ifs <;> simp only [cons_append, nil_append, cons_lt_cons_iff] <;> omega

theorem char_val_lt (c : Char) : c.val.toNat < 0x110000 := by
  rcases c.valid with h | ⟨-, h⟩
  · exact lt_trans h (by decide)
  · exact h

theorem map_utf8EncodeChar (c : Char) :
    (String.utf8EncodeChar c).map UInt8.toNat = utf8Word c.val.toNat := by
  have hlt := char_val_lt c
  unfold String.utf8EncodeChar utf8Word
  dsimp only
  generalize c.val.toNat = v
    at hlt ⊢
  split_ifs
  all_goals
    simp only [map_cons, map_nil, UInt8.toNat_ofNat', List.cons.injEq, and_true]
    omega

theorem orderedCode_utf8 : OrderedCode fun c : Char => utf8Word c.val.toNat where
  ne_nil c := by
    rw [← map_utf8EncodeChar]
    exact fun h => String.utf8EncodeChar_ne_nil (map_eq_nil_iff.mp h)
  lt hab := utf8Word_lt hab

/-- The values of the bytes of a string. -/
def byteValues (s : String) : List Nat := s.toByteArray.data.toList.map UInt8.toNat

theorem bytes_eq_flatMap (s : String) :
    s.toByteArray.data.toList = s.toList.flatMap String.utf8EncodeChar := by
  conv =>
    lhs
    rw [← String.ofList_toList (s := s), String.toByteArray_ofList, List.utf8Encode]
  rw [data_toByteArray]

theorem byteValues_eq (s : String) :
    byteValues s = s.toList.flatMap fun c => utf8Word c.val.toNat := by
  rw [byteValues, bytes_eq_flatMap, map_flatMap]
  exact flatMap_congr fun c _ => map_utf8EncodeChar c

theorem byteValues_lt_iff {s t : String} : byteValues s < byteValues t ↔ s < t := by
  rw [byteValues_eq, byteValues_eq, String.lt_iff_toList_lt]
  exact orderedCode_utf8.flatMap_lt_iff

theorem byteValues_inj {s t : String} (h : byteValues s = byteValues t) : s = t := by
  rcases lt_trichotomy s t with hlt | heq | hlt
  · exact absurd h (ne_of_lt (byteValues_lt_iff.mpr hlt))
  · exact heq
  · exact absurd h.symm (ne_of_lt (byteValues_lt_iff.mpr hlt))

theorem byteValues_le_iff {s t : String} : byteValues s ≤ byteValues t ↔ s ≤ t := by
  rw [← not_lt, ← not_lt, byteValues_lt_iff]

end Telesthete.Lib
