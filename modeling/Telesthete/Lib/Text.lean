import Telesthete.Lib.Bytes
import Telesthete.Lib.Utf8

/-!
# Texts cut by bytes

A text is a string of characters; what spells it in UTF-8 is a string of bytes.
A program that counts in bytes can cut a text in the middle of a character. The
cut is a character boundary when the byte after it is not a continuation byte,
and that is exactly when the bytes before it spell a text of their own.
-/

namespace Telesthete.Lib

open List

/-- Not a continuation byte: at least -64 when read as a signed one. -/
def startsChar (b : UInt8) : Bool := b < 0x80 || 0xc0 ≤ b

/-- Whether the offset is at a character, or at the end. -/
def isCharBoundary (text : Bytes) (i : Nat) : Bool :=
  if i = 0 then true
  else
    match text[i]? with
    | some b => startsChar b
    | none => i == text.length

/-- The bytes from `lo` up to `hi`, if the text can be cut at both. -/
def slice? (text : Bytes) (lo hi : Nat) : Option Bytes :=
  if lo ≤ hi ∧ isCharBoundary text lo ∧ isCharBoundary text hi then some ((text.take hi).drop lo)
  else none

/-- The text the bytes spell, if they do. -/
def fromUtf8 (bytes : Bytes) : Option String := String.fromUTF8? ⟨bytes.toArray⟩

theorem isCharBoundary_zero (text : Bytes) : isCharBoundary text 0 = true := rfl

theorem isCharBoundary_of_getElem? {text : Bytes} {i : Nat} {b : UInt8} (h : text[i]? = some b)
    (hi : i ≠ 0) : isCharBoundary text i = startsChar b := by
  rw [isCharBoundary, if_neg hi, h]

theorem isCharBoundary_of_length_le {text : Bytes} {i : Nat} (h : text.length ≤ i) (hi : i ≠ 0) :
    isCharBoundary text i = (i == text.length) := by
  rw [isCharBoundary, if_neg hi, getElem?_eq_none h]

/-- A byte of a character is its first one, or a continuation byte. -/
theorem isUTF8FirstByte_iff {c : Char} {b : UInt8} (h : b ∈ String.utf8EncodeChar c) :
    b.IsUTF8FirstByte ↔ startsChar b = true := by
  have hword : b.toNat ∈ utf8Word c.val.toNat := by
    rw [← map_utf8EncodeChar]
    exact mem_map_of_mem h
  have hbound : b.toNat < 0xf8 := by
    have hlt := char_val_lt c
    unfold utf8Word at hword
    split_ifs at hword <;> simp only [mem_cons, not_mem_nil, or_false] at hword <;> omega
  have hall : ∀ b : UInt8, b.toNat < 0xf8 → (b.IsUTF8FirstByte ↔ startsChar b = true) :=
    forall_byte (by decide +kernel)
  exact hall b hbound

/-- A character below 128 is spelled by one byte, itself. -/
theorem utf8EncodeChar_of_lt {c : Char} (h : c.val.toNat < 128) :
    String.utf8EncodeChar c = [UInt8.ofNat c.val.toNat] := by
  have hword := map_utf8EncodeChar c
  rw [utf8Word, if_pos (Nat.le_of_lt_succ h)] at hword
  obtain ⟨b, hb, hval⟩ := map_eq_singleton_iff.mp hword
  rw [hb, ← hval, UInt8.ofNat_toNat]

theorem val_lt_of_bytes_lt {c : Char} (h : ∀ b ∈ String.utf8EncodeChar c, b.toNat < 128) :
    c.val.toNat < 128 := by
  have hword : ∀ v ∈ utf8Word c.val.toNat, v < 128 := by
    rw [← map_utf8EncodeChar]
    exact forall_mem_map.mpr h
  by_contra hge
  unfold utf8Word at hword
  split_ifs at hword <;> simp only [forall_mem_cons] at hword <;> omega

section text

variable {s t : String} {n : Nat}

/-- A text can be cut at a character boundary, and nowhere else. -/
theorem isCharBoundary_iff_isValid :
    isCharBoundary s.toByteArray.data.toList n = true ↔ String.Pos.Raw.IsValid s ⟨n⟩ := by
  rcases Nat.eq_zero_or_pos n with rfl | hpos
  · exact ⟨fun _ => String.Pos.Raw.isValid_zero, fun _ => isCharBoundary_zero _⟩
  rw [String.Pos.Raw.isValid_iff_isUTF8FirstByte]
  have hsize : s.toByteArray.data.toList.length = s.utf8ByteSize := rfl
  rcases lt_or_ge n s.utf8ByteSize with hlt | hge
  · have hget : s.toByteArray.data.toList[n]? = some (s.getUTF8Byte ⟨n⟩ hlt) :=
      getElem?_eq_getElem (hsize ▸ hlt)
    have hmem : s.getUTF8Byte ⟨n⟩ hlt ∈ s.toList.flatMap String.utf8EncodeChar := by
      rw [← bytes_eq_flatMap]
      exact mem_of_getElem? hget
    obtain ⟨c, -, hc⟩ := mem_flatMap.mp hmem
    rw [isCharBoundary_of_getElem? hget hpos.ne', ← isUTF8FirstByte_iff hc]
    refine ⟨fun h => .inr ⟨hlt, h⟩, ?_⟩
    rintro (heq | ⟨_, h⟩)
    · exact absurd (congrArg String.Pos.Raw.byteIdx heq) hlt.ne
    · exact h
  · rw [isCharBoundary_of_length_le hge hpos.ne', beq_iff_eq, hsize]
    refine ⟨fun h => .inl (congrArg String.Pos.Raw.mk h), ?_⟩
    rintro (heq | ⟨hlt, -⟩)
    · exact congrArg String.Pos.Raw.byteIdx heq
    · exact absurd hlt (not_lt.mpr hge)

theorem bytes_of_ascii (h : ∀ c ∈ s.toList, c.val.toNat < 128) :
    s.toByteArray.data.toList = s.toList.map fun c => UInt8.ofNat c.val.toNat := by
  rw [bytes_eq_flatMap, ← flatMap_pure_eq_map]
  exact flatMap_congr fun c hc => utf8EncodeChar_of_lt (h c hc)

theorem ascii_of_bytes (h : ∀ b ∈ s.toByteArray.data.toList, b.toNat < 128) :
    ∀ c ∈ s.toList, c.val.toNat < 128 := by
  rw [bytes_eq_flatMap] at h
  exact fun c hc => val_lt_of_bytes_lt fun b hb => h b (mem_flatMap.mpr ⟨c, hc, hb⟩)

theorem fromUtf8_eq_some {bytes : Bytes} :
    fromUtf8 bytes = some t ↔ t.toByteArray.data.toList = bytes := by
  unfold fromUtf8 String.fromUTF8?
  constructor
  · intro h
    obtain ⟨_, heq⟩ := Option.dite_none_right_eq_some.mp h
    cases heq
    rfl
  · rintro rfl
    exact dif_pos t.isValidUTF8

theorem isValid_iff_exists_take (hn : n ≤ s.toByteArray.data.toList.length) :
    String.Pos.Raw.IsValid s ⟨n⟩ ↔
      ∃ t : String, t.toByteArray.data.toList = s.toByteArray.data.toList.take n := by
  rw [String.Pos.Raw.isValid_iff_isValidUTF8_extract_zero]
  have hextract : (s.toByteArray.extract 0 n).data.toList = s.toByteArray.data.toList.take n := by
    simp
  constructor
  · rintro ⟨-, hvalid⟩
    exact ⟨⟨_, hvalid⟩, hextract⟩
  · rintro ⟨t, ht⟩
    have heq : t.toByteArray = s.toByteArray.extract 0 n :=
      ByteArray.ext (Array.toList_inj.mp (ht.trans hextract.symm))
    exact ⟨hn, heq ▸ t.isValidUTF8⟩

/-- The first bytes of a text spell a text when all are taken or the cut is between characters. -/
theorem isSome_fromUtf8_take :
    (fromUtf8 (s.toByteArray.data.toList.take n)).isSome = true ↔
      s.toByteArray.data.toList.length ≤ n ∨ isCharBoundary s.toByteArray.data.toList n = true := by
  rw [Option.isSome_iff_exists]
  simp only [fromUtf8_eq_some]
  rcases lt_or_ge n s.toByteArray.data.toList.length with hlt | hge
  · rw [isCharBoundary_iff_isValid, isValid_iff_exists_take hlt.le]
    exact ⟨.inr, fun h => h.resolve_left (not_le.mpr hlt)⟩
  · rw [take_of_length_le hge]
    exact ⟨fun _ => .inl hge, fun _ => ⟨s, rfl⟩⟩

/-- The text that the first bytes of a text spell is the beginning of that text. -/
theorem toList_isPrefix (h : t.toByteArray.data.toList = s.toByteArray.data.toList.take n) :
    t.toList <+: s.toList := by
  rcases lt_or_ge n s.toByteArray.data.toList.length with hlt | hge
  · have hvalid := (isValid_iff_exists_take hlt.le).mpr ⟨t, h⟩
    let u : String := ⟨_, hvalid.isValidUTF8_extract_utf8ByteSize⟩
    have hu : u.toByteArray.data.toList = s.toByteArray.data.toList.drop n := by
      rw [ByteArray.data_extract, Array.toList_extract, extract_eq_take_drop]
      exact take_of_length_le (length_drop ▸ le_rfl)
    have happend : t ++ u = s := by
      apply String.toByteArray_inj.mp
      apply ByteArray.ext
      apply Array.toList_inj.mp
      rw [String.toByteArray_append, ByteArray.data_append, Array.toList_append, h, hu,
        take_append_drop]
    exact ⟨u.toList, by rw [← String.toList_append, happend]⟩
  · rw [take_of_length_le hge] at h
    have hts : t = s := String.toByteArray_inj.mp (ByteArray.ext (Array.toList_inj.mp h))
    exact ⟨[], by rw [append_nil, hts]⟩

end text

end Telesthete.Lib
