import Telesthete.Relay.BandHex

/-!
# Which texts are read as a band id

A band id should be read off exactly the texts of thirty-two hexadecimal digits.
The reader checks less and more than that. Less, since the number parser it
hands each pair of bytes to takes a plus sign before a digit. More, since it
cuts the text by byte offsets, and a cut inside a character is a panic. It
stops at the first pair that is no number, so a text is misread exactly when the
pairs before the trouble are all numbers: then either they are the whole text
and one has a plus sign, or the pair after them ends inside a character.
-/

namespace Telesthete.Relay

open Telesthete.Lib Telesthete.Crypto List

variable {c : Char} {s : String} {pairs : List (UInt8 × UInt8)}

def IsHexDigit (c : Char) : Prop :=
  '0' ≤ c ∧ c ≤ '9' ∨ 'a' ≤ c ∧ c ≤ 'f' ∨ 'A' ≤ c ∧ c ≤ 'F'

instance instDecidableIsHexDigit (c : Char) : Decidable (IsHexDigit c) :=
  inferInstanceAs (Decidable (_ ∨ _))

/-- The spelling of a band id, in either case. -/
def IsBandHex (s : String) : Prop := s.toList.length = 32 ∧ ∀ c ∈ s.toList, IsHexDigit c

/-- The text is read without a panic, as a band id exactly if it spells one, and as the one it
spells. -/
def ReadExactly (s : String) : Prop :=
  ∃ r, bandFromHex s = some r ∧ (r.isSome ↔ IsBandHex s) ∧ ∀ b, r = some b → bandHex b = s.toLower

/-- The path is read without a panic, and any band id read off it is spelled in it. -/
def RoutedExactly (path : String) : Prop :=
  ∃ r, parseBand path = some r ∧
    ∀ b, r = some b → ∃ hex, bandParam path = some hex ∧ IsBandHex hex ∧ bandHex b = hex.toLower

def spell (pairs : List (UInt8 × UInt8)) : Bytes := pairs.flatMap fun p => [p.1, p.2]

/-- Two digits, or a plus sign and a digit. -/
def IsNumber (p : UInt8 × UInt8) : Prop :=
  ((toDigit p.1).isSome ∨ p.1 = plusSign) ∧ (toDigit p.2).isSome

instance instDecidableIsNumber (p : UInt8 × UInt8) : Decidable (IsNumber p) :=
  inferInstanceAs (Decidable (_ ∧ _))

/-- Thirty-two bytes that begin with pairs that are numbers, and then either end, a plus sign
being among the pairs, or have a pair that ends inside a character. -/
def Misread (text : Bytes) : Prop :=
  text.length = 32 ∧ ∃ pairs, (∀ p ∈ pairs, IsNumber p) ∧
    (text = spell pairs ∧ (∃ p ∈ pairs, p.1 = plusSign) ∨
      ∃ a b c rest, text = spell pairs ++ a :: b :: c :: rest ∧ startsChar c = false)

/-! ## Bytes -/

theorem toDigit_lt : ∀ b : UInt8, ∀ d ∈ toDigit b, d < 16 := forall_byte (by decide +kernel)

theorem startsChar_of_toDigit : ∀ b : UInt8, (toDigit b).isSome → startsChar b = true :=
  forall_byte (by decide +kernel)

/-- A digit is written in lower case, whatever case it was read in. -/
theorem digitChar_of_toDigit :
    ∀ b : UInt8, ∀ d ∈ toDigit b, Nat.digitChar d = (Char.ofNat b.toNat).toLower :=
  forall_byte (by decide +kernel)

theorem isSome_toDigit_iff :
    ∀ b : UInt8, (toDigit b).isSome ↔ b.toNat < 128 ∧ IsHexDigit (Char.ofNat b.toNat) :=
  forall_byte (by decide +kernel)

theorem IsNumber.startsChar {p : UInt8 × UInt8} (h : IsNumber p) : startsChar p.1 = true := by
  rcases h.1 with hdigit | hplus
  · exact startsChar_of_toDigit _ hdigit
  · rw [hplus]
    rfl

/-- The number a pair is read as. -/
def pairValue (p : UInt8 × UInt8) : UInt8 :=
  UInt8.ofNat ((toDigit p.1).getD 0 * 16 + (toDigit p.2).getD 0)

theorem fromStrRadix_pair (a b : UInt8) :
    fromStrRadix [a, b] = if IsNumber (a, b) then some (pairValue (a, b)) else none := by
  have hplus : toDigit plusSign = none := rfl
  have hdef : fromStrRadix [a, b] =
      ((if a = plusSign then [b] else [a, b]).foldlM pushDigit 0).map UInt8.ofNat := rfl
  rw [hdef]
  obtain hb | ⟨e, hb⟩ := Option.eq_none_or_eq_some (toDigit b)
  · have hpush : ∀ acc, pushDigit acc b = none := fun acc => by rw [pushDigit, hb]; rfl
    have hnot : ¬ IsNumber (a, b) := fun h => by
      have hdigit := h.2
      rw [hb] at hdigit
      exact absurd hdigit Bool.false_ne_true
    rw [if_neg hnot]
    by_cases ha : a = plusSign
    · simp [ha, hpush]
    · cases hda : pushDigit 0 a <;> simp [ha, hda, hpush]
  · have he := toDigit_lt b e hb
    by_cases ha : a = plusSign
    · have hlt : e < 256 := by omega
      simp [ha, hb, hplus, hlt, pushDigit, IsNumber, pairValue]
    · obtain hda | ⟨d, hda⟩ := Option.eq_none_or_eq_some (toDigit a)
      · simp [ha, hda, pushDigit, IsNumber]
      · have hd := toDigit_lt a d hda
        have hlt : d < 256 := by omega
        have hlt' : d * 16 + e < 256 := by omega
        simp [ha, hb, hda, hlt, hlt', pushDigit, IsNumber, pairValue]

/-! ## The loop -/

/-- The loop on the bytes that are still to be read. -/
def readRest : Bytes → Option (Option Bytes)
  | a :: b :: rest =>
    if rest.head?.all startsChar then
      match fromStrRadix [a, b] with
      | none => some none
      | some byte => (readRest rest).map fun out => out.map fun bytes => byte :: bytes
    else none
  | _ => some (some [])

theorem isCharBoundary_eq_head? (text : Bytes) (i : Nat) (hi : i ≠ 0) (hle : i ≤ text.length) :
    isCharBoundary text i = (text.drop i).head?.all startsChar := by
  rw [head?_drop]
  rcases lt_or_ge i text.length with hlt | hge
  · rw [getElem?_eq_getElem hlt]
    exact isCharBoundary_of_getElem? (getElem?_eq_getElem hlt) hi
  · rw [getElem?_eq_none hge, isCharBoundary_of_length_le hge hi]
    exact beq_iff_eq.mpr (le_antisymm hle hge)

theorem readPairs_eq_readRest {text : Bytes} (n : Nat) :
    ∀ i, text.length = (i + n) * 2 → isCharBoundary text (i * 2) = true →
      readPairs text (List.range' i n) = readRest (text.drop (i * 2)) := by
  induction n with
  | zero =>
    intro i hlen _
    rw [drop_eq_nil_of_le (by omega)]
    rfl
  | succ n ih =>
    intro i hlen hat
    have hnext : (i + 1) * 2 = i * 2 + 2 := Nat.succ_mul i 2
    have hdrop : text.drop (i * 2) =
        text[i * 2] :: text[i * 2 + 1] :: text.drop (i * 2 + 2) := by
      rw [drop_eq_getElem_cons (by omega), drop_eq_getElem_cons (by omega)]
    have htake : (text.take (i * 2 + 2)).drop (i * 2) = [text[i * 2], text[i * 2 + 1]] := by
      rw [drop_take, hdrop, Nat.add_sub_cancel_left]
      rfl
    have hend := isCharBoundary_eq_head? text (i * 2 + 2) (by omega) (by omega)
    rw [range'_succ, readPairs, slice?, htake, hat, hend, hdrop, readRest]
    by_cases hcut : (text.drop (i * 2 + 2)).head?.all startsChar = true
    · rw [if_pos ⟨by omega, rfl, hcut⟩, if_pos hcut]
      have hrest := ih (i + 1) (by omega) (hnext ▸ hend.trans hcut)
      rw [hnext] at hrest
      dsimp only
      cases fromStrRadix [text[i * 2], text[i * 2 + 1]] with
      | none => rfl
      | some byte => exact congrArg (Option.map _) hrest
    · rw [if_neg (fun h => hcut h.2.2), if_neg hcut]

theorem spell_cons (p : UInt8 × UInt8) (pairs : List (UInt8 × UInt8)) :
    spell (p :: pairs) = p.1 :: p.2 :: spell pairs := rfl

theorem exists_spell (n : Nat) :
    ∀ text : Bytes, text.length = n * 2 → ∃ pairs, text = spell pairs := by
  induction n with
  | zero => exact fun _ h => ⟨[], eq_nil_of_length_eq_zero h⟩
  | succ n ih =>
    intro text h
    obtain ⟨a, text, rfl⟩ := exists_cons_of_length_pos (l := text) (by omega)
    rw [length_cons] at h
    obtain ⟨b, text, rfl⟩ := exists_cons_of_length_pos (l := text) (by omega)
    rw [length_cons] at h
    obtain ⟨pairs, rfl⟩ := ih text (by omega)
    exact ⟨(a, b) :: pairs, rfl⟩

theorem length_spell (pairs : List (UInt8 × UInt8)) : (spell pairs).length = pairs.length * 2 := by
  induction pairs with
  | nil => rfl
  | cons p pairs ih =>
    rw [spell_cons, length_cons, length_cons, length_cons, ih]
    omega

section rest

variable {pairs : List (UInt8 × UInt8)}

theorem head?_spell (h : ∀ p ∈ pairs, IsNumber p) : (spell pairs).head?.all startsChar = true := by
  cases pairs with
  | nil => rfl
  | cons p pairs => exact (h p mem_cons_self).startsChar

/-- A pair that is a number, with a cut after it, is read, and so is what follows. -/
theorem readRest_number {a b : UInt8} {rest : Bytes} (h : IsNumber (a, b))
    (hcut : rest.head?.all startsChar = true) :
    readRest (a :: b :: rest) =
      (readRest rest).map fun out => out.map fun bytes => pairValue (a, b) :: bytes := by
  rw [readRest, if_pos hcut, fromStrRadix_pair, if_pos h]

/-- Numbers to the end of the text are read. -/
theorem readRest_spell (h : ∀ p ∈ pairs, IsNumber p) :
    readRest (spell pairs) = some (some (pairs.map pairValue)) := by
  induction pairs with
  | nil => rfl
  | cons p pairs ih =>
    obtain ⟨hp, hpairs⟩ := forall_mem_cons.mp h
    rw [spell_cons, readRest_number hp (head?_spell hpairs), ih hpairs]
    rfl

/-- A pair that ends inside a character is a panic, after numbers. -/
theorem readRest_cut {a b c : UInt8} {rest : Bytes} (h : ∀ p ∈ pairs, IsNumber p)
    (hc : startsChar c = false) : readRest (spell pairs ++ a :: b :: c :: rest) = none := by
  induction pairs with
  | nil =>
    show readRest (a :: b :: c :: rest) = none
    rw [readRest, if_neg]
    simp [hc]
  | cons p pairs ih =>
    obtain ⟨hp, hpairs⟩ := forall_mem_cons.mp h
    rw [spell_cons, cons_append, cons_append]
    by_cases hcut : (spell pairs ++ a :: b :: c :: rest).head?.all startsChar = true
    · rw [readRest_number hp hcut, ih hpairs]
      rfl
    · rw [readRest, if_neg hcut]

/-- Either all pairs of a text are numbers, or after numbers a pair ends inside a character, or
the reader gives up. -/
theorem readRest_cases (pairs : List (UInt8 × UInt8)) :
    (∀ p ∈ pairs, IsNumber p) ∨
    (∃ lead a b c rest, (∀ p ∈ lead, IsNumber p) ∧ spell pairs = spell lead ++ a :: b :: c :: rest ∧
      startsChar c = false) ∨
    readRest (spell pairs) = some none := by
  induction pairs with
  | nil => exact .inl fun p hp => absurd hp not_mem_nil
  | cons p pairs ih =>
    rw [spell_cons]
    by_cases hcut : (spell pairs).head?.all startsChar = true
    · by_cases hp : IsNumber p
      · rcases ih with hall | ⟨lead, a, b, c, rest, hlead, heq, hc⟩ | hnone
        · exact .inl (forall_mem_cons.mpr ⟨hp, hall⟩)
        · have hlead' := forall_mem_cons.mpr ⟨hp, hlead⟩
          refine .inr (.inl ⟨p :: lead, a, b, c, rest, hlead', ?_, hc⟩)
          rw [heq]
          rfl
        · refine .inr (.inr ?_)
          rw [readRest_number hp hcut, hnone]
          rfl
      · refine .inr (.inr ?_)
        rw [readRest, if_pos hcut, fromStrRadix_pair, if_neg hp]
    · cases hs : spell pairs with
      | nil => exact absurd (by rw [hs]; rfl) hcut
      | cons c rest =>
        rw [hs] at hcut
        exact .inr (.inl ⟨[], p.1, p.2, c, rest, fun q hq => absurd hq not_mem_nil, rfl,
          Bool.eq_false_iff.mpr hcut⟩)

end rest

/-! ## Characters -/

theorem IsHexDigit.val_lt (h : IsHexDigit c) : c.val.toNat < 128 := by
  have hle : ∀ d : Char, c ≤ d → c.val.toNat ≤ d.val.toNat := fun _ h => h
  rcases h with ⟨-, h⟩ | ⟨-, h⟩ | ⟨-, h⟩
  · exact lt_of_le_of_lt (hle _ h) (by decide)
  · exact lt_of_le_of_lt (hle _ h) (by decide)
  · exact lt_of_le_of_lt (hle _ h) (by decide)

theorem ofNat_byte (h : c.val.toNat < 128) :
    Char.ofNat (UInt8.ofNat c.val.toNat).toNat = c := by
  rw [UInt8.toNat_ofNat', Nat.mod_eq_of_lt (by omega)]
  exact Char.ofNat_toNat c

theorem isSome_toDigit_byte (h : c.val.toNat < 128) :
    (toDigit (UInt8.ofNat c.val.toNat)).isSome ↔ IsHexDigit c := by
  rw [isSome_toDigit_iff, ofNat_byte h, UInt8.toNat_ofNat', Nat.mod_eq_of_lt (by omega)]
  exact and_iff_right h

/-- A text spells a band id when its bytes are thirty-two digits. -/
theorem isBandHex_iff :
    IsBandHex s ↔ (utf8 s).length = 32 ∧ ∀ b ∈ utf8 s, (toDigit b).isSome := by
  constructor
  · rintro ⟨hlen, hdigits⟩
    have hbytes := bytes_of_ascii fun c hc => (hdigits c hc).val_lt
    rw [utf8, hbytes, length_map]
    refine ⟨hlen, forall_mem_map.mpr fun c hc => ?_⟩
    exact (isSome_toDigit_byte (hdigits c hc).val_lt).mpr (hdigits c hc)
  · rintro ⟨hlen, hdigits⟩
    have hascii : ∀ c ∈ s.toList, c.val.toNat < 128 :=
      ascii_of_bytes fun b hb => ((isSome_toDigit_iff b).mp (hdigits b hb)).1
    rw [utf8, bytes_of_ascii hascii] at hlen hdigits
    refine ⟨by rwa [length_map] at hlen, fun c hc => ?_⟩
    exact (isSome_toDigit_byte (hascii c hc)).mp (forall_mem_map.mp hdigits c hc)

/-- The characters of a text of digits are its bytes. -/
theorem toList_of_isBandHex (h : IsBandHex s) :
    s.toList = (utf8 s).map fun b => Char.ofNat b.toNat := by
  rw [utf8, bytes_of_ascii fun c hc => (h.2 c hc).val_lt, map_map]
  conv => lhs; rw [← map_id s.toList]
  exact map_congr_left fun c hc => (ofNat_byte (h.2 c hc).val_lt).symm

/-- A pair of digits is written back as the two digits, in lower case. -/
theorem digitChars_pairValue {a b : UInt8} (ha : (toDigit a).isSome) (hb : (toDigit b).isSome) :
    [Nat.digitChar ((pairValue (a, b)).toNat / 16), Nat.digitChar ((pairValue (a, b)).toNat % 16)] =
      [(Char.ofNat a.toNat).toLower, (Char.ofNat b.toNat).toLower] := by
  obtain ⟨d, hd⟩ := Option.isSome_iff_exists.mp ha
  obtain ⟨e, he⟩ := Option.isSome_iff_exists.mp hb
  have hd16 := toDigit_lt a d hd
  have he16 := toDigit_lt b e he
  have hvalue : (pairValue (a, b)).toNat = d * 16 + e := by
    simp only [pairValue, hd, he, Option.getD_some]
    exact Nat.mod_eq_of_lt (by omega)
  have hhigh : (d * 16 + e) / 16 = d := by omega
  have hlow : (d * 16 + e) % 16 = e := by omega
  rw [hvalue, hhigh, hlow, digitChar_of_toDigit a d hd, digitChar_of_toDigit b e he]

theorem flatMap_digitChars (h : ∀ b ∈ spell pairs, (toDigit b).isSome) :
    ((pairs.map pairValue).flatMap fun byte =>
        [Nat.digitChar (byte.toNat / 16), Nat.digitChar (byte.toNat % 16)]) =
      (spell pairs).map fun b => (Char.ofNat b.toNat).toLower := by
  induction pairs with
  | nil => rfl
  | cons p pairs ih =>
    rw [spell_cons] at h ⊢
    obtain ⟨ha, h⟩ := forall_mem_cons.mp h
    obtain ⟨hb, h⟩ := forall_mem_cons.mp h
    rw [map_cons, flatMap_cons, ih h, digitChars_pairValue ha hb]
    rfl

theorem bandHex_eq_toLower {b : BandId}
    (hs : IsBandHex s) (hpairs : utf8 s = spell pairs) (hb : b.bytes = pairs.map pairValue) :
    bandHex b = s.toLower := by
  have hdigits := (isBandHex_iff.mp hs).2
  rw [hpairs] at hdigits
  have hlower : s.toLower = s.map Char.toLower := rfl
  apply String.toList_injective
  rw [bandHex, String.toList_ofList, hb, flatMap_digitChars hdigits, hlower,
    String.toList_map, toList_of_isBandHex hs, hpairs, map_map]
  rfl

/-! ## The whole text -/

theorem bandFromHex_of_length (h : (utf8 s).length = 32) :
    bandFromHex s = (readRest (utf8 s)).map fun out => out.bind BandId.ofBytes? := by
  rw [bandFromHex, if_neg (fun hne => hne h), range_eq_range',
    readPairs_eq_readRest bandIdLen 0 h (isCharBoundary_zero _)]
  rfl

/-- A text of numbers is read as a band id, that of the numbers. -/
theorem bandFromHex_of_numbers
    (hlen : (utf8 s).length = 32) (hs : utf8 s = spell pairs) (h : ∀ p ∈ pairs, IsNumber p) :
    ∃ b, bandFromHex s = some (some b) ∧ b.bytes = pairs.map pairValue := by
  have hcount : (pairs.map pairValue).length = bandIdLen := by
    rw [hs, length_spell] at hlen
    rw [length_map]
    exact Nat.eq_of_mul_eq_mul_right (by decide) hlen
  refine ⟨⟨_, hcount⟩, ?_, rfl⟩
  rw [bandFromHex_of_length hlen, hs, readRest_spell h]
  exact congrArg some (dif_pos hcount)

theorem not_isSome_plusSign : ¬ (toDigit plusSign).isSome := by decide

/-- A misread text is a panic, or a band id it does not spell. -/
theorem bandFromHex_of_misread (h : Misread (utf8 s)) :
    bandFromHex s = none ∨ (∃ b, bandFromHex s = some (some b)) ∧ ¬ IsBandHex s := by
  obtain ⟨hlen, pairs, hpairs, ⟨hs, p, hp, hplus⟩ | ⟨a, b, c, rest, hs, hc⟩⟩ := h
  · obtain ⟨b, hb, -⟩ := bandFromHex_of_numbers hlen hs hpairs
    refine .inr ⟨⟨b, hb⟩, fun hhex => not_isSome_plusSign ?_⟩
    rw [← hplus]
    refine (isBandHex_iff.mp hhex).2 _ ?_
    rw [hs, spell]
    exact mem_flatMap.mpr ⟨p, hp, mem_cons_self⟩
  · rw [bandFromHex_of_length hlen, hs, readRest_cut hpairs hc]
    exact .inl rfl

/-- A text that is not misread is read exactly. -/
theorem readExactly_of_not_misread (h : ¬ Misread (utf8 s)) : ReadExactly s := by
  by_cases hlen : (utf8 s).length = 32
  · obtain ⟨pairs, hs⟩ := exists_spell 16 _ hlen
    by_cases hhex : IsBandHex s
    · have hnumbers : ∀ p ∈ pairs, IsNumber p := by
        intro p hp
        have hdigits := (isBandHex_iff.mp hhex).2
        rw [hs] at hdigits
        have hmem : ∀ x ∈ [p.1, p.2], (toDigit x).isSome :=
          fun x hx => hdigits x (mem_flatMap.mpr ⟨p, hp, hx⟩)
        exact ⟨.inl (hmem _ mem_cons_self), hmem _ (mem_cons_of_mem _ mem_cons_self)⟩
      obtain ⟨b, hb, hbytes⟩ := bandFromHex_of_numbers hlen hs hnumbers
      refine ⟨some b, hb, iff_of_true rfl hhex, fun b' hb' => ?_⟩
      cases hb'
      exact bandHex_eq_toLower hhex hs hbytes
    · rcases readRest_cases pairs with hall | ⟨lead, a, b, c, rest, hlead, heq, hc⟩ | hnone
      · refine absurd ⟨hlen, pairs, hall, .inl ⟨hs, ?_⟩⟩ h
        by_contra hplus
        refine hhex (isBandHex_iff.mpr ⟨hlen, ?_⟩)
        rw [hs]
        intro x hx
        obtain ⟨p, hp, hx⟩ := mem_flatMap.mp hx
        have hdigit : (toDigit p.1).isSome :=
          (hall p hp).1.resolve_right fun he => hplus ⟨p, hp, he⟩
        rcases mem_pair.mp hx with rfl | rfl
        · exact hdigit
        · exact (hall p hp).2
      · exact absurd ⟨hlen, lead, hlead, .inr ⟨a, b, c, rest, hs.trans heq, hc⟩⟩ h
      · refine ⟨none, ?_, iff_of_false Bool.false_ne_true hhex, fun b hb => absurd hb (by simp)⟩
        rw [bandFromHex_of_length hlen, hs, hnone]
        rfl
  · refine ⟨none, ?_, ?_, fun b hb => absurd hb (by simp)⟩
    · exact if_pos hlen
    · exact iff_of_false Bool.false_ne_true fun hhex => hlen (isBandHex_iff.mp hhex).1

theorem readExactly_iff : ReadExactly s ↔ ¬ Misread (utf8 s) := by
  refine ⟨?_, readExactly_of_not_misread⟩
  rintro ⟨r, hr, hspelled, -⟩ hmis
  rcases bandFromHex_of_misread hmis with hpanic | ⟨⟨b, hb⟩, hnot⟩
  · exact absurd (hpanic.symm.trans hr) (by simp)
  · obtain rfl := Option.some.inj (hb.symm.trans hr)
    exact hnot (hspelled.mp rfl)

theorem routedExactly_iff {path : String} :
    RoutedExactly path ↔ ∀ hex, bandParam path = some hex → ¬ Misread (utf8 hex) := by
  cases hparam : bandParam path with
  | none =>
    have hparse : parseBand path = some none := by rw [parseBand, hparam]
    exact iff_of_true ⟨none, hparse, fun b hb => absurd hb (by simp)⟩
      fun hex hhex => absurd hhex (by simp)
  | some hex =>
    have hparse : parseBand path = bandFromHex hex := by rw [parseBand, hparam]
    constructor
    · rintro ⟨r, hr, hspelled⟩ hex' hhex' hmis
      cases hhex'
      rw [hparse] at hr
      rcases bandFromHex_of_misread hmis with hpanic | ⟨⟨b, hb⟩, hnot⟩
      · exact absurd (hpanic.symm.trans hr) (by simp)
      · obtain rfl := Option.some.inj (hb.symm.trans hr)
        obtain ⟨hex', hparam', hhex, -⟩ := hspelled b rfl
        obtain rfl := Option.some.inj (hparam.symm.trans hparam')
        exact hnot hhex
    · intro h
      obtain ⟨r, hr, hspelled, hlower⟩ := readExactly_of_not_misread (h hex rfl)
      refine ⟨r, hparse.trans hr, fun b hb => ⟨hex, hparam, hspelled.mp ?_, hlower b hb⟩⟩
      rw [hb]
      rfl

/-- Band ids are read exactly off every text that is not misread, and off every path whose band
parameter is not. -/
theorem band_from_hex_exact (s path : String) :
    (ReadExactly s ↔ ¬ Misread (utf8 s)) ∧
      (RoutedExactly path ↔ ∀ hex, bandParam path = some hex → ¬ Misread (utf8 hex)) :=
  ⟨readExactly_iff, routedExactly_iff⟩

/-- Sixteen times a plus sign and a digit is read as the band of sixteen fifteens, in a path too,
and a two-byte character across an even offset is a panic. -/
theorem band_from_hex_misread :
    (bandFromHex "+f+f+f+f+f+f+f+f+f+f+f+f+f+f+f+f" = some (some ⟨List.replicate 16 15, rfl⟩) ∧
      ¬ ReadExactly "+f+f+f+f+f+f+f+f+f+f+f+f+f+f+f+f") ∧
    (parseBand "/telesthete?band=+f+f+f+f+f+f+f+f+f+f+f+f+f+f+f+f" =
        some (some ⟨List.replicate 16 15, rfl⟩) ∧
      ¬ RoutedExactly "/telesthete?band=+f+f+f+f+f+f+f+f+f+f+f+f+f+f+f+f") ∧
    bandFromHex "0é00000000000000000000000000000" = none ∧
    parseBand "/telesthete?band=0é00000000000000000000000000000" = none := by
  have hread : bandFromHex "+f+f+f+f+f+f+f+f+f+f+f+f+f+f+f+f" =
      some (some ⟨List.replicate 16 15, rfl⟩) := by decide +kernel
  have hparse : parseBand "/telesthete?band=+f+f+f+f+f+f+f+f+f+f+f+f+f+f+f+f" =
      some (some ⟨List.replicate 16 15, rfl⟩) := by decide +kernel
  have hparam : bandParam "/telesthete?band=+f+f+f+f+f+f+f+f+f+f+f+f+f+f+f+f" =
      some "+f+f+f+f+f+f+f+f+f+f+f+f+f+f+f+f" := by decide +kernel
  have hnot : ¬ IsBandHex "+f+f+f+f+f+f+f+f+f+f+f+f+f+f+f+f" := by
    rintro ⟨-, hdigits⟩
    exact absurd (hdigits '+' (by decide +kernel)) (by decide)
  refine ⟨⟨hread, ?_⟩, ⟨hparse, ?_⟩, by decide +kernel, by decide +kernel⟩
  · rintro ⟨r, hr, hspelled, -⟩
    obtain rfl := Option.some.inj (hread.symm.trans hr)
    exact hnot (hspelled.mp rfl)
  · rintro ⟨r, hr, hspelled⟩
    obtain rfl := Option.some.inj (hparse.symm.trans hr)
    obtain ⟨hex, hhex, hdigits, -⟩ := hspelled _ rfl
    obtain rfl := Option.some.inj (hparam.symm.trans hhex)
    exact hnot hdigits

end Telesthete.Relay
