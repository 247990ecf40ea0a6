import Telesthete.Proofs.BandHex
import Telesthete.Spatial.Psk

/-!
# The texts of a key are read back

A key can be written in hexadecimal digits of either case, and in base64 with
its padding or without and with line breaks anywhere. All these texts are read
as the key. For base64 the reason is that each byte given out is made of the
last two symbols alone: what older symbols left in the accumulator is shifted
past the byte, or out of the thirty-two bits.
-/

namespace Telesthete.Spatial

open Telesthete.Lib Telesthete.Crypto Telesthete.Relay List

variable {bytes : Bytes} {text : String} {v : Nat}

/-- Two digits for every byte, in lower case. -/
def hexForm (bytes : Bytes) : String :=
  String.ofList (bytes.flatMap fun b =>
    [Nat.digitChar (b.toNat / 16), Nat.digitChar (b.toNat % 16)])

/-- Three bytes as four numbers of six bits; bytes left over are filled up with zero bits. -/
def sextets : Bytes → List Nat
  | a :: b :: c :: rest =>
    a.toNat / 4 :: (a.toNat % 4 * 16 + b.toNat / 16) :: (b.toNat % 16 * 4 + c.toNat / 64) ::
      c.toNat % 64 :: sextets rest
  | [a, b] => [a.toNat / 4, a.toNat % 4 * 16 + b.toNat / 16, b.toNat % 16 * 4]
  | [a] => [a.toNat / 4, a.toNat % 4 * 16]
  | [] => []

def symbol (v : Nat) : Char := base64Alphabet.toList.getD v 'A'

/-- What the text has besides line breaks. -/
def withoutBreaks (text : String) : List Char := text.toList.filter fun c => c ≠ '\n' ∧ c ≠ '\r'

/-- Base64 of the bytes, with the padding or without. -/
def IsBase64 (bytes : Bytes) (text : String) : Prop :=
  withoutBreaks text = (sextets bytes).map symbol ∨
    withoutBreaks text =
      (sextets bytes).map symbol ++ List.replicate ((3 - bytes.length % 3) % 3) '='

instance instDecidableIsBase64 (bytes : Bytes) (text : String) : Decidable (IsBase64 bytes text) :=
  inferInstanceAs (Decidable (_ ∨ _))

/-! ## The accumulator -/

namespace Base64Decoder

theorem toNat_shiftIn (acc : UInt32) (hv : v < 64) :
    (shiftIn acc (.ofNat v)).toNat = acc.toNat % 2 ^ 26 * 64 + v := by
  have hshift : acc.toNat <<< 6 % 2 ^ 32 = (acc.toNat % 2 ^ 26) <<< 6 := by
    rw [Nat.shiftLeft_eq, Nat.shiftLeft_eq]
    omega
  have hsmall : (UInt8.ofNat v).toNat = v := by
    rw [UInt8.toNat_ofNat']
    omega
  rw [shiftIn, UInt32.toNat_or, UInt32.toNat_shiftLeft, UInt8.toNat_toUInt32, hsmall]
  calc acc.toNat <<< 6 % 2 ^ 32 ||| v = (acc.toNat % 2 ^ 26) <<< 6 ||| v := by rw [hshift]
    _ = (acc.toNat % 2 ^ 26) <<< 6 + v := (Nat.shiftLeft_add_eq_or_of_lt hv _).symm
    _ = acc.toNat % 2 ^ 26 * 64 + v := by rw [Nat.shiftLeft_eq]

section push

variable {u n : Nat} {b : UInt8} {out : Bytes} {acc : UInt32}

theorem push_first : push ⟨out, acc, 0⟩ (.ofNat v) = ⟨out, shiftIn acc (.ofNat v), 6⟩ := rfl

/-- A byte that is given out is cut from the last two symbols. -/
theorem push_next (hu : u < 64) (hv : v < 64) (hn : n ≤ 4)
    (hb : (u * 64 + v) / 2 ^ n % 256 = b.toNat) :
    push ⟨out, shiftIn acc (.ofNat u), n + 2⟩ (.ofNat v) =
      ⟨out ++ [b], shiftIn (shiftIn acc (.ofNat u)) (.ofNat v), n⟩ := by
  have hmod : (UInt32.ofNat n).toNat % 32 = n := by
    rw [UInt32.toNat_ofNat']
    omega
  have hbyte : (shiftIn (shiftIn acc (.ofNat u)) (.ofNat v) >>> UInt32.ofNat n).toUInt8 = b := by
    apply UInt8.toNat_inj.mp
    rw [UInt32.toNat_toUInt8, UInt32.toNat_shiftRight, hmod, Nat.shiftRight_eq_div_pow,
      toNat_shiftIn _ hv, toNat_shiftIn _ hu, ← hb]
    obtain rfl | rfl | rfl | rfl | rfl : n = 0 ∨ n = 1 ∨ n = 2 ∨ n = 3 ∨ n = 4 := by omega
    all_goals omega
  have hbits : n + 2 + 6 - 8 = n := by omega
  simp only [push, hbits, hbyte, if_pos (show 8 ≤ n + 2 + 6 by omega)]

/-- The symbols of a byte string, for a decoder that has no bits left over. -/
theorem out_foldl_push (bytes : Bytes) : ∀ (out : Bytes) (acc : UInt32),
    (((sextets bytes).map UInt8.ofNat).foldl push ⟨out, acc, 0⟩).out = out ++ bytes := by
  induction bytes using sextets.induct with
  | case1 a b c rest ih =>
    intro out acc
    have ha := a.toNat_lt
    have hb := b.toNat_lt
    have hc := c.toNat_lt
    simp only [sextets, map_cons, foldl_cons]
    rw [push_first, push_next (b := a), push_next (b := b), push_next (b := c), ih]
    · simp
    all_goals omega
  | case2 a b =>
    intro out acc
    have ha := a.toNat_lt
    have hb := b.toNat_lt
    simp only [sextets, map_cons, foldl_cons]
    rw [push_first, push_next (b := a), push_next (b := b)]
    · simp
    all_goals omega
  | case3 a =>
    intro out acc
    have ha := a.toNat_lt
    simp only [sextets, map_cons, foldl_cons]
    rw [push_first, push_next (b := a)]
    · rfl
    all_goals omega
  | case4 => exact fun out acc => (append_nil out).symm

end push

end Base64Decoder

/-! ## Base64 -/

/-- The byte of an ASCII character. -/
def byteOf (c : Char) : UInt8 := UInt8.ofNat c.val.toNat

theorem symbol_spec : ∀ v < 64, (symbol v).val.toNat < 128 ∧ isWhitespace (symbol v) = false ∧
    Base64Decoder.isSkipped (byteOf (symbol v)) = false ∧
    rev.getD (byteOf (symbol v)).toNat 255 = UInt8.ofNat v ∧ UInt8.ofNat v ≠ 255 := by
  decide +kernel

theorem sextets_lt (bytes : Bytes) : ∀ v ∈ sextets bytes, v < 64 := by
  induction bytes using sextets.induct with
  | case1 a b c rest ih =>
    have ha := a.toNat_lt
    have hb := b.toNat_lt
    have hc := c.toNat_lt
    simp only [sextets, forall_mem_cons]
    exact ⟨by omega, by omega, by omega, by omega, ih⟩
  | case2 a b =>
    have ha := a.toNat_lt
    have hb := b.toNat_lt
    simp only [sextets, forall_mem_cons]
    exact ⟨by omega, by omega, by omega, fun _ h => absurd h not_mem_nil⟩
  | case3 a =>
    have ha := a.toNat_lt
    simp only [sextets, forall_mem_cons]
    exact ⟨by omega, by omega, fun _ h => absurd h not_mem_nil⟩
  | case4 => exact fun _ h => absurd h not_mem_nil

open Base64Decoder in
theorem foldlM_step_filter (d : Base64Decoder) (bytes : Bytes) :
    bytes.foldlM step d = (bytes.filter fun c => !isSkipped c).foldlM step d := by
  induction bytes generalizing d with
  | nil => rfl
  | cons c bytes ih =>
    by_cases hskip : isSkipped c = true
    · have hstep : step d c = .ok d := if_pos hskip
      rw [filter_cons_of_neg (by simp [hskip]), foldlM_cons, hstep]
      exact ih d
    · rw [filter_cons_of_pos (by simp [hskip]), foldlM_cons, foldlM_cons]
      exact congrArg _ (funext ih)

open Base64Decoder in
theorem foldlM_step_symbols {vs : List Nat} (h : ∀ v ∈ vs, v < 64) (d : Base64Decoder) :
    (vs.map fun v => byteOf (symbol v)).foldlM step d =
      .ok ((vs.map UInt8.ofNat).foldl push d) := by
  induction vs generalizing d with
  | nil => rfl
  | cons v vs ih =>
    obtain ⟨hv, hvs⟩ := forall_mem_cons.mp h
    obtain ⟨-, -, hskip, hrev, hne⟩ := symbol_spec v hv
    have hstep : step d (byteOf (symbol v)) = .ok (d.push (.ofNat v)) := by
      rw [step, hskip, hrev, if_neg Bool.false_ne_true, if_neg hne]
    rw [map_cons, foldlM_cons, hstep]
    exact ih hvs _

namespace IsBase64

/-- A character of the text is a symbol, padding or a line break. -/
theorem mem (h : IsBase64 bytes text) {c : Char} (hc : c ∈ text.toList) :
    (∃ v < 64, c = symbol v) ∨ c = '=' ∨ c = '\n' ∨ c = '\r' := by
  by_cases hbreak : c ≠ '\n' ∧ c ≠ '\r'
  · have hkept : c ∈ withoutBreaks text := mem_filter.mpr ⟨hc, decide_eq_true hbreak⟩
    have hsymbol : c ∈ (sextets bytes).map symbol → ∃ v < 64, c = symbol v := fun hmem => by
      obtain ⟨v, hv, rfl⟩ := mem_map.mp hmem
      exact ⟨v, sextets_lt bytes v hv, rfl⟩
    rcases h with h | h <;> rw [h] at hkept
    · exact .inl (hsymbol hkept)
    · rcases mem_append.mp hkept with hmem | hpad
      · exact .inl (hsymbol hmem)
      · exact .inr (.inl (eq_of_mem_replicate hpad))
  · tauto

theorem ascii (h : IsBase64 bytes text) : ∀ c ∈ text.toList, c.val.toNat < 128 := by
  intro c hc
  rcases h.mem hc with ⟨v, hv, rfl⟩ | rfl | rfl | rfl
  · exact (symbol_spec v hv).1
  all_goals decide

/-- Without padding and line breaks there are the symbols. -/
theorem filter_utf8 (h : IsBase64 bytes text) :
    ((utf8 text).filter fun c => !Base64Decoder.isSkipped c) =
      (sextets bytes).map fun v => byteOf (symbol v) := by
  let kept (c : Char) : Bool := !Base64Decoder.isSkipped (byteOf c)
  have hbreaks : text.toList.filter kept = (withoutBreaks text).filter kept := by
    rw [withoutBreaks, filter_filter]
    refine filter_congr fun c _ => ?_
    by_cases hbreak : c ≠ '\n' ∧ c ≠ '\r'
    · rw [decide_eq_true hbreak, Bool.and_true]
    · have hskip : kept c = false := by
        obtain rfl | rfl : c = '\n' ∨ c = '\r' := by tauto
        all_goals rfl
      rw [hskip, Bool.false_and]
  have hsymbols : ((sextets bytes).map symbol).filter kept = (sextets bytes).map symbol := by
    refine filter_eq_self.mpr (forall_mem_map.mpr fun v hv => ?_)
    exact congrArg not (symbol_spec v (sextets_lt bytes v hv)).2.2.1
  have hpad : ∀ n, (List.replicate n '=').filter kept = [] :=
    fun n => filter_eq_nil_iff.mpr fun c hc => by rw [eq_of_mem_replicate hc]; decide
  have hkept : text.toList.filter kept = (sextets bytes).map symbol := by
    rw [hbreaks]
    rcases h with h | h <;> rw [h]
    · exact hsymbols
    · rw [filter_append, hsymbols, hpad, append_nil]
  rw [utf8, bytes_of_ascii h.ascii, filter_map]
  exact (congrArg (List.map byteOf) hkept).trans map_map

theorem b64Decode_eq (h : IsBase64 bytes text) : b64Decode text = .ok bytes := by
  rw [b64Decode, foldlM_step_filter, h.filter_utf8, foldlM_step_symbols (sextets_lt bytes)]
  exact congrArg Except.ok (Base64Decoder.out_foldl_push bytes [] 0)

end IsBase64

theorem filter_dropWhile {α : Type*} {p q : α → Bool} {l : List α}
    (h : ∀ a ∈ l, p a = true → q a = false) : (l.dropWhile p).filter q = l.filter q := by
  have hnil : (l.takeWhile p).filter q = [] := by
    refine filter_eq_nil_iff.mpr fun a ha => ?_
    rw [h a ((List.takeWhile_prefix p).subset ha) (mem_takeWhile_imp ha)]
    exact Bool.false_ne_true
  conv => rhs; rw [← takeWhile_append_dropWhile (p := p) (l := l)]
  rw [filter_append, hnil, nil_append]

/-- Only line breaks are trimmed off. -/
theorem IsBase64.trim (h : IsBase64 bytes text) : IsBase64 bytes (trim text) := by
  have hspace : ∀ c ∈ text.toList, isWhitespace c = true →
      decide (c ≠ '\n' ∧ c ≠ '\r') = false := by
    intro c hc hwhite
    rcases h.mem hc with ⟨v, hv, rfl⟩ | rfl | rfl | rfl
    · exact absurd ((symbol_spec v hv).2.1.symm.trans hwhite) Bool.false_ne_true
    · exact absurd hwhite (by decide)
    all_goals rfl
  have hkept : withoutBreaks (Spatial.trim text) = withoutBreaks text := by
    rw [withoutBreaks, Spatial.trim, String.toList_ofList, List.rdropWhile, filter_reverse,
      filter_dropWhile, filter_reverse, reverse_reverse]
    · exact filter_dropWhile hspace
    · intro c hc
      exact hspace c ((dropWhile_suffix _).subset (mem_reverse.mp hc))
  rw [IsBase64, hkept]
  exact h

/-! ## Hexadecimal -/

/-- A digit of the form in either case is read as that digit, is not trimmed and is no letter of
`base64:` beyond the second. -/
theorem hexDigit_spec {c : Char} {d : Nat} (hd : d < 16) (h : c.toLower = Nat.digitChar d) :
    c.val.toNat < 128 ∧ toDigit (byteOf c) = some d ∧ isWhitespace c = false ∧ c ≠ 's' := by
  have hlt : c.val.toNat < 128 := by
    by_cases hupper : c.val ≥ 'A'.val ∧ c.val ≤ 'Z'.val
    · exact lt_of_le_of_lt hupper.2 (by decide)
    · have hlower : c.toLower = c := dif_neg hupper
      have hdigit : ∀ d < 16, (Nat.digitChar d).val.toNat < 128 := by decide
      rw [← hlower, h]
      exact hdigit d hd
  have hall : ∀ b : UInt8, ∀ d < 16, (Char.ofNat b.toNat).toLower = Nat.digitChar d →
      toDigit b = some d ∧ isWhitespace (Char.ofNat b.toNat) = false ∧ Char.ofNat b.toNat ≠ 's' :=
    forall_byte (by decide +kernel)
  have hbyte := hall (byteOf c) d hd
  rw [byteOf, ofNat_byte hlt] at hbyte
  exact ⟨hlt, hbyte h⟩

/-- The characters of a byte string's form are pairs that are read as its bytes. -/
theorem exists_pairs : ∀ {cs : List Char}, cs.map Char.toLower = (hexForm bytes).toList →
    (∀ c ∈ cs, c.val.toNat < 128 ∧ isWhitespace c = false ∧ c ≠ 's') ∧
    ∃ pairs, cs.map byteOf = spell pairs ∧ (∀ p ∈ pairs, IsNumber p) ∧
      pairs.map pairValue = bytes := by
  simp only [hexForm, String.toList_ofList]
  induction bytes with
  | nil =>
    intro cs h
    obtain rfl := map_eq_nil_iff.mp h
    exact ⟨fun _ h => absurd h not_mem_nil, [], rfl, fun _ h => absurd h not_mem_nil, rfl⟩
  | cons b bytes ih =>
    intro cs h
    obtain ⟨c₁, cs, rfl, h₁, h⟩ := map_eq_cons_iff.mp h
    obtain ⟨c₂, cs, rfl, h₂, h⟩ := map_eq_cons_iff.mp h
    have hb := b.toNat_lt
    obtain ⟨hlt₁, hdigit₁, hrest₁⟩ := hexDigit_spec (by omega) h₁
    obtain ⟨hlt₂, hdigit₂, hrest₂⟩ := hexDigit_spec (by omega) h₂
    obtain ⟨hchars, pairs, hspell, hnumbers, hvalues⟩ := ih h
    refine ⟨forall_mem_cons.mpr ⟨⟨hlt₁, hrest₁⟩, forall_mem_cons.mpr
      ⟨⟨hlt₂, hrest₂⟩, hchars⟩⟩, (byteOf c₁, byteOf c₂) :: pairs, ?_, ?_, ?_⟩
    · rw [spell_cons, map_cons, map_cons, hspell]
    · have hnumber : IsNumber (byteOf c₁, byteOf c₂) :=
        ⟨.inl (by rw [hdigit₁]; rfl), by rw [hdigit₂]; rfl⟩
      exact forall_mem_cons.mpr ⟨hnumber, hnumbers⟩
    · have hvalue : pairValue (byteOf c₁, byteOf c₂) = b := by
        rw [pairValue, hdigit₁, hdigit₂, Option.getD_some, Option.getD_some, Nat.div_add_mod',
          UInt8.ofNat_toNat]
      rw [map_cons, hvalue, hvalues]

theorem trim_eq_self (h : ∀ c ∈ text.toList, isWhitespace c = false) : trim text = text := by
  have hnot : ∀ c ∈ text.toList, ¬ isWhitespace c = true := fun c hc => by rw [h c hc]; decide
  have hdrop : text.toList.dropWhile isWhitespace = text.toList :=
    dropWhile_eq_self_iff.mpr fun _ => hnot _ (getElem_mem _)
  have hrdrop : text.toList.rdropWhile isWhitespace = text.toList :=
    rdropWhile_eq_self_iff.mpr fun _ => hnot _ (getLast_mem _)
  rw [trim, hdrop, hrdrop, String.ofList_toList]

theorem hexDecode_eq (h : text.toLower = hexForm bytes) : hexDecode text = some (.ok bytes) := by
  have hlower : text.toLower.toList = text.toList.map Char.toLower := String.toList_map
  obtain ⟨hchars, pairs, hspell, hnumbers, hvalues⟩ :=
    exists_pairs (hlower.symm.trans (congrArg String.toList h))
  have htext : utf8 (trim text) = spell pairs := by
    rw [trim_eq_self fun c hc => (hchars c hc).2.1, ← hspell]
    exact bytes_of_ascii fun c hc => (hchars c hc).1
  have hlen := length_spell pairs
  have hhalf : (spell pairs).length / 2 = pairs.length := by omega
  have hread := readPairs_eq_readRest pairs.length 0 (by omega) (isCharBoundary_zero (spell pairs))
  rw [← range_eq_range', Nat.zero_mul, drop_zero, readRest_spell hnumbers, hvalues]
    at hread
  simp only [hexDecode, htext, hhalf, hread, if_neg (show ¬ (spell pairs).length % 2 ≠ 0 by omega)]
  rfl

/-! ## Keys -/

theorem Psk.ofBytes_bytes (k : Psk) : Psk.ofBytes k.bytes = .ok k := dif_pos k.length_bytes

theorem parse_hexForm {k : Psk} (h : text.toLower = hexForm k.bytes) :
    parse text = some (.ok k) := by
  have hlower : text.toLower.toList = text.toList.map Char.toLower := String.toList_map
  have hchars := (exists_pairs (hlower.symm.trans (congrArg String.toList h))).1
  have hprefix : "base64:".toList.isPrefixOf? text.toList = none := by
    refine Option.eq_none_iff_forall_ne_some.mpr fun rest hrest => ?_
    have happend := isPrefixOf?_eq_some_iff_append_eq.mp hrest
    exact (hchars 's' (happend ▸ mem_append_left _ (by decide +kernel))).2.2 rfl
  rw [parse, hprefix, Option.elim_none, hexDecode_eq h]
  exact congrArg some k.ofBytes_bytes

theorem parse_base64 {k : Psk} (h : IsBase64 k.bytes text) :
    parse ("base64:" ++ text) = some (.ok k) := by
  have hprefix : "base64:".toList.isPrefixOf? ("base64:" ++ text).toList = some text.toList :=
    isPrefixOf?_eq_some_iff_append_eq.mpr (String.toList_append).symm
  rw [parse, hprefix, Option.elim_some, String.ofList_toList, h.trim.b64Decode_eq]
  exact congrArg some k.ofBytes_bytes

/-- Every text of a key is read as the key, and base64 of any byte string as that string. -/
theorem psk_texts_exact :
    (∀ (k : Psk) (text : String), text.toLower = hexForm k.bytes → parse text = some (.ok k)) ∧
    (∀ (k : Psk) (text : String), IsBase64 k.bytes text →
      parse ("base64:" ++ text) = some (.ok k)) ∧
    ∀ (bytes : Bytes) (text : String), IsBase64 bytes text → b64Decode text = .ok bytes :=
  ⟨fun _ _ => parse_hexForm, fun _ _ => parse_base64, fun _ _ => IsBase64.b64Decode_eq⟩

/-- Thirty-two times the byte `0xfb`, in digits of both cases and in base64 without padding and with
line breaks, and two bytes in padded base64. -/
theorem psk_texts_exact_fb :
    parse "fBFbfbfbfbfbfbfbfbfbfbfbfbfbfbfbfbfbfbfbfbfbfbfbfbfbfbfbfbfbfbFB" =
      some (.ok ⟨List.replicate 32 0xfb, rfl⟩) ∧
    parse "base64:+/v7+/v7+/v7+/v7+/v7+/v7\r\n+/v7+/v7+/v7+/v7+/s\n" =
      some (.ok ⟨List.replicate 32 0xfb, rfl⟩) ∧
    b64Decode "+/s=" = .ok [0xfb, 0xfb] :=
  ⟨psk_texts_exact.1 _ _ (by decide +kernel), psk_texts_exact.2.1 ⟨List.replicate 32 0xfb, rfl⟩
    "+/v7+/v7+/v7+/v7+/v7+/v7\r\n+/v7+/v7+/v7+/v7+/s\n" (by decide +kernel),
    psk_texts_exact.2.2 _ _ (by decide +kernel)⟩

end Telesthete.Spatial
