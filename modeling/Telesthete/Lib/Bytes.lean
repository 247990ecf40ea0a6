import Mathlib.Algebra.Order.Ring.Nat
import Mathlib.Tactic.Ring

/-!
# Integers in a byte string

Almost every header of the wire formats is a run of fixed-width big-endian
fields, so the codecs all reduce to one pair of functions: `toBe w n` writes
the low `w` bytes of `n`, most significant first, and `ofBe` reads any byte
string back as a number. Writing truncates and reading does not, hence the
one round-trip law the codecs need, `ofBe_toBe`: what comes back is the number
modulo `256 ^ w`, the number itself when the field is wide enough. The other
way round nothing is lost, `toBe_ofBe`. The little-endian pair, `toLe` and
`ofLe`, is the same bytes in reverse.
-/

namespace Telesthete.Lib

open List

variable {w n : Nat} {bs : Bytes}

/-- A byte string. -/
abbrev Bytes := List UInt8

/-- The `w` low bytes of `n`, most significant first. -/
def toBe : Nat → Nat → Bytes
  | 0, _ => []
  | w + 1, n => UInt8.ofNat (n / 256 ^ w) :: toBe w n

/-- A byte string read as one big-endian number. -/
def ofBe : Bytes → Nat
  | [] => 0
  | b :: bs => b.toNat * 256 ^ bs.length + ofBe bs

@[simp] theorem length_toBe (w n : Nat) : (toBe w n).length = w := by
  induction w with
  | zero => rfl
  | succ w ih => simp [toBe, ih]

theorem ofBe_toBe_mod (w n : Nat) : ofBe (toBe w n) = n % 256 ^ w := by
  induction w with
  | zero => simp [toBe, ofBe, Nat.mod_one]
  | succ w ih =>
    have hdigit : (UInt8.ofNat (n / 256 ^ w)).toNat = n / 256 ^ w % 256 := by
      simp
    rw [toBe, ofBe, ih, length_toBe, hdigit, Nat.pow_succ, Nat.mod_mul]
    ring

theorem ofBe_toBe (h : n < 256 ^ w) : ofBe (toBe w n) = n := by
  rw [ofBe_toBe_mod, Nat.mod_eq_of_lt h]

theorem ofBe_lt (bs : Bytes) : ofBe bs < 256 ^ bs.length := by
  induction bs with
  | nil => exact Nat.one_pos
  | cons b bs ih =>
    have hb : b.toNat + 1 ≤ 256 := b.toNat_lt
    calc b.toNat * 256 ^ bs.length + ofBe bs
        < b.toNat * 256 ^ bs.length + 256 ^ bs.length := Nat.add_lt_add_left ih _
      _ = (b.toNat + 1) * 256 ^ bs.length := (Nat.succ_mul _ _).symm
      _ ≤ 256 * 256 ^ bs.length := Nat.mul_le_mul_right _ hb
      _ = 256 ^ (bs.length + 1) := (Nat.pow_succ').symm

theorem ofBe_inj {bs cs : Bytes} (hlen : bs.length = cs.length) (h : ofBe bs = ofBe cs) :
    bs = cs := by
  induction bs generalizing cs with
  | nil => exact (eq_nil_of_length_eq_zero hlen.symm).symm
  | cons b bs ih =>
    obtain ⟨c, cs, rfl⟩ := exists_cons_of_length_pos (l := cs) (by simp [← hlen])
    have htail : bs.length = cs.length := Nat.succ.inj hlen
    have hpos : 0 < 256 ^ cs.length := Nat.pow_pos (by decide)
    simp only [ofBe, htail] at h
    have hdiv := congrArg (· / 256 ^ cs.length) h
    have hmod := congrArg (· % 256 ^ cs.length) h
    have hbs := htail ▸ ofBe_lt bs
    simp only [Nat.mul_add_div hpos, Nat.mul_comm _ (256 ^ cs.length), Nat.mul_add_mod,
      Nat.div_eq_of_lt hbs, Nat.div_eq_of_lt (ofBe_lt cs), Nat.mod_eq_of_lt hbs,
      Nat.mod_eq_of_lt (ofBe_lt cs), Nat.add_zero] at hdiv hmod
    rw [UInt8.toNat_inj.mp hdiv, ih htail hmod]

/-- Reading loses nothing: the bytes are written back. -/
theorem toBe_ofBe (h : bs.length = w) : toBe w (ofBe bs) = bs := by
  subst h
  exact ofBe_inj (length_toBe _ _) (ofBe_toBe (ofBe_lt bs))

/-- The `w` low bytes of `n`, least significant first. -/
def toLe (w n : Nat) : Bytes := (toBe w n).reverse

/-- A byte string read as one little-endian number. -/
def ofLe (bs : Bytes) : Nat := ofBe bs.reverse

@[simp] theorem length_toLe (w n : Nat) : (toLe w n).length = w := by
  rw [toLe, length_reverse, length_toBe]

theorem ofLe_toLe (h : n < 256 ^ w) : ofLe (toLe w n) = n := by
  rw [ofLe, toLe, reverse_reverse, ofBe_toBe h]

theorem ofLe_lt (bs : Bytes) : ofLe bs < 256 ^ bs.length := by
  rw [← length_reverse]
  exact ofBe_lt bs.reverse

theorem toLe_ofLe (h : bs.length = w) : toLe w (ofLe bs) = bs := by
  rw [toLe, ofLe, toBe_ofBe (by rwa [length_reverse]), reverse_reverse]

/-- The bytes from `lo` up to `hi`. -/
def slice (bs : Bytes) (lo hi : Nat) : Bytes := (bs.take hi).drop lo

theorem slice_append {a b c : Bytes} {lo hi : Nat} (ha : a.length = lo) (hb : lo + b.length = hi) :
    slice (a ++ (b ++ c)) lo hi = b := by
  have hlen : (a ++ b).length = hi := by rw [length_append, ha, hb]
  rw [slice, ← append_assoc, take_left' hlen, drop_left' ha]

theorem take_drop_two {data : Bytes} {i : Nat} (h : i + 2 ≤ data.length) :
    (data.take (i + 2)).drop i = [data.getD i 0, data.getD (i + 1) 0] := by
  have hfirst : data.getD i 0 = data[i] := by
    rw [getD_eq_getElem?_getD, getElem?_eq_getElem (by omega), Option.getD_some]
  have hsecond : data.getD (i + 1) 0 = data[i + 1] := by
    rw [getD_eq_getElem?_getD, getElem?_eq_getElem (by omega), Option.getD_some]
  rw [hfirst, hsecond, drop_take, drop_eq_getElem_cons (by omega),
    drop_eq_getElem_cons (by omega), Nat.add_sub_cancel_left]
  rfl

/-! Fields of the machine's widths. -/

theorem toBe_uint32 (h : bs.length = 4) :
    toBe 4 (UInt32.ofNat (ofBe bs)).toNat = bs := by
  have hlt : ofBe bs < 2 ^ 32 := by simpa [h] using ofBe_lt bs
  rw [UInt32.toNat_ofNat', Nat.mod_eq_of_lt hlt, toBe_ofBe h]

theorem toBe_uint16 (h : bs.length = 2) :
    toBe 2 (UInt16.ofNat (ofBe bs)).toNat = bs := by
  have hlt : ofBe bs < 2 ^ 16 := by simpa [h] using ofBe_lt bs
  rw [UInt16.toNat_ofNat', Nat.mod_eq_of_lt hlt, toBe_ofBe h]

theorem toLe_uint32 (h : bs.length = 4) :
    toLe 4 (UInt32.ofNat (ofLe bs)).toNat = bs := by
  have hlt : ofLe bs < 2 ^ 32 := by simpa [h] using ofLe_lt bs
  rw [UInt32.toNat_ofNat', Nat.mod_eq_of_lt hlt, toLe_ofLe h]

theorem toBe_uint64 (h : bs.length = 8) :
    toBe 8 (UInt64.ofNat (ofBe bs)).toNat = bs := by
  have hlt : ofBe bs < 2 ^ 64 := by simpa [h] using ofBe_lt bs
  rw [UInt64.toNat_ofNat', Nat.mod_eq_of_lt hlt, toBe_ofBe h]

theorem ofBe_uint16 (x : UInt16) : UInt16.ofNat (ofBe (toBe 2 x.toNat)) = x := by
  rw [ofBe_toBe x.toNat_lt, UInt16.ofNat_toNat]

theorem ofBe_uint32 (x : UInt32) : UInt32.ofNat (ofBe (toBe 4 x.toNat)) = x := by
  rw [ofBe_toBe x.toNat_lt, UInt32.ofNat_toNat]

theorem ofLe_uint32 (x : UInt32) : UInt32.ofNat (ofLe (toLe 4 x.toNat)) = x := by
  rw [ofLe_toLe x.toNat_lt, UInt32.ofNat_toNat]

theorem ofBe_uint64 (x : UInt64) : UInt64.ofNat (ofBe (toBe 8 x.toNat)) = x := by
  rw [ofBe_toBe x.toNat_lt, UInt64.ofNat_toNat]

theorem exists_append (bs : Bytes) (n : Nat) (h : n ≤ bs.length) :
    ∃ a r : Bytes, a.length = n ∧ bs = a ++ r :=
  ⟨bs.take n, bs.drop n, by rw [length_take, Nat.min_eq_left h],
    (take_append_drop n bs).symm⟩

theorem getD_append {a b : Bytes} (h : a.length = n) (i : Nat) :
    (a ++ b).getD (n + i) 0 = b.getD i 0 := by
  subst h
  rw [getD_eq_getElem?_getD, getElem?_append_right (Nat.le_add_right _ _),
    Nat.add_sub_cancel_left, ← getD_eq_getElem?_getD]

/-- A property of bytes can be checked on the numbers below 256. -/
theorem forall_byte {P : UInt8 → Prop} (h : ∀ v < 256, P (UInt8.ofNat v)) (b : UInt8) : P b := by
  have hb := h b.toNat b.toNat_lt
  rwa [UInt8.ofNat_toNat] at hb

end Telesthete.Lib
