import Telesthete.Board.Core

/-!
# What the digest of a Board tells

The digest hashes keys, clocks, actors and flags written one after another in
key order. Clocks and flags have a fixed width; keys and actors do not, and
nothing marks where they end. So two boards have the same digest not only when
they hold the same versions: it is also enough that their entries spell the
same bytes and are cut at different places (`digest_collides`). Where the cuts
are the same the bytes determine the versions. They also do where no key has a
zero byte, no clock needs more than seven bytes and no actor has a byte that
could be a flag: then every key ends at the first zero byte after its start,
and every actor at the first byte that is zero or one.
-/

namespace Telesthete.Board

open Telesthete.Lib Telesthete.Crypto List

variable {V : Type} {b b' : BoardCore V}

/-- What the digest is to tell apart: a key, and the version held for it. -/
@[ext]
structure Version where
  key : String
  lamport : UInt64
  actor : String
  deleted : Bool
deriving DecidableEq

namespace Version

def bytes (v : Version) : Bytes :=
  utf8 v.key ++ toBe 8 v.lamport.toNat ++ utf8 v.actor ++ [if v.deleted then 1 else 0]

/-- How long the key and the actor are. -/
def cut (v : Version) : Nat × Nat := ((utf8 v.key).length, (utf8 v.actor).length)

/-- Up to the cut, the bytes determine the version. -/
theorem eq_of_append_eq {v v' : Version} {rest rest' : Bytes} (hcut : v.cut = v'.cut)
    (h : v.bytes ++ rest = v'.bytes ++ rest') : v = v' ∧ rest = rest' := by
  obtain ⟨hkey, hactor⟩ := Prod.mk.inj hcut
  have hlen : v.bytes.length = v'.bytes.length := by
    simp only [bytes, length_append, length_toBe, length_singleton, hkey, hactor]
  obtain ⟨hbytes, hrest⟩ := append_inj h hlen
  refine ⟨?_, hrest⟩
  obtain ⟨hfields, hflag⟩ := append_inj' hbytes rfl
  obtain ⟨hfields, ha⟩ := append_inj' hfields hactor
  obtain ⟨hk, hl⟩ := append_inj hfields hkey
  have hlamport : v.lamport.toNat = v'.lamport.toNat := by
    have hbe := congrArg ofBe hl
    rwa [ofBe_toBe (v.lamport.toNat_lt), ofBe_toBe (v'.lamport.toNat_lt)] at hbe
  have hdeleted : v.deleted = v'.deleted := by
    cases hd : v.deleted <;> cases hd' : v'.deleted <;> simp [hd, hd'] at hflag ⊢
  exact Version.ext (utf8_inj hk) (UInt64.toNat_inj.mp hlamport) (utf8_inj ha) hdeleted

theorem eq_of_cuts_eq {l l' : List Version} (hcuts : l.map cut = l'.map cut)
    (htext : l.flatMap bytes = l'.flatMap bytes) : l = l' := by
  induction l generalizing l' with
  | nil =>
    cases l' with
    | nil => rfl
    | cons v' l' => cases hcuts
  | cons v l ih =>
    cases l' with
    | nil => cases hcuts
    | cons v' l' =>
      obtain ⟨hcut, hcuts⟩ := List.cons.inj hcuts
      rw [flatMap_cons, flatMap_cons] at htext
      obtain ⟨hv, htext⟩ := eq_of_append_eq hcut htext
      rw [hv, ih hcuts htext]

/-- Two texts, each followed by a byte that the other does not have, end at the same place. -/
theorem append_cons_inj {x x' t t' : Bytes} {a a' : UInt8} (ha : a ∉ x') (ha' : a' ∉ x)
    (h : x ++ a :: t = x' ++ a' :: t') : x = x' ∧ t = t' := by
  rcases append_eq_append_iff.mp h with ⟨_ | ⟨y, c⟩, hx, ht⟩ | ⟨_ | ⟨y, c⟩, hx, ht⟩
  · exact ⟨by rw [hx, append_nil], (List.cons.inj ht).2⟩
  · exact absurd (by rw [hx, (List.cons.inj ht).1]; exact mem_append_right _ mem_cons_self) ha
  · exact ⟨by rw [hx, append_nil], (List.cons.inj ht).2.symm⟩
  · exact absurd (by rw [hx, (List.cons.inj ht).1]; exact mem_append_right _ mem_cons_self) ha'

/-- A version whose bytes tell where its key and its actor end. -/
structure Plain (v : Version) : Prop where
  key : 0 ∉ utf8 v.key
  lamport : v.lamport.toNat < 2 ^ 56
  actor : ∀ b ∈ utf8 v.actor, b ≠ 0 ∧ b ≠ 1

/-- The cuts are where the bytes say. -/
theorem Plain.cut_eq {v v' : Version} {rest rest' : Bytes} (hv : v.Plain) (hv' : v'.Plain)
    (h : v.bytes ++ rest = v'.bytes ++ rest') : v.cut = v'.cut := by
  have hclock : ∀ w : Version, w.Plain →
      toBe 8 w.lamport.toNat = 0 :: toBe 7 w.lamport.toNat := by
    intro w hw
    rw [toBe, Nat.div_eq_of_lt (by simpa using hw.lamport)]
    rfl
  have hflag : ∀ w w' : Version, w.Plain → (if w'.deleted then 1 else 0) ∉ utf8 w.actor := by
    intro w w' hw hmem
    obtain ⟨hzero, hone⟩ := hw.actor _ hmem
    cases hd : w'.deleted <;> simp [hd] at hzero hone
  simp only [bytes, append_assoc, hclock v hv, hclock v' hv', cons_append, nil_append] at h
  -- the key ends at the first zero byte, and seven bytes later the actor begins
  obtain ⟨hkey, hafter⟩ := append_cons_inj hv'.key hv.key h
  obtain ⟨-, hafter⟩ := append_inj hafter (by rw [length_toBe, length_toBe])
  obtain ⟨hactor, -⟩ := append_cons_inj (hflag v' v hv') (hflag v v' hv) hafter
  rw [cut, cut, hkey, hactor]

theorem eq_of_plain {l l' : List Version} (hl : ∀ v ∈ l, v.Plain) (hl' : ∀ v ∈ l', v.Plain)
    (htext : l.flatMap bytes = l'.flatMap bytes) : l = l' := by
  have hne : ∀ (v : Version) (l : List Version), (v :: l).flatMap bytes ≠ [] := by
    intro v l
    simp [bytes]
  induction l generalizing l' with
  | nil =>
    cases l' with
    | nil => rfl
    | cons v' l' => exact absurd htext.symm (hne v' l')
  | cons v l ih =>
    cases l' with
    | nil => exact absurd htext (hne v l)
    | cons v' l' =>
      obtain ⟨hv, hl⟩ := forall_mem_cons.mp hl
      obtain ⟨hv', hl'⟩ := forall_mem_cons.mp hl'
      rw [flatMap_cons, flatMap_cons] at htext
      obtain ⟨heq, htext⟩ := eq_of_append_eq (hv.cut_eq hv' htext) htext
      rw [heq, ih hl hl' htext]

end Version

def BoardEntry.version (e : BoardEntry V) (key : String) : Version :=
  ⟨key, e.lamport, e.actor, e.deleted⟩

namespace BoardCore

/-- The versions held, in key order. -/
def versions (b : BoardCore V) : List Version :=
  b.entries.toList.map fun e => e.2.version e.1

/-- The bytes that the digest hashes. -/
def text (b : BoardCore V) : Bytes := b.versions.flatMap Version.bytes

/-- The same keys with the same clocks, actors and flags. -/
def SameVersions (b b' : BoardCore V) : Prop :=
  ∀ key : String, b.entries[key]?.map (·.version key) = b'.entries[key]?.map (·.version key)

/-- No key or actor, and no clock, can be taken for more than it is. -/
def Plain (b : BoardCore V) : Prop := ∀ v ∈ b.versions, v.Plain

theorem digest_eq_text (sha256 : Bytes → Bytes) :
    b.digest sha256 = (b.entries.size, toHex (sha256 b.text)) := by
  rw [digest, text, versions, flatMap_map]
  rfl

theorem sameVersions_iff : SameVersions b b' ↔ b.versions = b'.versions := by
  have hlist : ∀ b : BoardCore V, b.versions =
      (b.entries.map fun key e => e.version key).toList.map (·.2) := by
    intro b
    rw [Std.ExtTreeMap.toList_map, map_map]
    rfl
  constructor
  · intro h
    have hmap : (b.entries.map fun key e => e.version key) =
        b'.entries.map fun key e => e.version key := by
      refine Std.ExtTreeMap.ext_getElem? fun key => ?_
      rw [Std.ExtTreeMap.getElem?_map, Std.ExtTreeMap.getElem?_map]
      exact h key
    rw [hlist, hlist, hmap]
  · intro h key
    -- a version is held for its key only
    have hmem : ∀ (b : BoardCore V) (v : Version),
        b.entries[key]?.map (·.version key) = some v ↔ v ∈ b.versions ∧ v.key = key := by
      intro b v
      constructor
      · intro hv
        obtain ⟨e, he, rfl⟩ := Option.map_eq_some_iff.mp hv
        exact ⟨mem_map.mpr
          ⟨(key, e), Std.ExtTreeMap.mem_toList_iff_getElem?_eq_some.mpr he, rfl⟩, rfl⟩
      · rintro ⟨hv, hkey⟩
        obtain ⟨⟨k, e⟩, he, rfl⟩ := mem_map.mp hv
        have hk : k = key := hkey
        rw [hk] at he
        rw [Std.ExtTreeMap.mem_toList_iff_getElem?_eq_some.mp he, hk]
        rfl
    refine Option.ext fun v => ?_
    rw [hmem, hmem, h]

theorem hexDigit_inj : ∀ n < 16, ∀ m < 16, hexDigit n = hexDigit m → n = m := by
  decide

theorem toHex_inj {bs bs' : Bytes} (h : toHex bs = toHex bs') : bs = bs' := by
  have hchars := String.ofList_injective h
  clear h
  induction bs generalizing bs' with
  | nil =>
    cases bs' with
    | nil => rfl
    | cons x bs' => cases hchars
  | cons x bs ih =>
    cases bs' with
    | nil => cases hchars
    | cons y bs' =>
      simp only [flatMap_cons, cons_append, nil_append, List.cons.injEq]
        at hchars
      obtain ⟨hhigh, hlow, hrest⟩ := hchars
      have hx : x.toNat < 256 := x.toNat_lt
      have hy : y.toNat < 256 := y.toNat_lt
      have hdiv := hexDigit_inj (x.toNat / 16) (by omega) (y.toNat / 16) (by omega) hhigh
      have hmod := hexDigit_inj (x.toNat % 16) (by omega) (y.toNat % 16) (by omega) hlow
      have hxy : x = y := UInt8.toNat_inj.mp (by omega)
      rw [hxy, ih hrest]

end BoardCore

/-- Two boards that are plain, or whose keys and actors have the same lengths in key order, have the
same digest exactly if they hold the same versions. -/
theorem digest_eq_iff_sameVersions {sha256 : Bytes → Bytes}
    (hsha : Function.Injective sha256) (b b' : BoardCore V)
    (hentries : b.Plain ∧ b'.Plain ∨ b.versions.map Version.cut = b'.versions.map Version.cut) :
    b.digest sha256 = b'.digest sha256 ↔ b.SameVersions b' := by
  rw [BoardCore.sameVersions_iff, BoardCore.digest_eq_text, BoardCore.digest_eq_text]
  constructor
  · intro hdigest
    have htext : b.text = b'.text := hsha (BoardCore.toHex_inj (Prod.mk.inj hdigest).2)
    rcases hentries with ⟨hb, hb'⟩ | hcuts
    · exact Version.eq_of_plain hb hb' htext
    · exact Version.eq_of_cuts_eq hcuts htext
  · intro h
    have hsize : ∀ b : BoardCore V, b.entries.size = b.versions.length := by
      intro b
      rw [BoardCore.versions, length_map, Std.ExtTreeMap.length_toList]
    rw [hsize, hsize, BoardCore.text, BoardCore.text, h]

/-- A board with one entry. -/
def boardOf (key : String) (lamport : UInt64) (actor : String) : BoardCore Nat :=
  ((BoardCore.new "eve").mergeEntry ⟨key, some 1, ⟨lamport, actor⟩, false⟩).1

/-- The same letters and the same clock, cut at different places: the boards are plain, and told
apart. -/
theorem digest_eq_iff_sameVersions_letters :
    (boardOf "k" 1 "ab").digest id ≠ (boardOf "ka" 1 "b").digest id := by
  have hplain : (boardOf "k" 1 "ab").Plain ∧ (boardOf "ka" 1 "b").Plain := by
    constructor <;> rintro v hv
    · have h : (boardOf "k" 1 "ab").versions = [⟨"k", 1, "ab", false⟩] := by decide +kernel
      rw [h, mem_singleton] at hv
      subst hv
      exact ⟨by decide +kernel, by decide, by decide +kernel⟩
    · have h : (boardOf "ka" 1 "b").versions = [⟨"ka", 1, "b", false⟩] := by decide +kernel
      rw [h, mem_singleton] at hv
      subst hv
      exact ⟨by decide +kernel, by decide, by decide +kernel⟩
  have hversions : ¬ (boardOf "k" 1 "ab").SameVersions (boardOf "ka" 1 "b") := by
    rw [BoardCore.sameVersions_iff]
    decide +kernel
  intro hdigest
  exact hversions
    ((digest_eq_iff_sameVersions Function.injective_id _ _ (.inl hplain)).mp hdigest)

/-- The zero byte that ends the second key is the first byte of the first clock,
and the last byte of the second clock is the first letter of the first actor. -/
theorem digest_collides :
    (∀ sha256, (boardOf "k" 1 "ab").digest sha256 = (boardOf "k\x00" 353 "b").digest sha256) ∧
      ¬ (boardOf "k" 1 "ab").SameVersions (boardOf "k\x00" 353 "b") := by
  constructor
  · intro sha256
    have htext : (boardOf "k" 1 "ab").text = (boardOf "k\x00" 353 "b").text := by decide +kernel
    have hsize : (boardOf "k" 1 "ab").entries.size = (boardOf "k\x00" 353 "b").entries.size := by
      decide +kernel
    rw [BoardCore.digest_eq_text, BoardCore.digest_eq_text, htext, hsize]
  · rw [BoardCore.sameVersions_iff]
    decide +kernel

end Telesthete.Board
