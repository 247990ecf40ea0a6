import Mathlib
import Telesthete.Lib.Utf8
import Telesthete.Wire.Crypto

/-!
# The map of a Board

A Board is a map that every member of a band holds a copy of (SPEC §7). An
entry carries the timestamp of the write it comes from, a Lamport clock and the
writer's hostname, and the greater timestamp wins. A local write takes the next
clock and overwrites; `mergeEntry` is what arrives from elsewhere.

The JSON values stay abstract: `V` are those that are not `null`.
-/

namespace Telesthete.Board

open Telesthete.Lib Telesthete.Crypto Option

variable {V : Type}

/-- `[lamport, actor]`: the clock, then the writer as a tiebreak. -/
structure Ts where
  lamport : UInt64
  actor : String
deriving DecidableEq, Repr

namespace Ts

/-- Timestamps are compared as pairs, and strings byte by byte. -/
instance : LinearOrder Ts :=
  LinearOrder.lift' (fun ts => toLex (ts.lamport.toNat, byteValues ts.actor)) (by
    intro s t h
    obtain ⟨hl, ha⟩ := Prod.mk.inj (toLex.injective h)
    exact congrArg₂ Ts.mk (UInt64.toNat_inj.mp hl) (byteValues_inj ha))

theorem le_iff {s t : Ts} : s ≤ t ↔
    s.lamport.toNat < t.lamport.toNat ∨
      s.lamport.toNat = t.lamport.toNat ∧ byteValues s.actor ≤ byteValues t.actor :=
  Prod.Lex.toLex_le_toLex

theorem lt_of_lamport_lt {s t : Ts} (h : s.lamport.toNat < t.lamport.toNat) : s < t :=
  lt_of_not_ge fun hle => by
    rcases le_iff.mp hle with hlt | ⟨heq, -⟩ <;> omega

theorem lamport_le {s t : Ts} (h : s ≤ t) : s.lamport.toNat ≤ t.lamport.toNat := by
  rcases le_iff.mp h with hlt | ⟨heq, -⟩ <;> omega

end Ts

/-- A SET (§7.2), also what a SNAPSHOT is made of. -/
structure SetPayload (V : Type) where
  key : String
  /-- `none` is JSON `null`. -/
  value : Option V
  ts : Ts
  deleted : Bool
deriving DecidableEq, Repr

structure BoardEntry (V : Type) where
  value : Option V
  lamport : UInt64
  actor : String
  deleted : Bool
deriving DecidableEq, Repr

namespace BoardEntry

def ts (e : BoardEntry V) : Ts := ⟨e.lamport, e.actor⟩

def toPayload (e : BoardEntry V) (key : String) : SetPayload V := ⟨key, e.value, e.ts, e.deleted⟩

theorem toPayload_inj {e e' : BoardEntry V} {key key' : String}
    (h : e.toPayload key = e'.toPayload key') : key = key' ∧ e = e' := by
  obtain ⟨v, l, a, d⟩ := e
  obtain ⟨v', l', a', d'⟩ := e'
  simp only [toPayload, ts, SetPayload.mk.injEq, Ts.mk.injEq] at h
  obtain ⟨hkey, hv, ⟨hl, ha⟩, hd⟩ := h
  exact ⟨hkey, by rw [hv, hl, ha, hd]⟩

end BoardEntry

def SetPayload.entry (p : SetPayload V) : BoardEntry V :=
  ⟨p.value, p.ts.lamport, p.ts.actor, p.deleted⟩

/-- The order of the keys of a `BTreeMap<String, _>`: byte by byte. -/
def strCmp : String → String → Ordering := compareOn byteValues

instance : Std.TransCmp strCmp := inferInstanceAs (Std.TransCmp (compareOn byteValues))

instance : Std.LawfulEqCmp strCmp where
  eq_of_compare h := byteValues_inj (Std.LawfulEqCmp.eq_of_compare h)

structure BoardCore (V : Type) where
  actor : String
  entries : Std.ExtTreeMap String (BoardEntry V) strCmp
  lamport : UInt64

/-- `lamport += 1`. A build with overflow checks stops with a panic at the
greatest clock; a release build wraps around. -/
def increment (checks : Bool) (lamport : UInt64) : Option UInt64 :=
  if checks = true ∧ lamport.toNat = 2 ^ 64 - 1 then none else some (lamport + 1)

theorem increment_of_lt (checks : Bool) {lamport : UInt64} (h : lamport.toNat < 2 ^ 64 - 1) :
    ∃ next, increment checks lamport = some next ∧ next.toNat = lamport.toNat + 1 := by
  refine ⟨lamport + 1, if_neg fun hmax => by omega, ?_⟩
  rw [UInt64.toNat_add, UInt64.toNat_one]
  omega

/-- With overflow checks there is a next clock, or no result. -/
theorem increment_true {lamport next : UInt64} (h : increment true lamport = some next) :
    next.toNat = lamport.toNat + 1 := by
  obtain ⟨hmax, hnext⟩ := ite_none_left_eq_some.mp h
  have hne : lamport.toNat ≠ 2 ^ 64 - 1 := fun heq => hmax ⟨rfl, heq⟩
  have hlt : lamport.toNat < 2 ^ 64 := lamport.toNat_lt
  cases hnext
  rw [UInt64.toNat_add, UInt64.toNat_one]
  omega

namespace BoardCore

variable {checks : Bool} {b b' : BoardCore V} {p : SetPayload V} {key : String}

def new (actor : String) : BoardCore V := ⟨actor, ∅, 0⟩

/-- A local write: the next clock, and whatever was there is overwritten. The
SET to broadcast comes with it. -/
def write (checks : Bool) (b : BoardCore V) (key : String) (value : Option V) (deleted : Bool) :
    Option (BoardCore V × SetPayload V) :=
  (increment checks b.lamport).map fun lamport =>
    let entry : BoardEntry V := ⟨value, lamport, b.actor, deleted⟩
    ({ b with lamport := lamport, entries := b.entries.insert key entry }, entry.toPayload key)

def set (checks : Bool) (b : BoardCore V) (key : String) (value : Option V) :
    Option (BoardCore V × SetPayload V) :=
  b.write checks key value false

/-- A tombstone, so that the delete propagates. -/
def delete (checks : Bool) (b : BoardCore V) (key : String) :
    Option (BoardCore V × SetPayload V) :=
  b.write checks key none true

/-- The merge rule (§7.3); whether it changed anything. -/
def mergeEntry (b : BoardCore V) (p : SetPayload V) : BoardCore V × Bool :=
  let b := { b with lamport := max b.lamport p.ts.lamport }
  if b.entries[p.key]?.any (p.ts ≤ ·.ts) then (b, false)
  else ({ b with entries := b.entries.insert p.key p.entry }, true)

/-- All entries, tombstones included, sorted by key. -/
def snapshot (b : BoardCore V) : List (SetPayload V) :=
  b.entries.toList.map fun e => e.2.toPayload e.1

/-- A SNAPSHOT arrives: its entries are merged one by one. -/
def mergeSnapshot (b : BoardCore V) (entries : List (SetPayload V)) : BoardCore V :=
  entries.foldl (fun b p => (b.mergeEntry p).1) b

/-- What the digest reads of an entry: `key || lamport_be8 || actor || deleted_byte`. -/
def digestBytes (key : String) (e : BoardEntry V) : Bytes :=
  utf8 key ++ toBe 8 e.lamport.toNat ++ utf8 e.actor ++ [if e.deleted then 1 else 0]

def hexDigit (n : Nat) : Char :=
  if n < 10 then Char.ofNat ('0'.toNat + n) else Char.ofNat ('a'.toNat + (n - 10))

def toHex (bytes : Bytes) : String :=
  String.ofList (bytes.flatMap fun b => [hexDigit (b.toNat / 16), hexDigit (b.toNat % 16)])

/-- The number of entries, and the hash of what is read of them in key order. -/
def digest (sha256 : Bytes → Bytes) (b : BoardCore V) : Nat × String :=
  (b.entries.size, toHex (sha256 (b.entries.toList.flatMap fun e => digestBytes e.1 e.2)))

/-! ### What is held for a key -/

/-- The entry of a key, as the SET it came from. -/
def held (b : BoardCore V) (key : String) : Option (SetPayload V) :=
  b.entries[key]?.map (·.toPayload key)

theorem key_of_held (h : b.held key = some p) : p.key = key := by
  obtain ⟨e, -, rfl⟩ := map_eq_some_iff.mp h
  rfl

theorem held_new (actor : String) : (new actor : BoardCore V).held key = none := by
  simp [held, new]

theorem entries_eq_of_held (h : ∀ key, b.held key = b'.held key) : b.entries = b'.entries := by
  refine Std.ExtTreeMap.ext_getElem? fun key => ?_
  exact Option.map_injective (fun e e' he => (BoardEntry.toPayload_inj he).2) (h key)

theorem mem_snapshot : p ∈ b.snapshot ↔ b.held p.key = some p := by
  constructor
  · intro h
    obtain ⟨⟨key, e⟩, he, rfl⟩ := List.mem_map.mp h
    have hget : b.entries[key]? = some e := Std.ExtTreeMap.mem_toList_iff_getElem?_eq_some.mp he
    show b.entries[key]?.map (·.toPayload key) = some (e.toPayload key)
    rw [hget]
    rfl
  · intro h
    obtain ⟨e, he, hp⟩ := map_eq_some_iff.mp h
    exact List.mem_map.mpr
      ⟨(p.key, e), Std.ExtTreeMap.mem_toList_iff_getElem?_eq_some.mpr he, hp⟩

/-- What a local write does. -/
theorem write_eq_some {value : Option V} {deleted : Bool}
    (h : b.write checks key value deleted = some (b', p)) :
    increment checks b.lamport = some b'.lamport ∧ b'.actor = b.actor ∧
      p = ⟨key, value, ⟨b'.lamport, b.actor⟩, deleted⟩ ∧
      ∀ k, b'.held k = if k = key then some p else b.held k := by
  obtain ⟨lamport, hl, heq⟩ := map_eq_some_iff.mp h
  obtain ⟨rfl, rfl⟩ := Prod.mk.inj heq
  refine ⟨hl, rfl, rfl, fun k => ?_⟩
  simp only [held, Std.ExtTreeMap.getElem?_insert, Std.LawfulEqCmp.compare_eq_iff_eq]
  split
  · next hk =>
    rw [if_pos hk.symm, ← hk]
    rfl
  · next hk => rw [if_neg fun hk' => hk hk'.symm]

/-- Below the greatest clock, a write takes the next one. -/
theorem lamport_of_write {value : Option V} {deleted : Bool} (hlt : b.lamport.toNat < 2 ^ 64 - 1)
    (h : b.write checks key value deleted = some (b', p)) :
    b'.lamport.toNat = b.lamport.toNat + 1 := by
  obtain ⟨hnext, -⟩ := write_eq_some h
  obtain ⟨next, hnext', htoNat⟩ := increment_of_lt checks hlt
  rw [Option.some.inj (hnext.symm.trans hnext'), htoNat]

/-- A write below the greatest clock completes. -/
theorem write_of_lt (checks : Bool) (key : String) (value : Option V) (deleted : Bool)
    (h : b.lamport.toNat < 2 ^ 64 - 1) :
    ∃ b' p, b.write checks key value deleted = some (b', p) ∧
      p.ts.lamport.toNat = b.lamport.toNat + 1 := by
  obtain ⟨next, hnext, htoNat⟩ := increment_of_lt checks h
  exact ⟨_, _, by rw [write, hnext, Option.map_some], htoNat⟩

theorem mergeEntry_actor : (b.mergeEntry p).1.actor = b.actor := by
  unfold mergeEntry
  dsimp only
  split <;> rfl

theorem mergeEntry_lamport : (b.mergeEntry p).1.lamport = max b.lamport p.ts.lamport := by
  unfold mergeEntry
  dsimp only
  split <;> rfl

theorem mergeSnapshot_actor_lamport (entries : List (SetPayload V)) :
    ∀ b : BoardCore V, (b.mergeSnapshot entries).actor = b.actor ∧
      b.lamport.toNat ≤ (b.mergeSnapshot entries).lamport.toNat := by
  induction entries with
  | nil => exact fun b => ⟨rfl, le_refl _⟩
  | cons p entries ih =>
    intro b
    obtain ⟨hactor, hclock⟩ := ih (b.mergeEntry p).1
    rw [mergeEntry_actor] at hactor
    rw [mergeEntry_lamport, UInt64.toNat_max] at hclock
    exact ⟨hactor, le_trans (le_max_left _ _) hclock⟩

/-- An entry is replaced by a strictly newer one only. -/
theorem mergeEntry_cases (b : BoardCore V) (p : SetPayload V) :
    ((b.mergeEntry p).2 = false ∧ (∃ q, b.held p.key = some q ∧ p.ts ≤ q.ts) ∧
        ∀ k, (b.mergeEntry p).1.held k = b.held k) ∨
      ((b.mergeEntry p).2 = true ∧ (∀ q, b.held p.key = some q → q.ts < p.ts) ∧
        ∀ k, (b.mergeEntry p).1.held k = if k = p.key then some p else b.held k) := by
  unfold mergeEntry
  dsimp only
  split
  · next hany =>
    obtain ⟨e, he, hle⟩ := (Option.any_eq_true _ _).mp hany
    exact .inl ⟨rfl, ⟨e.toPayload p.key, by rw [held, he]; rfl, of_decide_eq_true hle⟩,
      fun k => rfl⟩
  · next hany =>
    refine .inr ⟨rfl, fun q hq => ?_, fun k => ?_⟩
    · obtain ⟨e, he, rfl⟩ := map_eq_some_iff.mp hq
      refine lt_of_not_ge fun hle => hany ?_
      exact (Option.any_eq_true _ _).mpr ⟨e, he, decide_eq_true hle⟩
    · simp only [held, Std.ExtTreeMap.getElem?_insert, Std.LawfulEqCmp.compare_eq_iff_eq]
      split
      · next hk =>
        rw [if_pos hk.symm, ← hk]
        rfl
      · next hk => rw [if_neg fun hk' => hk hk'.symm]

end BoardCore

end Telesthete.Board
