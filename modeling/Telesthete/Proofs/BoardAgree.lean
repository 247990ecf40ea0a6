import Telesthete.Python.Board

/-!
# The two Boards are one

A Rust and a Python Board that start with the same actor and see the same local
writes and the same SETs stay the same (`Same`): one step of either is one step
of both. They differ in what orders their strings. Rust compares bytes, where an
actor breaks a tie and in the order of the keys of the map; Python compares code
points, in the tuples and in `sorted`. UTF-8 keeps the order, so the same SETs
win and the same bytes are hashed.

Python's clock is not bounded. While it stays in the range of the wire, no
addition of the other one overflows.
-/

namespace Telesthete.Board

open Telesthete.Lib Telesthete.Crypto

variable {V : Type} {checks : Bool} {r : BoardCore V} {b : Python.Board V}

/-! ## The same events for both -/

/-- An event, and whether it changed anything if it is a merge. -/
def BoardCore.apply (checks : Bool) (r : BoardCore V) :
    Endpoint.Event V → Option (BoardCore V × List Bool)
  | .set key value => (r.set checks key value).map fun w => (w.1, [])
  | .delete key => (r.delete checks key).map fun w => (w.1, [])
  | .merge p => some ((r.mergeEntry p).1, [(r.mergeEntry p).2])

def BoardCore.run (checks : Bool) (r : BoardCore V) :
    List (Endpoint.Event V) → Option (BoardCore V × List Bool)
  | [] => some (r, [])
  | e :: events =>
    (r.apply checks e).bind fun s => (s.1.run checks events).map fun t => (t.1, s.2 ++ t.2)

/-- The SET as Python decodes it. -/
def SetPayload.toPython (p : SetPayload V) : Python.Board.Payload V :=
  ⟨p.key, p.value, (p.ts.lamport.toNat, p.ts.actor), p.deleted⟩

end Telesthete.Board

namespace Telesthete.Python.Board

open Telesthete.Board (Endpoint.Event)

variable {V : Type} {b : Board V}

def next (b : Board V) : Endpoint.Event V → Board V
  | .set key value => (b.set key value).1
  | .delete key => (b.delete key).1
  | .merge p => (b.mergeEntry p.toPython).1

/-- Whether an event changed anything, if it is a merge. -/
def changed (b : Board V) : Endpoint.Event V → List Bool
  | .merge p => [(b.mergeEntry p.toPython).2]
  | _ => []

def run (b : Board V) (events : List (Endpoint.Event V)) : Board V := events.foldl next b

def changes (b : Board V) : List (Endpoint.Event V) → List Bool
  | [] => []
  | e :: events => b.changed e ++ (b.next e).changes events

theorem mergeEntry_lamport (p : Payload V) : b.lamport ≤ (b.mergeEntry p).1.lamport := by
  unfold mergeEntry
  split
  · exact Int.le_refl _
  · dsimp only
    split
    · exact Int.le_max_left _ _
    · exact Int.le_max_left _ _

theorem next_lamport (e : Endpoint.Event V) : b.lamport ≤ (b.next e).lamport := by
  cases e with
  | set key value =>
    show b.lamport ≤ b.lamport + 1
    omega
  | delete key =>
    show b.lamport ≤ b.lamport + 1
    omega
  | merge p =>
    rw [next]
    exact mergeEntry_lamport p.toPython

/-- The clock never goes back. -/
theorem run_lamport (events : List (Endpoint.Event V)) :
    ∀ b : Board V, b.lamport ≤ (b.run events).lamport := by
  induction events with
  | nil => exact fun b => Int.le_refl _
  | cons e events ih => exact fun b => Int.le_trans (next_lamport e) (ih (b.next e))

end Telesthete.Python.Board

namespace Telesthete.Board

open Telesthete.Lib Telesthete.Crypto

variable {V : Type} {checks : Bool} {r : BoardCore V} {b : Python.Board V}

def BoardEntry.toPython (e : BoardEntry V) : Python.BoardEntry V :=
  ⟨e.value, e.lamport.toNat, e.actor, e.deleted⟩

/-- The two hold the same entries and the same clock. -/
structure Same (r : BoardCore V) (b : Python.Board V) : Prop where
  actor : b.actor = r.actor
  lamport : b.lamport = r.lamport.toNat
  entries : ∀ key, b.entries.get? key = r.entries[key]?.map BoardEntry.toPython

theorem same_new (actor : String) :
    Same (BoardCore.new actor : BoardCore V) (Python.Board.new actor) where
  actor := rfl
  lamport := rfl
  entries key := by
    rw [BoardCore.new, Std.ExtTreeMap.getElem?_empty]
    rfl

theorem inRange_toNat (lamport : UInt64) : Python.inRange lamport.toNat = true :=
  decide_eq_true lamport.toNat_lt

theorem tsLe_iff (s t : Ts) :
    Python.tsLe (s.lamport.toNat, s.actor) (t.lamport.toNat, t.actor) = decide (s ≤ t) := by
  rw [Bool.eq_iff_iff, decide_eq_true_iff, Ts.le_iff, byteValues_le_iff]
  simp [Python.tsLe]

namespace Same

/-- Both put the same entry under the same key. -/
theorem put (h : Same r b) {clock : UInt64} (key : String) (e : BoardEntry V) :
    Same { r with lamport := clock, entries := r.entries.insert key e }
      { b with lamport := clock.toNat, entries := b.entries.set key e.toPython } where
  actor := h.actor
  lamport := rfl
  entries k := by
    simp only [Dict.get?_set, Std.ExtTreeMap.getElem?_insert, Std.LawfulEqCmp.compare_eq_iff_eq,
      h.entries k]
    by_cases hk : k = key
    · rw [if_pos hk, if_pos hk.symm]
      rfl
    · rw [if_neg hk, if_neg fun heq => hk heq.symm]

theorem write (h : Same r b) (key : String) (value : Option V) (deleted : Bool)
    (hclock : (b.write key value deleted).1.lamport < 2 ^ 64) :
    ∃ w, r.write checks key value deleted = some w ∧
      Same w.1 (b.write key value deleted).1 := by
  have hlt : r.lamport.toNat < 2 ^ 64 - 1 := by
    have hnext : b.lamport + 1 < 2 ^ 64 := hclock
    rw [h.lamport] at hnext
    omega
  obtain ⟨next, hnext, hvalue⟩ := increment_of_lt checks hlt
  refine ⟨_, by rw [BoardCore.write, hnext, Option.map_some], ?_⟩
  have hlamport : b.lamport + 1 = (next.toNat : Int) := by
    rw [h.lamport, hvalue]
    rfl
  have hentry : (⟨value, b.lamport + 1, b.actor, deleted⟩ : Python.BoardEntry V) =
      BoardEntry.toPython ⟨value, next, r.actor, deleted⟩ := by
    rw [hlamport, h.actor]
    rfl
  show Same _ { b with
    lamport := b.lamport + 1
    entries := b.entries.set key ⟨value, b.lamport + 1, b.actor, deleted⟩ }
  rw [hentry, hlamport]
  exact h.put key _

theorem mergeEntry (h : Same r b) (p : SetPayload V) :
    Same (r.mergeEntry p).1 (b.mergeEntry p.toPython).1 ∧
      (r.mergeEntry p).2 = (b.mergeEntry p.toPython).2 := by
  have hrange : ¬ (!Python.inRange p.toPython.ts.1) = true := by
    have hin : Python.inRange p.toPython.ts.1 = true := inRange_toNat p.ts.lamport
    rw [hin]
    decide
  have hclock : max b.lamport p.toPython.ts.1 = ((max r.lamport p.ts.lamport).toNat : Int) := by
    rw [h.lamport, UInt64.toNat_max]
    exact (Nat.cast_max _ _).symm
  have hstale : ((b.entries.get? p.key).any fun e =>
      Python.tsLe (p.ts.lamport.toNat, p.ts.actor) e.ts) =
      r.entries[p.key]?.any (fun e => decide (p.ts ≤ e.ts)) := by
    rw [h.entries, Option.any_map]
    congr 1
    funext e
    exact tsLe_iff p.ts e.ts
  have hput : Same { r with lamport := max r.lamport p.ts.lamport, entries := _ } _ :=
    h.put p.key p.entry
  have hpython : b.mergeEntry p.toPython =
      if r.entries[p.key]?.any (fun e => decide (p.ts ≤ e.ts)) then
        ({ b with lamport := ((max r.lamport p.ts.lamport).toNat : Int) }, false)
      else
        ({ b with
          lamport := ((max r.lamport p.ts.lamport).toNat : Int)
          entries := b.entries.set p.key p.entry.toPython }, true) := by
    rw [← hstale, ← hclock]
    exact if_neg hrange
  rw [hpython]
  unfold BoardCore.mergeEntry
  dsimp only
  split
  · exact ⟨⟨h.actor, rfl, h.entries⟩, rfl⟩
  · exact ⟨hput, rfl⟩

/-- One event of both. -/
theorem apply (h : Same r b) (e : Endpoint.Event V) (hclock : (b.next e).lamport < 2 ^ 64) :
    ∃ r', r.apply checks e = some (r', b.changed e) ∧ Same r' (b.next e) := by
  cases e with
  | set key value =>
    obtain ⟨w, hw, hsame⟩ := @write V checks r b h key value false hclock
    exact ⟨w.1, congrArg (Option.map _) hw, hsame⟩
  | delete key =>
    obtain ⟨w, hw, hsame⟩ := @write V checks r b h key none true hclock
    exact ⟨w.1, congrArg (Option.map _) hw, hsame⟩
  | merge p =>
    obtain ⟨hsame, hflag⟩ := h.mergeEntry p
    rw [BoardCore.apply, Python.Board.next, Python.Board.changed, hflag]
    exact ⟨_, rfl, hsame⟩

/-- The keys in the order of their bytes are the keys in the order of their code points. -/
theorem sortedKeys (h : Same r b) : b.sortedKeys = r.entries.keys := by
  have hmem : ∀ key, key ∈ b.entries.entries.map Prod.fst ↔ key ∈ r.entries.keys := by
    intro key
    rw [← Dict.contains_iff, ← Dict.get?_isSome, h.entries, Option.isSome_map,
      Std.ExtTreeMap.mem_keys, Std.ExtTreeMap.isSome_getElem?_iff_mem]
  have hperm : b.sortedKeys.Perm r.entries.keys :=
    (List.mergeSort_perm _ _).trans ((List.perm_ext_iff_of_nodup b.entries.nodup
      Std.ExtTreeMap.nodup_keys).mpr hmem)
  have hsorted : b.sortedKeys.Pairwise (· ≤ ·) := by
    refine (List.pairwise_mergeSort ?_ ?_ _).imp of_decide_eq_true
    · simp only [decide_eq_true_iff]
      exact fun s t u => le_trans
    · simp only [Bool.or_eq_true, decide_eq_true_iff]
      exact le_total
  have hkeys : r.entries.keys.Pairwise (· ≤ ·) := by
    refine Std.ExtTreeMap.ordered_keys.imp fun {s t} hlt => ?_
    exact le_of_lt (byteValues_lt_iff.mp (compare_list_eq_lt.mp hlt))
  exact hperm.eq_of_pairwise (fun s t _ _ => le_antisymm) hsorted hkeys

theorem digestBytes (key : String) (e : BoardEntry V) :
    Python.Board.digestBytes key e.toPython = some (BoardCore.digestBytes key e) := by
  have hbytes : Python.toBytes8 e.toPython.lamport = some (toBe 8 e.lamport.toNat) :=
    if_pos (inRange_toNat e.lamport)
  rw [Python.Board.digestBytes, hbytes]
  rfl

/-- Both hash the same bytes. -/
theorem digest (h : Same r b) (sha256 : Bytes → Bytes) :
    b.digest sha256 = some (r.digest sha256) := by
  have hread : (r.entries.keys.mapM fun key =>
      (b.entries.get? key).bind (Python.Board.digestBytes key)) =
      some (r.entries.toList.map fun e => BoardCore.digestBytes e.1 e.2) := by
    rw [← Std.ExtTreeMap.map_fst_toList_eq_keys, List.mapM_map]
    have hentry : ∀ e ∈ r.entries.toList,
        (b.entries.get? e.1).bind (Python.Board.digestBytes e.1) =
          some (BoardCore.digestBytes e.1 e.2) := by
      intro e he
      rw [h.entries, Std.ExtTreeMap.mem_toList_iff_getElem?_eq_some.mp he, Option.map_some,
        Option.bind_some, digestBytes]
    generalize r.entries.toList = l
      at hentry ⊢
    induction l with
    | nil => rfl
    | cons e l ih =>
      rw [List.mapM_cons, Function.comp_apply, hentry e List.mem_cons_self,
        ih fun e' he' => hentry e' (List.mem_cons_of_mem _ he')]
      rfl
  have hlen : b.entries.length = r.entries.size := by
    rw [← Std.ExtTreeMap.length_keys, ← h.sortedKeys, Python.Board.sortedKeys,
      List.length_mergeSort, List.length_map]
    rfl
  rw [Python.Board.digest, h.sortedKeys, hread, Option.map_some, hlen, BoardCore.digest,
    List.flatten_eq_flatMap, List.flatMap_map]
  rfl

theorem run (events : List (Endpoint.Event V)) : ∀ {r : BoardCore V} {b : Python.Board V},
    Same r b → (b.run events).lamport < 2 ^ 64 →
    ∃ r', r.run checks events = some (r', b.changes events) ∧ Same r' (b.run events) := by
  induction events with
  | nil => exact fun h _ => ⟨_, rfl, h⟩
  | cons e events ih =>
    intro r b h hclock
    have hclock' : ((b.next e).run events).lamport < 2 ^ 64 := hclock
    obtain ⟨s, hs, hsame⟩ := @apply V checks r b h e
      (Int.lt_of_le_of_lt (Python.Board.run_lamport events _) hclock')
    obtain ⟨r', hr', hsame'⟩ := ih hsame hclock'
    refine ⟨r', ?_, hsame'⟩
    rw [BoardCore.run, hs, Option.bind_some, hr', Option.map_some, Python.Board.changes]

end Same

/-- A Rust and a Python Board with the same actor, after the same events: both hold the same entries
and clock, said the same of every merge, and have the same digest. -/
theorem boards_agree (checks : Bool) (sha256 : Bytes → Bytes) (actor : String)
    (events : List (Endpoint.Event V))
    (hclock : ((Python.Board.new actor).run events).lamport < 2 ^ 64) :
    ∃ r, (BoardCore.new actor).run checks events =
        some (r, (Python.Board.new actor).changes events) ∧
      Same r ((Python.Board.new actor).run events) ∧
      ((Python.Board.new actor).run events).digest sha256 = some (r.digest sha256) := by
  obtain ⟨r, hr, hsame⟩ := @Same.run V checks events _ _ (same_new actor) hclock
  exact ⟨r, hr, hsame, hsame.digest sha256⟩

/-- Writes and SETs with keys and actors on both sides of the surrogates, which an order by UTF-16
units would turn around. -/
def mixedEvents : List (Endpoint.Event Nat) :=
  [.set "é" (some 1), .merge ⟨"😀", some 2, ⟨3, "😀"⟩, false⟩,
   .merge ⟨"😀", some 3, ⟨3, "￮"⟩, false⟩, .delete "￮", .merge ⟨"é", none, ⟨1, "é"⟩, true⟩]

theorem boards_agree_mixed :
    ∃ r, (BoardCore.new "a").run true mixedEvents = some (r, [true, false, true]) ∧
      Same r ((Python.Board.new "a").run mixedEvents) ∧
      ((Python.Board.new "a").run mixedEvents).digest id = some (r.digest id) := by
  have hchanges : (Python.Board.new "a").changes mixedEvents = [true, false, true] := by
    decide +kernel
  rw [← hchanges]
  exact boards_agree true id "a" mixedEvents (by decide +kernel)

end Telesthete.Board
