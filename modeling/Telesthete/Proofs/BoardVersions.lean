import Telesthete.Proofs.BoardConverge

/-!
# Timestamps of a Board

Two things have to hold of the timestamps for the merge rule to do what it is
for. A timestamp stands for one write, so that a copy may drop what it has
already; and a local write is newer than all that its writer has seen, so that
it is not dropped.

The first depends on the core that writes: one that a band has opened again
starts from clock zero under the same name. The second depends on the clocks
that arrive: at the greatest one there is no next clock. Both are stated here
under the condition that excludes that and no more.
-/

namespace Telesthete.Board

open Telesthete.Lib

variable {V : Type} {checks : Bool}

/-! ### A board that is opened again -/

namespace Network

/-- Who writes is not behind what its band wrote on that board before, and has
not reached the greatest clock. -/
def Ahead (n : Network V) (e : Event V) : Prop := (n.boards e.boardId).Ahead e.local

theorem inv_of_ahead {n : Network V} (h : GuardedRun (Network.step checks) Ahead Network.empty n)
    (d : UInt16) : (n.boards d).Inv := by
  have hall : ∀ d, (n.boards d).Inv := by
    refine h.invariant (P := fun n => ∀ d, (n.boards d).Inv) (fun d => .empty) ?_
    intro n e n' hinv hok hstep d
    obtain ⟨c, hc, rfl⟩ := Option.map_eq_some_iff.mp hstep
    show (Function.update n.boards e.boardId c d).Inv
    by_cases hd : d = e.boardId
    · rw [hd, Function.update_self]
      exact (hinv e.boardId).step hok hc
    · rw [Function.update_of_ne hd]
      exact hinv d
  exact hall d

end Network

/-- In every run in which whoever writes is not behind the earlier writes of its
band, a timestamp stands for one write to a key, and entries of any two copies
with equal timestamps are equal. -/
theorem eq_of_ts_eq {n : Network V}
    (h : GuardedRun (Network.step checks) Network.Ahead Network.empty n) (d : UInt16) :
    (∀ p ∈ (n.boards d).written, ∀ q ∈ (n.boards d).written,
      p.key = q.key → p.ts = q.ts → p = q) ∧
    ∀ a ∈ (n.boards d).endpoints, ∀ b ∈ (n.boards d).endpoints,
      ∀ (key : String) (e e' : BoardEntry V), a.core.entries[key]? = some e →
        b.core.entries[key]? = some e' → e.ts = e'.ts → e = e' := by
  have hinv := Network.inv_of_ahead h d
  refine ⟨hinv.unique, fun a ha b hb key e e' he he' hts => ?_⟩
  have hwritten : ∀ (ep : Endpoint V) (x : BoardEntry V), ep ∈ (n.boards d).endpoints →
      ep.core.entries[key]? = some x → x.toPayload key ∈ (n.boards d).written := by
    intro ep x hep hx
    have hheld : ep.core.held key = some (x.toPayload key) := by
      rw [BoardCore.held, hx]
      rfl
    exact hinv.seen ep hep _ ((hinv.sound ep hep).mem_seen hheld)
  have hsame := hinv.unique _ (hwritten a e ha he) _ (hwritten b e' hb he') rfl hts
  exact (BoardEntry.toPayload_inj hsame).2

/-- The condition of `Network.Ahead`, checked. -/
def checkAhead (n : Network V) (e : Network.Event V) : Bool :=
  (e.local.writer (n.boards e.boardId)).all fun ep =>
    ep.core.lamport.toNat < 2 ^ 64 - 1 ∧
      ∀ p ∈ (n.boards e.boardId).written, p.ts.actor = ep.core.actor →
        p.ts.lamport.toNat ≤ ep.core.lamport.toNat

theorem ahead_of_check (n : Network V) (e : Network.Event V) (h : checkAhead n e = true) :
    n.Ahead e := by
  intro ep hep
  rw [checkAhead, hep] at h
  exact of_decide_eq_true h

/-- A band opens board 5 a second time and writes the key it wrote before; in
between it may get its own first SET back. -/
def reopened (between : List (Network.Event Nat)) : List (Network.Event Nat) :=
  [.open "ada" 5, .set 5 0 "k" (some 1), .open "bob" 5, .deliver 5 1 0, .open "ada" 5] ++
    between ++ [.set 5 2 "k" (some 2)]

theorem eq_of_ts_eq_reopened : ∃ n,
    play (Network.step true) checkAhead Network.empty
        ((reopened [.deliver 5 2 0]).map fun e _ => e) = some n ∧
      (n.boards 5).written.map (·.ts) = [⟨1, "ada"⟩, ⟨2, "ada"⟩] ∧
      ∀ p ∈ (n.boards 5).written, ∀ q ∈ (n.boards 5).written,
        p.key = q.key → p.ts = q.ts → p = q := by
  refine exists_some (fun n => (n.boards 5).written.map (·.ts) = [⟨1, "ada"⟩, ⟨2, "ada"⟩])
    (by decide +kernel) fun n hplay hts => ?_
  exact ⟨hts, (eq_of_ts_eq (guardedRun_play ahead_of_check hplay) 5).1⟩

/-- Without it, the new core gives the second write the timestamp of the first
one, and two copies of the board stay with different values under it. -/
theorem reopened_board_repeats_ts : ∃ n,
    GuardedRun (Network.step true) (fun _ _ => True) (Network.empty : Network Nat) n ∧
      (n.boards 5).written =
        [⟨"k", some 1, ⟨1, "ada"⟩, false⟩, ⟨"k", some 2, ⟨1, "ada"⟩, false⟩] ∧
      ∃ a b, (n.boards 5).endpoints[1]? = some a ∧ (n.boards 5).endpoints[2]? = some b ∧
        a.core.entries["k"]? = some ⟨some 1, 1, "ada", false⟩ ∧
        b.core.entries["k"]? = some ⟨some 2, 1, "ada", false⟩ := by
  have hall : (play (Network.step true) (fun _ _ => true) Network.empty
      ((reopened []).map fun e _ => e)).any (fun n => (n.boards 5).written =
          [⟨"k", some 1, ⟨1, "ada"⟩, false⟩, ⟨"k", some 2, ⟨1, "ada"⟩, false⟩] ∧
        (n.boards 5).endpoints[1]?.any (fun a => (n.boards 5).endpoints[2]?.any fun b =>
          a.core.entries["k"]? = some ⟨some 1, 1, "ada", false⟩ ∧
          b.core.entries["k"]? = some ⟨some 2, 1, "ada", false⟩)) = true := by
    decide +kernel
  obtain ⟨n, hplay, hwritten, hends⟩ := some_of_any hall
  obtain ⟨a, ha, hends⟩ := (Option.any_eq_true _ _).mp hends
  obtain ⟨b, hb, hka, hkb⟩ := some_of_any hends
  exact ⟨n, guardedRun_play (fun _ _ _ => trivial) hplay, hwritten, a, b, ha, hb, hka, hkb⟩

/-! ### The clock of one copy -/

namespace Endpoint

variable {ep ep' : Endpoint V} {actor : String}

/-- As long as nothing with the greatest clock was seen, the clock is up to what
was seen and below the greatest one. -/
theorem sound_of_run
    (h : GuardedRun (Endpoint.step checks) (fun _ _ => True) ⟨.new actor, []⟩ ep)
    (hmax : ∀ p ∈ ep.seen, p.ts.lamport.toNat ≠ 2 ^ 64 - 1) :
    ep.Sound ∧ ep.core.lamport.toNat < 2 ^ 64 - 1 := by
  refine h.invariant (P := fun ep => (∀ p ∈ ep.seen, p.ts.lamport.toNat ≠ 2 ^ 64 - 1) →
    ep.Sound ∧ ep.core.lamport.toNat < 2 ^ 64 - 1)
    (fun _ => ⟨.new actor, (by decide : (0 : UInt64).toNat < 2 ^ 64 - 1)⟩) ?_ hmax
  intro ep e ep' ih _ hstep hmax
  rcases step_cases hstep with ⟨key, value, deleted, b', p, hwrite, rfl⟩ | ⟨p, rfl⟩
  · obtain ⟨hsound, hlt⟩ := ih fun q hq => hmax q (List.mem_append_left _ hq)
    refine ⟨hsound.write hlt hwrite, ?_⟩
    obtain ⟨-, -, hp, -⟩ := BoardCore.write_eq_some hwrite
    have hne : p.ts.lamport.toNat ≠ 2 ^ 64 - 1 :=
      hmax p (List.mem_append_right _ List.mem_cons_self)
    rw [hp] at hne
    have hbound : b'.lamport.toNat < 2 ^ 64 := b'.lamport.toNat_lt
    show b'.lamport.toNat < 2 ^ 64 - 1
    dsimp only at hne
    omega
  · obtain ⟨hsound, hlt⟩ := ih fun q hq => hmax q (List.mem_append_left _ hq)
    refine ⟨hsound.mergeEntry p, ?_⟩
    have hne : p.ts.lamport.toNat ≠ 2 ^ 64 - 1 :=
      hmax p (List.mem_append_right _ List.mem_cons_self)
    have hbound : p.ts.lamport.toNat < 2 ^ 64 := p.ts.lamport.toNat_lt
    rw [BoardCore.mergeEntry_lamport, UInt64.toNat_max]
    omega

/-- With overflow checks the clock is never behind what was seen. -/
theorem clock_of_run
    (h : GuardedRun (Endpoint.step true) (fun _ _ => True) ⟨.new actor, []⟩ ep) :
    ∀ p ∈ ep.seen, p.ts.lamport.toNat ≤ ep.core.lamport.toNat := by
  refine h.invariant (P := fun ep => ∀ p ∈ ep.seen, p.ts.lamport.toNat ≤ ep.core.lamport.toNat)
    (fun _ hp => absurd hp List.not_mem_nil) ?_
  intro ep e ep' ih _ hstep q hq
  rcases step_cases hstep with ⟨key, value, deleted, b', p, hwrite, rfl⟩ | ⟨p, rfl⟩
  · obtain ⟨hnext, -, hp, -⟩ := BoardCore.write_eq_some hwrite
    have hlamport := increment_true hnext
    show q.ts.lamport.toNat ≤ b'.lamport.toNat
    rcases List.mem_append.mp hq with hold | hnew
    · have hclock := ih q hold
      omega
    · rw [List.mem_singleton.mp hnew, hp]
  · show q.ts.lamport.toNat ≤ (ep.core.mergeEntry p).1.lamport.toNat
    rw [BoardCore.mergeEntry_lamport, UInt64.toNat_max]
    rcases List.mem_append.mp hq with hold | hnew
    · exact le_max_of_le_left (ih q hold)
    · rw [List.mem_singleton.mp hnew]
      exact le_max_right _ _

/-- The write came about without overflow, is newer than all its writer had seen,
and is installed by every copy that has seen no more than that. -/
def Wins (ep : Endpoint V) (key : String) (r : Option (BoardCore V × SetPayload V)) : Prop :=
  ∃ b' p, r = some (b', p) ∧ p.ts.lamport.toNat = ep.core.lamport.toNat + 1 ∧
    (∀ q ∈ ep.seen, q.ts < p.ts) ∧
    ∀ (checks : Bool) (actor : String) (other : Endpoint V),
      GuardedRun (Endpoint.step checks) (fun _ _ => True) ⟨.new actor, []⟩ other →
      other.seen ⊆ ep.seen →
        (other.core.mergeEntry p).2 = true ∧ (other.core.mergeEntry p).1.held key = some p

theorem wins_write (h : ep.Sound) (hlt : ep.core.lamport.toNat < 2 ^ 64 - 1)
    (hmax : ∀ p ∈ ep.seen, p.ts.lamport.toNat ≠ 2 ^ 64 - 1) (key : String) (value : Option V)
    (deleted : Bool) : ep.Wins key (ep.core.write checks key value deleted) := by
  obtain ⟨b', p, hwrite, hnext⟩ :=
    BoardCore.write_of_lt checks key value deleted hlt
  have hnewer := h.lt_of_write hlt hwrite
  have hkey : p.key = key := by
    obtain ⟨-, -, hp, -⟩ := BoardCore.write_eq_some hwrite
    rw [hp]
  refine ⟨b', p, hwrite, hnext, hnewer, fun checks' actor other hrun hsub => ?_⟩
  obtain ⟨hother, -⟩ := sound_of_run hrun fun q hq => hmax q (hsub hq)
  rcases BoardCore.mergeEntry_cases other.core p with ⟨-, ⟨q, hq, hle⟩, -⟩ | ⟨hchanged, -, hheld⟩
  · exact absurd hle (not_le_of_gt (hnewer q (hsub (hother.mem_seen hq))))
  · exact ⟨hchanged, by rw [hheld, if_pos hkey.symm]⟩

/-- At the greatest clock a write with overflow checks panics. -/
theorem not_wins_of_max {key : String} {value : Option V} {deleted : Bool}
    (h : ep.core.lamport.toNat = 2 ^ 64 - 1) :
    ¬ ep.Wins key (ep.core.write true key value deleted) := by
  rintro ⟨b', p, hwrite, -⟩
  obtain ⟨hnext, -⟩ := BoardCore.write_eq_some hwrite
  exact (Option.ite_none_left_eq_some.mp hnext).1 ⟨rfl, h⟩

end Endpoint

/-- At any copy that got SETs from anywhere, a local write wins if nothing it has
written or merged carries the greatest clock; with overflow checks no write
wins otherwise. -/
theorem wins_of_lamport_ne {actor : String} {ep : Endpoint V}
    (h : GuardedRun (Endpoint.step checks) (fun _ _ => True) ⟨.new actor, []⟩ ep) :
    ((∀ p ∈ ep.seen, p.ts.lamport.toNat ≠ 2 ^ 64 - 1) → ∀ key,
      (∀ value, ep.Wins key (ep.core.set checks key value)) ∧
        ep.Wins key (ep.core.delete checks key)) ∧
    (checks = true → ∀ key,
      (∃ value, ep.Wins key (ep.core.set checks key value)) ∨
        ep.Wins key (ep.core.delete checks key) →
      ∀ p ∈ ep.seen, p.ts.lamport.toNat ≠ 2 ^ 64 - 1) := by
  constructor
  · intro hmax key
    obtain ⟨hsound, hlt⟩ := Endpoint.sound_of_run h hmax
    exact ⟨fun value => Endpoint.wins_write hsound hlt hmax key value false,
      Endpoint.wins_write hsound hlt hmax key none true⟩
  · rintro rfl key hwins p hp hmax
    have hclock := Endpoint.clock_of_run h p hp
    have hbound : ep.core.lamport.toNat < 2 ^ 64 := ep.core.lamport.toNat_lt
    have htop : ep.core.lamport.toNat = 2 ^ 64 - 1 := by omega
    rcases hwins with ⟨value, hwins⟩ | hwins
    · exact Endpoint.not_wins_of_max htop hwins
    · exact Endpoint.not_wins_of_max htop hwins

/-- A SET of a key with a clock that the sender chose. -/
def setAt (lamport : UInt64) : SetPayload Nat := ⟨"k", some 1, ⟨lamport, "eve"⟩, false⟩

/-- The copy of "ada" after that SET. -/
def afterSet (lamport : UInt64) : Endpoint Nat :=
  ⟨((BoardCore.new "ada").mergeEntry (setAt lamport)).1, [setAt lamport]⟩

theorem afterSet_run (checks : Bool) (lamport : UInt64) :
    GuardedRun (Endpoint.step checks) (fun _ _ => True) ⟨.new "ada", []⟩ (afterSet lamport) :=
  .single ⟨.merge (setAt lamport), trivial, rfl⟩

theorem wins_of_lamport_ne_below :
    (afterSet 18446744073709551614).Wins "k"
      ((afterSet 18446744073709551614).core.set true "k" (some 2)) :=
  ((wins_of_lamport_ne (afterSet_run true 18446744073709551614)).1 (by
    intro p hp
    rw [List.mem_singleton.mp hp]
    decide) "k").1 (some 2)

/-- After a SET with the greatest clock the next write panics, or, without
overflow checks, carries clock zero and loses against it. -/
theorem greatest_lamport_blocks_write :
    (GuardedRun (Endpoint.step true) (fun _ _ => True) ⟨.new "ada", []⟩
        (afterSet 18446744073709551615) ∧
      (afterSet 18446744073709551615).core.set true "k" (some 2) = none) ∧
    GuardedRun (Endpoint.step false) (fun _ _ => True) ⟨.new "ada", []⟩
        (afterSet 18446744073709551615) ∧
      ∃ b' p, (afterSet 18446744073709551615).core.set false "k" (some 2) = some (b', p) ∧
        p.ts = ⟨0, "ada"⟩ ∧ ¬ (setAt 18446744073709551615).ts < p.ts ∧
        ((afterSet 18446744073709551615).core.mergeEntry p).2 = false := by
  have hall : ((afterSet 18446744073709551615).core.set false "k" (some 2)).any
      (fun r => r.2.ts = ⟨0, "ada"⟩ ∧ ¬ (setAt 18446744073709551615).ts < r.2.ts ∧
        ((afterSet 18446744073709551615).core.mergeEntry r.2).2 = false) = true := by
    decide +kernel
  obtain ⟨⟨b', p⟩, hset, hprops⟩ := some_of_any hall
  exact ⟨⟨afterSet_run true _, rfl⟩, afterSet_run false _, b', p, hset, hprops⟩

end Telesthete.Board
