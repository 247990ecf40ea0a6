import Telesthete.Proofs.DropRanges
import Telesthete.Python.Drop

/-!
# The search from `low` finds the first missing range

All chunks below `low` are held: chunks are only added, except by an OFFER, which
starts the search over. So the search finds the first one that is missing, and
its window ends where the first range of the full scan does, since there is only
one list that is `Ranges`.
-/

namespace Telesthete.Python.Drop

open Telesthete.Lib
open Telesthete.Band (SocketAddr)
open Telesthete.Drop (Ranges Passes maxRangeChunks chunkFrame DropSenderCore)

namespace DropReceiver

variable {r r' : DropReceiver} {sha : Bytes → String}

/-- Nothing below `low` is missing. -/
def LowHeld (r : DropReceiver) : Prop := ∀ i < r.low, r.holds i = true

/-! ## The two loops -/

theorem seekLow_spec (r : DropReceiver) (fuel : Nat) : ∀ low, r.total - low ≤ fuel →
    (∀ i < low, r.holds i = true) →
    (∀ i < r.seekLow fuel low, r.holds i = true) ∧
      (r.seekLow fuel low < r.total → r.holds (r.seekLow fuel low) = false) := by
  induction fuel with
  | zero => exact fun low hfuel hheld => ⟨hheld, fun hlt => by rw [seekLow] at hlt; omega⟩
  | succ fuel ih =>
    intro low hfuel hheld
    rw [seekLow]
    split
    · next hnext =>
      refine ih (low + 1) (by omega) fun i hi => ?_
      rcases Nat.lt_succ_iff_lt_or_eq.mp hi with hlt | rfl
      · exact hheld i hlt
      · exact hnext.2
    · next hstop => exact ⟨hheld, fun hlt => Bool.eq_false_iff.mpr fun h => hstop ⟨hlt, h⟩⟩

theorem seekEnd_spec (r : DropReceiver) (limit fuel : Nat) : ∀ stop, stop ≤ limit →
    limit - stop ≤ fuel →
    stop ≤ r.seekEnd limit fuel stop ∧ r.seekEnd limit fuel stop ≤ limit ∧
      (∀ i, stop ≤ i → i < r.seekEnd limit fuel stop → r.holds i = false) ∧
      (r.seekEnd limit fuel stop = limit ∨ r.holds (r.seekEnd limit fuel stop) = true) := by
  induction fuel with
  | zero =>
    intro stop hle hfuel
    rw [seekEnd]
    exact ⟨le_rfl, hle, fun i hi hlt => by omega, .inl (by omega)⟩
  | succ fuel ih =>
    intro stop hle hfuel
    rw [seekEnd]
    split
    · next hnext =>
      obtain ⟨hge, hlimit, hall, hend⟩ := ih (stop + 1) (by omega) (by omega)
      refine ⟨by omega, hlimit, fun i hi hlt => ?_, hend⟩
      rcases Nat.eq_or_lt_of_le hi with rfl | hi
      · exact hnext.2
      · exact hall i hi hlt
    · next hstop =>
      refine ⟨le_rfl, hle, fun i hi hlt => by omega, ?_⟩
      by_cases hlt : stop < limit
      · exact .inr (Bool.not_eq_false _ ▸ fun h => hstop ⟨hlt, h⟩)
      · exact .inl (by omega)

theorem passes_missingPass (r : DropReceiver) :
    Passes (fun i => r.holds i = false) r.total r.missingPass where
  lacks := fun _ _ hlack => if_pos hlack
  ends := fun _ _ hlack => if_neg hlack

theorem missingRanges_ranges (r : DropReceiver) :
    Ranges (fun i => r.holds i = false) r.total 0 r.missingRanges :=
  r.passes_missingPass.ranges

/-- There are ranges from every index on. -/
theorem exists_ranges (r : DropReceiver) {i : Nat} (hi : i ≤ r.total) :
    ∃ l, Ranges (fun i => r.holds i = false) r.total i l := by
  obtain ⟨l, hl, -⟩ := (r.passes_missingPass.foldl (r.total + 1 - i)).1 i [] (by omega)
  exact ⟨l, hl⟩

theorem missingRanges_eq_nil_iff :
    r.missingRanges = [] ↔ ∀ i < r.total, r.holds i = true := by
  rw [r.missingRanges_ranges.nil_iff]
  simp

theorem nextMissingRange_eq (h : LowHeld r) :
    r.nextMissingRange.2 = r.missingRanges.head? := by
  obtain ⟨hbelow, hat⟩ := r.seekLow_spec r.total r.low (Nat.sub_le _ _) h
  simp only [nextMissingRange]
  generalize r.seekLow r.total r.low = low at hbelow hat
  split
  · next hge =>
    have hnil : r.missingRanges = [] :=
      missingRanges_eq_nil_iff.mpr fun i hi => hbelow i (lt_of_lt_of_le hi hge)
    rw [hnil]
    rfl
  · next hlt =>
    have hpos : 0 < maxRangeChunks := by decide
    obtain ⟨hge, hlimit, hall, hend⟩ := r.seekEnd_spec (min r.total (low + maxRangeChunks)) r.total
      (low + 1) (by omega) (by omega)
    generalize r.seekEnd (min r.total (low + maxRangeChunks)) r.total (low + 1) = stop
      at hge hlimit hall hend
    obtain ⟨l, hl⟩ := r.exists_ranges (i := stop) (by omega)
    have hwindow : Ranges (fun i => r.holds i = false) r.total low ((low, stop) :: l) := by
      refine .window (by omega) (by omega) (by omega) (fun i hi hlt => ?_) ?_ hl
      · rcases Nat.eq_or_lt_of_le hi with rfl | hi
        · exact hat (by omega)
        · exact hall i hi hlt
      · rcases hend with hend | hend
        · omega
        · exact .inr (.inr (by rw [hend]; decide))
    have hfirst : Ranges (fun i => r.holds i = false) r.total 0 ((low, stop) :: l) :=
      hwindow.skip_to (by omega) (fun i _ hi => by rw [hbelow i hi]; decide) (Nat.zero_le _)
    rw [r.missingRanges_ranges.unique hfirst]
    rfl

/-- As many chunks as there are indexes, if every index is held. -/
theorem complete_iff : r.complete = true ↔ r.missingRanges = [] := by
  rw [missingRanges_eq_nil_iff, complete, Bool.and_eq_true, List.all_eq_true]
  simp only [List.mem_range, decide_eq_true_eq]
  refine ⟨And.right, fun hall => ⟨?_, hall⟩⟩
  have hnodup : ((List.range r.total).map Int.ofNat).Nodup :=
    List.nodup_range.map fun _ _ h => Int.ofNat.inj h
  have hsub : (List.range r.total).map Int.ofNat ⊆ r.held.entries.map Prod.fst := by
    intro i hi
    obtain ⟨j, hj, rfl⟩ := List.mem_map.mp hi
    exact Dict.contains_iff.mp (hall j (List.mem_range.mp hj))
  have hle := (List.subperm_of_subset hnodup hsub).length_le
  rwa [List.length_map, List.length_map, List.length_range] at hle

/-! ## Every run -/

theorem LowHeld.requestMissing (h : LowHeld r) : LowHeld r.requestMissing.1 := by
  have hnext : LowHeld r.nextMissingRange.1 :=
    (r.seekLow_spec r.total r.low (Nat.sub_le _ _) h).1
  unfold DropReceiver.requestMissing
  split
  · exact h
  · cases r.nextMissingRange.2 with
    | none => exact hnext
    | some window => exact hnext

theorem LowHeld.finish (h : LowHeld r) (o : Offer) : LowHeld (r.finish sha o).1 := by
  unfold DropReceiver.finish
  cases o.sha256 with
  | none => exact h
  | some digest => exact h

/-- A chunk that is added takes none away. -/
theorem LowHeld.store (h : LowHeld r) (o : Offer) (index : Nat) (chunk : Bytes) (now : Int) :
    LowHeld (r.store o index chunk now) := by
  unfold DropReceiver.store
  split
  · intro i hi
    have hget : (r.held.get? (i : Int)).isSome = true := Dict.get?_isSome.trans (h i hi)
    show Dict.contains _ _ = true
    rw [← Dict.get?_isSome, Dict.get?_set]
    split
    · rfl
    · exact hget
  · exact h

theorem LowHeld.step (h : LowHeld r) (e : Event) : LowHeld (r.step sha e) := by
  cases e with
  | offer peer o now =>
    have haccept : LowHeld (r.accept peer o now) := fun i hi => absurd hi (Nat.not_lt_zero i)
    simp only [DropReceiver.step, onOffer]
    split
    · split
      · exact haccept.finish o
      · exact haccept.requestMissing
    · exact h
  | chunk frame now =>
    simp only [DropReceiver.step, onChunk]
    cases r.offer with
    | none => exact h
    | some o =>
      dsimp only [Option.elim_some]
      have hstore := h.store o (ofBe (frame.take 4)) (frame.drop 4) now
      split
      · exact h
      · split
        · exact hstore.finish o
        · split
          · exact hstore.requestMissing
          · exact hstore
  | tick now =>
    simp only [DropReceiver.step, DropReceiver.tick]
    split
    · exact LowHeld.requestMissing (r := { r with lastProgress := now }) h
    · exact h
  | requestMissing => exact h.requestMissing

theorem lowHeld_run (held : Dict Int Bytes) (events : List Event) :
    LowHeld (events.foldl (DropReceiver.step sha) { held := held }) :=
  List.foldlRecOn (motive := LowHeld) events (DropReceiver.step sha)
    (fun i hi => absurd hi (Nat.not_lt_zero i)) fun _ h e _ => h.step e

/-- From any chunks, after any events: the search finds the first missing range, and with an offer
the chunks are complete exactly if no range is missing. -/
theorem next_missing_range_exact (sha : Bytes → String) (held : Dict Int Bytes)
    (events : List Event) :
    let r := events.foldl (DropReceiver.step sha) { held := held }
    r.nextMissingRange.2 = r.missingRanges.head? ∧
      (r.offer.isSome → (r.complete = true ↔ r.missingRanges = [])) :=
  ⟨nextMissingRange_eq (lowHeld_run held events), fun _ => complete_iff⟩

/-- The second of two chunks was held beforehand, and the first has a wrong length. -/
theorem next_missing_range_exact_resumed :
    let r := [.offer ⟨1, 1⟩ ⟨some 1025, some 1024, some 2, none⟩ 0, .chunk [0, 0, 0, 0, 7] 5].foldl
      (DropReceiver.step fun _ => "") { held := (Dict.empty.set 1 [3]).set (-1) [4] }
    r.nextMissingRange.2 = some (0, 1) ∧ (r.complete = true ↔ r.missingRanges = []) :=
  ⟨by decide +kernel, (next_missing_range_exact _ _ _).2 (by decide +kernel)⟩

/-! ## With the Rust implementation -/

/-- The window a Python receiver asks for, after any events: a Rust sender of as many chunks answers
with the chunks of that window, in order, and the receiver holds none of them. -/
theorem request_served_whole (sha : Bytes → String) (held : Dict Int Bytes) (events : List Event)
    (s : DropSenderCore) (source : SocketAddr) :
    let r := events.foldl (DropReceiver.step sha) { held := held }
    s.totalChunks = r.total → ∀ a b : Nat, r.nextMissingRange.2 = some (a, b) → a < b ∧
      (s.handleFrame source (.request [(a, b)])).2.1 =
        (List.range' a (b - a)).map (chunkFrame s.data) ∧
      ∀ i, a ≤ i → i < b → r.holds i = false := by
  intro r htotal a b h
  rw [nextMissingRange_eq (lowHeld_run held events)] at h
  obtain ⟨l, hl⟩ := List.head?_eq_some_iff.mp h
  obtain ⟨-, hlt, hwindow, hle, hall⟩ := (hl ▸ r.missingRanges_ranges).head
  refine ⟨hlt, ?_, hall⟩
  show ([((a : Int), (b : Int))].flatMap fun w => s.serveRange w.1 w.2) = _
  rw [List.flatMap_singleton, DropSenderCore.serveRange_window (htotal ▸ hle) hwindow]

/-- A file of 66 chunks was offered, and the first chunk came: the next 64 are asked for and
served. -/
theorem request_served_whole_window :
    ((DropSenderCore.new (fun _ => "") "f" (List.replicate 67584 7)).handleFrame ⟨1, 1⟩
      (.request [(1, 65)])).2.1 =
        (List.range' 1 64).map (chunkFrame (List.replicate 67584 7)) := by
  have htotal : ∀ data : Bytes, data.length = 67584 →
      (DropSenderCore.new (fun _ => "") "f" data).totalChunks = 66 := by
    intro data hdata
    simp [DropSenderCore.new, hdata, Telesthete.Drop.chunkSize]
  exact (request_served_whole (fun _ => "") .empty
    [.offer ⟨2, 2⟩ ⟨some 67584, some 1024, some 66, none⟩ 0,
      .chunk ([0, 0, 0, 0] ++ List.replicate 1024 7) 1]
    (.new (fun _ => "") "f" (List.replicate 67584 7)) ⟨1, 1⟩
    ((htotal _ List.length_replicate).trans (by decide +kernel)) 1 65 (by decide +kernel)).2.1

end DropReceiver

end Telesthete.Python.Drop
