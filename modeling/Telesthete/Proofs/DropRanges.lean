import Telesthete.Proofs.DropTransfer

/-!
# Ranges asked for and ranges served

The receiver lists what it lacks as ranges of at most a window. Its loop is read
here from the left: `Ranges` says what the list is from an index on, skipping
what is held and cutting a window off what is lacking, and there is only one such
list. So when the first window has been filled, what is left of the list is the
list of what is left (`Ranges.fill`).

The sender answers each range on its own, with at most a window of chunks of the
file. A request may have any number of ranges, overlapping ones among them.
-/

namespace Telesthete.Drop

open Telesthete.Lib List
open Telesthete.Band (SocketAddr)

/-! ## The sender -/

/-- The frame that carries a chunk of a file. -/
def chunkFrame (file : Bytes) (index : Nat) : Frame := .chunk (toBe 4 index ++ chunkOf file index)

namespace DropSenderCore

theorem serveRange_eq (s : DropSenderCore) (start stop : Int) :
    s.serveRange start stop =
      (List.range' start.toNat (min (min stop.toNat s.totalChunks) (start.toNat + maxRangeChunks) -
        start.toNat)).map (chunkFrame s.data) := by
  simp only [serveRange, chunk_eq]
  rfl

theorem length_serveRange_le (s : DropSenderCore) (start stop : Int) :
    (s.serveRange start stop).length ≤ min maxRangeChunks s.totalChunks := by
  rw [serveRange_eq, length_map, length_range']
  omega

theorem mem_serveRange {s : DropSenderCore} {start stop : Int} {f : Frame}
    (h : f ∈ s.serveRange start stop) : ∃ i < s.totalChunks, f = chunkFrame s.data i := by
  rw [serveRange_eq] at h
  obtain ⟨i, hi, rfl⟩ := mem_map.mp h
  rw [mem_range'_1] at hi
  exact ⟨i, by omega, rfl⟩

/-- A window inside the file is served as it is. -/
theorem serveRange_window {s : DropSenderCore} {a b : Nat} (hb : b ≤ s.totalChunks)
    (hwindow : b ≤ a + maxRangeChunks) :
    s.serveRange a b = (List.range' a (b - a)).map (chunkFrame s.data) := by
  rw [serveRange_eq, Int.toNat_natCast, Int.toNat_natCast, Nat.min_eq_left hb,
    Nat.min_eq_left hwindow]

/-- A request is answered with chunks of the file under their own indexes, at most a window of them
and at most the whole file for each of its ranges. -/
theorem request_served (s : DropSenderCore) (source : SocketAddr) (ranges : List (Int × Int)) :
    (s.handleFrame source (.request ranges)).2.1.length ≤
        ranges.length * min maxRangeChunks s.totalChunks ∧
      ∀ f ∈ (s.handleFrame source (.request ranges)).2.1,
        ∃ i < s.totalChunks, f = chunkFrame s.data i := by
  show (ranges.flatMap fun r => s.serveRange r.1 r.2).length ≤ _ ∧
    ∀ f ∈ ranges.flatMap fun r => s.serveRange r.1 r.2, _
  constructor
  · induction ranges with
    | nil => exact Nat.zero_le _
    | cons r ranges ih =>
      have hr := s.length_serveRange_le r.1 r.2
      rw [flatMap_cons, length_append, length_cons, Nat.succ_mul]
      omega
  · intro f hf
    obtain ⟨r, -, hr⟩ := mem_flatMap.mp hf
    exact mem_serveRange hr

/-- A file of one chunk, asked for twice in one request, is sent twice. -/
theorem request_served_twice :
    (new (fun _ => "") "f" [7]).totalChunks = 1 ∧
      ((new (fun _ => "") "f" [7]).handleFrame ⟨1, 1⟩ (.request [(0, 1), (0, 1)])).2.1 =
        [chunkFrame [7] 0, chunkFrame [7] 0] := by
  decide

end DropSenderCore

/-! ## The receiver -/

/-- The ranges of what is lacking below `total`, from an index on: runs of it, cut where they are
longer than a window. -/
inductive Ranges (lacking : Nat → Prop) (total : Nat) : Nat → List (Nat × Nat) → Prop where
  | stop {i : Nat} : total ≤ i → Ranges lacking total i []
  | skip {i : Nat} {l : List (Nat × Nat)} : i < total → ¬ lacking i →
      Ranges lacking total (i + 1) l → Ranges lacking total i l
  | window {i b : Nat} {l : List (Nat × Nat)} : i < b → b ≤ i + maxRangeChunks → b ≤ total →
      (∀ j, i ≤ j → j < b → lacking j) → (b = i + maxRangeChunks ∨ b = total ∨ ¬ lacking b) →
      Ranges lacking total b l → Ranges lacking total i ((i, b) :: l)

namespace Ranges

variable {lacking lacking' : Nat → Prop} {total i : Nat} {l l' : List (Nat × Nat)}

/-- A window goes as far as any run of lacking indexes from the same start. -/
theorem window_le {b b' : Nat} (hib : i < b)
    (hend : b = i + maxRangeChunks ∨ b = total ∨ ¬ lacking b) (hwin : b' ≤ i + maxRangeChunks)
    (htot : b' ≤ total) (hall : ∀ j, i ≤ j → j < b' → lacking j) : b' ≤ b := by
  rcases hend with rfl | rfl | hno
  · exact hwin
  · exact htot
  · exact not_lt.mp fun hlt => hno (hall b hib.le hlt)

theorem unique (h : Ranges lacking total i l) : Ranges lacking total i l' → l = l' := by
  induction h generalizing l' with
  | stop hi =>
    intro h'
    cases h' with
    | stop => rfl
    | skip hlt => omega
    | window => omega
  | skip hi hno _ ih =>
    intro h'
    cases h' with
    | stop => omega
    | skip _ _ h' => exact ih h'
    | window hib _ _ hall => exact absurd (hall _ (le_rfl) hib) hno
  | window hib hwin htot hall hend _ ih =>
    intro h'
    cases h' with
    | stop => omega
    | skip _ hno => exact absurd (hall _ (le_rfl) hib) hno
    | window hib' hwin' htot' hall' hend' h' =>
      obtain rfl := le_antisymm (window_le hib' hend' hwin htot hall)
        (window_le hib hend hwin' htot' hall')
      rw [ih h']

theorem congr (h : Ranges lacking total i l) (hsame : ∀ j, i ≤ j → (lacking j ↔ lacking' j)) :
    Ranges lacking' total i l := by
  induction h with
  | stop hi => exact .stop hi
  | skip hi hno _ ih =>
    exact .skip hi (fun h => hno ((hsame _ (le_rfl)).mpr h))
      (ih fun j hj => hsame j (by omega))
  | window hib hwin htot hall hend _ ih =>
    refine .window hib hwin htot (fun j hj hjb => (hsame j hj).mp (hall j hj hjb)) ?_
      (ih fun j hj => hsame j (by omega))
    rcases hend with h | h | h
    · exact .inl h
    · exact .inr (.inl h)
    · exact .inr (.inr fun hb => h ((hsame _ (by omega)).mpr hb))

/-- Nothing lacking up to an index is skipped. -/
theorem skip_to {b : Nat} (hb : b ≤ total) (hno : ∀ j, i ≤ j → j < b → ¬ lacking j) (hi : i ≤ b)
    (h : Ranges lacking total b l) : Ranges lacking total i l := by
  induction hn : b - i generalizing i with
  | zero =>
    have heq : i = b := by omega
    exact heq ▸ h
  | succ n ih =>
    refine .skip (by omega) (hno i (le_rfl) (by omega)) (ih ?_ (by omega) (by omega))
    exact fun j hj hjb => hno j (by omega) hjb

/-- The first range is of lacking indexes, at most a window of them, and there are none before. -/
theorem head {a b : Nat} (h : Ranges lacking total i ((a, b) :: l)) :
    i ≤ a ∧ a < b ∧ b ≤ a + maxRangeChunks ∧ b ≤ total ∧ (∀ j, a ≤ j → j < b → lacking j) := by
  generalize hl : (a, b) :: l = ranges at h
  induction h with
  | stop => cases hl
  | skip hi _ _ ih =>
    obtain ⟨hia, h⟩ := ih hl
    exact ⟨by omega, h⟩
  | window hib hwin htot hall hend _ =>
    cases hl
    exact ⟨le_rfl, hib, hwin, htot, hall⟩

/-- With the first range filled, the ranges are the others. -/
theorem fill {a b : Nat} (h : Ranges lacking total i ((a, b) :: l)) :
    Ranges (fun j => lacking j ∧ ¬ (a ≤ j ∧ j < b)) total i l := by
  generalize hl : (a, b) :: l = ranges at h
  induction h with
  | stop => cases hl
  | skip hi hno _ ih => exact .skip hi (fun h => hno h.1) (ih hl)
  | window hib hwin htot hall hend h =>
    cases hl
    refine skip_to htot (fun j hj hjb hlack => hlack.2 ⟨hj, hjb⟩) hib.le (h.congr fun j hj => ?_)
    exact ⟨fun hlack => ⟨hlack, by omega⟩, And.left⟩

/-- There are no ranges when nothing is lacking. -/
theorem nil_iff (h : Ranges lacking total i l) :
    l = [] ↔ ∀ j, i ≤ j → j < total → ¬ lacking j := by
  induction h with
  | stop hi => exact iff_of_true rfl fun j hj hlt => by omega
  | skip hi hno _ ih =>
    rw [ih]
    refine ⟨fun hall j hj hlt => ?_, fun hall j hj hlt => hall j (by omega) hlt⟩
    rcases Nat.eq_or_lt_of_le hj with rfl | hj
    · exact hno
    · exact hall j hj hlt
  | window hib hwin htot hall hend _ =>
    refine iff_of_false (by simp) fun hnone => ?_
    exact hnone _ (le_rfl) (by omega) (hall _ (le_rfl) hib)

/-- A range is not empty and at most a window, and one that is shorter ends where something ends
it. -/
theorem of_mem {p : Nat × Nat} (h : Ranges lacking total i l) (hp : p ∈ l) :
    i ≤ p.1 ∧ p.1 < p.2 ∧ p.2 ≤ p.1 + maxRangeChunks ∧
      (p.2 = p.1 + maxRangeChunks ∨ p.2 = total ∨ ¬ lacking p.2) := by
  induction h with
  | stop => exact absurd hp not_mem_nil
  | skip _ _ _ ih =>
    obtain ⟨hle, hmem⟩ := ih hp
    exact ⟨by omega, hmem⟩
  | window hib hwin _ _ hend _ ih =>
    rcases mem_cons.mp hp with rfl | hp
    · exact ⟨le_rfl, hib, hwin, hend⟩
    · obtain ⟨hle, hmem⟩ := ih hp
      exact ⟨by omega, hmem⟩

/-- Each range ends before the next one starts. -/
theorem pairwise (h : Ranges lacking total i l) : l.Pairwise fun p q => p.2 ≤ q.1 := by
  induction h with
  | stop => exact .nil
  | skip _ _ _ ih => exact ih
  | window _ _ _ _ _ h ih => exact .cons (fun q hq => (h.of_mem hq).1) ih

/-- Together they are what is lacking. -/
theorem exists_mem_iff (h : Ranges lacking total i l) (j : Nat) :
    (∃ p ∈ l, p.1 ≤ j ∧ j < p.2) ↔ i ≤ j ∧ j < total ∧ lacking j := by
  induction h with
  | stop hi => exact iff_of_false (by simp) (by omega)
  | @skip i l hi hno _ ih =>
    rw [ih]
    refine ⟨fun h => ⟨by omega, h.2⟩, fun h => ⟨?_, h.2⟩⟩
    exact Nat.lt_of_le_of_ne h.1 fun heq => hno (heq ▸ h.2.2)
  | @window i b l hib _ htot hall _ _ ih =>
    rw [exists_mem_cons_iff, ih]
    constructor
    · rintro (⟨hij, hjb⟩ | ⟨hbj, hlack⟩)
      · exact ⟨hij, by omega, hall j hij hjb⟩
      · exact ⟨by omega, hlack⟩
    · rintro ⟨hij, hlack⟩
      rcases lt_or_ge j b with hjb | hbj
      · exact .inl ⟨hij, hjb⟩
      · exact .inr ⟨hbj, hlack⟩

/-- The pieces of a run are its ranges. -/
theorem splitRun_append {e : Nat} (he : e ≤ total) (hend : e = total ∨ ¬ lacking e)
    (h : Ranges lacking total e l) (fuel : Nat) :
    ∀ s, s < e → e - s ≤ fuel → (∀ j, s ≤ j → j < e → lacking j) →
      Ranges lacking total s (splitRun e fuel s ++ l) := by
  induction fuel with
  | zero => exact fun s hs hfuel => absurd hfuel (by omega)
  | succ fuel ih =>
    intro s hs hfuel hall
    rw [splitRun, if_pos hs, cons_append]
    have hpos : 0 < maxRangeChunks := by decide
    rcases lt_or_ge (s + maxRangeChunks) e with hlt | hge
    · rw [Nat.min_eq_left hlt.le]
      refine .window (by omega) (le_rfl) (by omega) (fun j hj hjb => hall j hj (by omega))
        (.inl rfl) (ih _ hlt (by omega) fun j hj hjb => hall j (by omega) hjb)
    · have hnone : splitRun e fuel (s + maxRangeChunks) = [] := by
        cases fuel with
        | zero => rfl
        | succ fuel => rw [splitRun, if_neg (not_lt.mpr hge)]
      rw [Nat.min_eq_right hge, hnone, nil_append]
      exact .window hs hge he hall (.inr hend) h

end Ranges

/-- A pass of the loop that lists what is lacking below `total`: the start of the run it is in, and
the ranges so far. A run is cut into pieces where it ends. -/
structure Passes (lacking : Nat → Prop) (total : Nat)
    (pass : Option Nat × List (Nat × Nat) → Nat → Option Nat × List (Nat × Nat)) : Prop where
  lacks : ∀ acc i, i < total ∧ lacking i → pass acc i = (some (acc.1.getD i), acc.2)
  ends : ∀ acc i, ¬ (i < total ∧ lacking i) →
    pass acc i = (none, acc.2 ++ acc.1.elim [] fun s => splitRun i (i - s) s)

namespace Passes

variable {lacking : Nat → Prop} {total : Nat}
  {pass : Option Nat × List (Nat × Nat) → Nat → Option Nat × List (Nat × Nat)}

/-- The loop from an index on, outside a run and inside one: it adds the ranges from there, or from
the start of the run. -/
theorem foldl (h : Passes lacking total pass) (n : Nat) :
    (∀ i acc, i + n = total + 1 → ∃ l, Ranges lacking total i l ∧
      ((List.range' i n).foldl pass (none, acc)).2 = acc ++ l) ∧
    (∀ i s acc, i + n = total + 1 → 0 < n → s < i → (∀ j, s ≤ j → j < i → lacking j) →
      ∃ l, Ranges lacking total s l ∧
        ((List.range' i n).foldl pass (some s, acc)).2 = acc ++ l) := by
  induction n with
  | zero =>
    refine ⟨fun i acc hi => ⟨[], .stop (by omega), by simp⟩, fun i s acc _ hpos => ?_⟩
    exact absurd hpos (lt_irrefl 0)
  | succ n ih =>
    obtain ⟨hout, hin⟩ := ih
    -- what is left when an index is not lacking
    have hrest : ∀ i acc, i + (n + 1) = total + 1 → ¬ (i < total ∧ lacking i) →
        ∃ l, Ranges lacking total i l ∧
          ((List.range' (i + 1) n).foldl pass (none, acc)).2 = acc ++ l := by
      intro i acc hi hno
      obtain ⟨l, hl, heq⟩ := hout (i + 1) acc (by omega)
      refine ⟨l, ?_, heq⟩
      rcases lt_or_ge i total with hlt | hge
      · exact .skip hlt (fun hlack => hno ⟨hlt, hlack⟩) hl
      · have hnil := (hl.nil_iff).mpr fun j hj hlt => by omega
        rw [hnil]
        exact .stop hge
    constructor
    · intro i acc hi
      rw [range'_succ, foldl_cons]
      by_cases hlack : i < total ∧ lacking i
      · rw [h.lacks _ _ hlack]
        refine hin (i + 1) i acc (by omega) (by omega) (by omega) fun j hj hji => ?_
        have heq : j = i := by omega
        exact heq ▸ hlack.2
      · rw [h.ends _ _ hlack, Option.elim_none, append_nil]
        exact hrest i acc hi hlack
    · intro i s acc hi _ hsi hall
      rw [range'_succ, foldl_cons]
      by_cases hlack : i < total ∧ lacking i
      · rw [h.lacks _ _ hlack]
        refine hin (i + 1) s acc (by omega) (by omega) (by omega) fun j hj hji => ?_
        rcases lt_or_ge j i with hlt | hge
        · exact hall j hj hlt
        · have heq : j = i := by omega
          exact heq ▸ hlack.2
      · obtain ⟨l, hl, heq⟩ := hrest i (acc ++ splitRun i (i - s) s) hi hlack
        rw [h.ends _ _ hlack, Option.elim_some, heq]
        refine ⟨splitRun i (i - s) s ++ l, ?_, append_assoc _ _ _⟩
        refine Ranges.splitRun_append (by omega) ?_ hl (i - s) s hsi (le_rfl) hall
        rcases lt_or_ge i total with hlt | hge
        · exact .inr fun h => hlack ⟨hlt, h⟩
        · exact .inl (by omega)

theorem ranges (h : Passes lacking total pass) :
    Ranges lacking total 0 ((List.range (total + 1)).foldl pass (none, [])).2 := by
  obtain ⟨l, hl, heq⟩ := (h.foldl (total + 1)).1 0 [] (Nat.zero_add _)
  rw [range_eq_range', heq]
  exact hl

end Passes

namespace DropReceiverCore

variable {r : DropReceiverCore}

theorem passes_missingPass (r : DropReceiverCore) :
    Passes (fun j => j ∉ r.held) r.total r.missingPass where
  lacks := by
    rintro ⟨start, acc⟩ i ⟨hlt, hno⟩
    cases start <;> simp [missingPass, hlt, hno]
  ends := by
    rintro ⟨start, acc⟩ i hno
    have hfalse : (decide (i < r.total) && !decide (i ∈ r.held)) = false := by
      rw [Bool.eq_false_iff]
      simpa using hno
    cases start <;> simp [missingPass, hfalse]

/-- The receiver asks for the ranges of what it does not hold. -/
theorem missingRanges_ranges (r : DropReceiverCore) :
    Ranges (fun j => j ∉ r.held) r.total 0 r.missingRanges :=
  r.passes_missingPass.ranges

theorem missingRanges_eq_iff {l : List (Nat × Nat)} :
    r.missingRanges = l ↔ Ranges (fun j => j ∉ r.held) r.total 0 l :=
  ⟨fun h => h ▸ r.missingRanges_ranges, fun h => r.missingRanges_ranges.unique h⟩

end DropReceiverCore

end Telesthete.Drop
