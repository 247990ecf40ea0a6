import Telesthete.Board.Cluster
import Telesthete.Lib.Lww

/-!
# Copies of a Board converge

What an endpoint holds for a key is the newest of what it has seen for it. A
merge keeps that by its own comparison; a local write does not compare, and
keeps it because the clock is never behind anything seen (`Endpoint.Sound`).
Two endpoints that have seen the same then hold the same, if no two writes to a
key have the same timestamp. They do not as long as whoever writes is ahead of
its own earlier writes (`Cluster.Ahead`), and so it is when each hostname
stands for one endpoint (`Cluster.Distinct`).
-/

namespace Telesthete.Board

open Telesthete.Lib List

variable {V : Type} {checks : Bool}

/-- What is held is the newest of what was seen, and the clock is up to it. -/
structure Endpoint.Sound (ep : Endpoint V) : Prop where
  newest : ∀ key, Newest SetPayload.key SetPayload.ts ep.seen key (ep.core.held key)
  clock : ∀ p ∈ ep.seen, p.ts.lamport.toNat ≤ ep.core.lamport.toNat

namespace Endpoint.Sound

variable {ep : Endpoint V} {p : SetPayload V}
variable {key : String}

theorem new (actor : String) : Endpoint.Sound (⟨.new actor, []⟩ : Endpoint V) where
  newest key := by
    rw [BoardCore.held_new]
    exact newest_nil
  clock p hp := absurd hp not_mem_nil

/-- A write of the next clock is newer than all that was seen. -/
theorem lt_of_write {b' : BoardCore V} {value : Option V} {deleted : Bool}
    (h : ep.Sound) (hlt : ep.core.lamport.toNat < 2 ^ 64 - 1)
    (hwrite : ep.core.write checks key value deleted = some (b', p)) :
    ∀ q ∈ ep.seen, q.ts < p.ts := by
  intro q hq
  have hnext := BoardCore.lamport_of_write hlt hwrite
  obtain ⟨-, -, rfl, -⟩ := BoardCore.write_eq_some hwrite
  have hclock := h.clock q hq
  refine Ts.lt_of_lamport_lt ?_
  show q.ts.lamport.toNat < b'.lamport.toNat
  omega

theorem write {b' : BoardCore V} {value : Option V} {deleted : Bool}
    (h : ep.Sound) (hlt : ep.core.lamport.toNat < 2 ^ 64 - 1)
    (hwrite : ep.core.write checks key value deleted = some (b', p)) :
    Endpoint.Sound ⟨b', ep.seen ++ [p]⟩ := by
  have hnewer := h.lt_of_write hlt hwrite
  obtain ⟨-, -, hp, hheld⟩ := BoardCore.write_eq_some hwrite
  have hkey : p.key = key := by rw [hp]
  have hts : p.ts.lamport = b'.lamport := by rw [hp]
  refine ⟨fun k => ?_, fun q hq => ?_⟩
  · show Newest _ _ (ep.seen ++ [p]) k (b'.held k)
    rw [hheld]
    split
    · next hk =>
      rw [hk, ← hkey]
      exact newest_append_self fun q hq _ => le_of_lt (hnewer q hq)
    · next hk =>
      refine (h.newest k).append_of_ne ?_
      rw [hkey]
      exact fun hk' => hk hk'.symm
  · show q.ts.lamport.toNat ≤ b'.lamport.toNat
    rw [← hts]
    rcases mem_append.mp hq with hold | hnew
    · exact Ts.lamport_le (le_of_lt (hnewer q hold))
    · rw [mem_singleton.mp hnew]

theorem mergeEntry (h : ep.Sound) (p : SetPayload V) :
    Endpoint.Sound ⟨(ep.core.mergeEntry p).1, ep.seen ++ [p]⟩ := by
  have hmax : (ep.core.mergeEntry p).1.lamport.toNat =
      max ep.core.lamport.toNat p.ts.lamport.toNat := by
    rw [BoardCore.mergeEntry_lamport, UInt64.toNat_max]
  refine ⟨fun k => ?_, fun q hq => ?_⟩
  · show Newest _ _ (ep.seen ++ [p]) k ((ep.core.mergeEntry p).1.held k)
    rcases BoardCore.mergeEntry_cases ep.core p with
      ⟨-, ⟨q, hq, hle⟩, hheld⟩ | ⟨-, hlt, hheld⟩
    · rw [hheld]
      by_cases hk : p.key = k
      · -- the entry that is there is at least as new
        have hnewest := h.newest k
        rw [← hk, hq] at hnewest
        rw [← hk, hq]
        exact hnewest.append_of_le hle
      · exact (h.newest k).append_of_ne hk
    · rw [hheld]
      split
      · next hk =>
        rw [hk]
        refine newest_append_self fun q hq hqk => ?_
        have hnewest := h.newest p.key
        cases hcur : ep.core.held p.key with
        | none =>
          rw [hcur] at hnewest
          exact absurd hqk (hnewest q hq)
        | some cur =>
          rw [hcur] at hnewest
          exact le_trans (hnewest.2.2 q hq hqk) (le_of_lt (hlt cur hcur))
      · next hk => exact (h.newest k).append_of_ne fun hk' => hk hk'.symm
  · show q.ts.lamport.toNat ≤ (ep.core.mergeEntry p).1.lamport.toNat
    rw [hmax]
    rcases mem_append.mp hq with hold | hnew
    · exact le_max_of_le_left (h.clock q hold)
    · rw [mem_singleton.mp hnew]
      exact le_max_right _ _

theorem mergeSnapshot (entries : List (SetPayload V)) :
    ∀ {ep : Endpoint V}, ep.Sound →
      Endpoint.Sound ⟨ep.core.mergeSnapshot entries, ep.seen ++ entries⟩ := by
  induction entries with
  | nil =>
    intro ep h
    rw [append_nil]
    exact h
  | cons p entries ih =>
    intro ep h
    have hrest := ih (h.mergeEntry p)
    rw [append_assoc] at hrest
    exact hrest

/-- Everything held was seen. -/
theorem mem_seen (h : ep.Sound) (hheld : ep.core.held key = some p) :
    p ∈ ep.seen := by
  have hnewest := h.newest key
  rw [hheld] at hnewest
  exact hnewest.1

end Endpoint.Sound

namespace Cluster

variable {c c' : Cluster V} {e : Event V}

/-- Who writes has not reached the greatest clock, and is not behind what was
written before under its name. -/
def Ahead (c : Cluster V) (e : Event V) : Prop :=
  ∀ ep, e.writer c = some ep → ep.core.lamport.toNat < 2 ^ 64 - 1 ∧
    ∀ p ∈ c.written, p.ts.actor = ep.core.actor → p.ts.lamport.toNat ≤ ep.core.lamport.toNat

structure Inv (c : Cluster V) : Prop where
  sound : ∀ ep ∈ c.endpoints, ep.Sound
  seen : ∀ ep ∈ c.endpoints, ∀ p ∈ ep.seen, p ∈ c.written
  snapshots : ∀ s ∈ c.snapshots, ∀ p ∈ s, p ∈ c.written
  unique : ∀ p ∈ c.written, ∀ q ∈ c.written, p.key = q.key → p.ts = q.ts → p = q

namespace Inv

variable {ep : Endpoint V}

theorem empty : Inv (empty : Cluster V) where
  sound := fun _ h => absurd h not_mem_nil
  seen := fun _ h => absurd h not_mem_nil
  snapshots := fun _ h => absurd h not_mem_nil
  unique := fun _ h => absurd h not_mem_nil

theorem mem_written_of_snapshot (h : Inv c) (hep : ep ∈ c.endpoints)
    {p : SetPayload V} (hp : p ∈ ep.core.snapshot) : p ∈ c.written :=
  h.seen ep hep p ((h.sound ep hep).mem_seen (BoardCore.mem_snapshot.mp hp))

theorem wrote (h : Inv c) {i : Nat} {key : String} {value : Option V}
    {deleted : Bool} {r : BoardCore V × SetPayload V} (hep : c.endpoints[i]? = some ep)
    (hlt : ep.core.lamport.toNat < 2 ^ 64 - 1)
    (hahead : ∀ p ∈ c.written, p.ts.actor = ep.core.actor →
      p.ts.lamport.toNat ≤ ep.core.lamport.toNat)
    (hwrite : ep.core.write checks key value deleted = some r) : Inv (c.wrote i ep r) := by
  obtain ⟨b', p⟩ := r
  have hmem : ep ∈ c.endpoints := mem_of_getElem? hep
  have hsound := (h.sound ep hmem).write hlt hwrite
  -- nothing was written with this timestamp before
  have hfresh : ∀ q ∈ c.written, q.ts ≠ p.ts := by
    intro q hq hts
    have hnext := BoardCore.lamport_of_write hlt hwrite
    obtain ⟨-, -, hp, -⟩ := BoardCore.write_eq_some hwrite
    have hle := hahead q hq (by rw [hts, hp])
    rw [hts, hp] at hle
    have hle' : b'.lamport.toNat ≤ ep.core.lamport.toNat := hle
    omega
  refine ⟨fun ep' hep' => ?_, fun ep' hep' q hq => ?_, fun s hs q hq => ?_, ?_⟩
  · rcases mem_or_eq_of_mem_set hep' with hold | rfl
    · exact h.sound ep' hold
    · exact hsound
  · rcases mem_or_eq_of_mem_set hep' with hold | rfl
    · exact mem_append_left _ (h.seen ep' hold q hq)
    · rcases mem_append.mp hq with hq | hq
      · exact mem_append_left _ (h.seen ep hmem q hq)
      · exact mem_append_right _ hq
  · exact mem_append_left _ (h.snapshots s hs q hq)
  · intro q hq q' hq' hkey hts
    rcases mem_append.mp hq with hq | hq <;> rcases mem_append.mp hq' with hq' | hq'
    · exact h.unique q hq q' hq' hkey hts
    · rw [mem_singleton.mp hq'] at hts
      exact absurd hts (hfresh q hq)
    · rw [mem_singleton.mp hq] at hts
      exact absurd hts.symm (hfresh q' hq')
    · rw [mem_singleton.mp hq, mem_singleton.mp hq']

theorem merged (h : Inv c) {i : Nat} {entries : List (SetPayload V)}
    (hep : c.endpoints[i]? = some ep) (hentries : ∀ p ∈ entries, p ∈ c.written) :
    Inv (c.merged i ep entries) := by
  have hmem : ep ∈ c.endpoints := mem_of_getElem? hep
  refine ⟨fun ep' hep' => ?_, fun ep' hep' q hq => ?_, h.snapshots, h.unique⟩
  · rcases mem_or_eq_of_mem_set hep' with hold | rfl
    · exact h.sound ep' hold
    · exact Endpoint.Sound.mergeSnapshot entries (h.sound ep hmem)
  · rcases mem_or_eq_of_mem_set hep' with hold | rfl
    · exact h.seen ep' hold q hq
    · rcases mem_append.mp hq with hq | hq
      · exact h.seen ep hmem q hq
      · exact hentries q hq

theorem step (h : Inv c) (hok : Ahead c e) (hstep : c.step checks e = some c') : Inv c' := by
  cases steps_of_step hstep with
  | opened actor he =>
    exact ⟨forall_mem_snoc h.sound (.new actor),
      forall_mem_snoc h.seen fun p hp => absurd hp not_mem_nil, h.snapshots, h.unique⟩
  | wrote i ep key value deleted r hep hwriter hwrite =>
    obtain ⟨hlt, hahead⟩ := hok ep hwriter
    exact h.wrote hep hlt hahead hwrite
  | took i ep hep =>
    exact ⟨h.sound, h.seen, forall_mem_snoc h.snapshots fun p hp =>
      h.mem_written_of_snapshot (mem_of_getElem? hep) hp, h.unique⟩
  | merged i ep entries hep hfrom =>
    refine h.merged hep ?_
    rcases hfrom with ⟨p, hp, rfl⟩ | hs
    · intro q hq
      rw [mem_singleton.mp hq]
      exact hp
    · exact h.snapshots entries hs

end Inv

/-! ### One endpoint for each hostname -/

/-- An endpoint is created under a name of its own, and does not write at the
greatest clock. -/
def Distinct (c : Cluster V) (e : Event V) : Prop :=
  (∀ actor, e = .new actor → ∀ ep ∈ c.endpoints, ep.core.actor ≠ actor) ∧
    ∀ ep, e.writer c = some ep → ep.core.lamport.toNat < 2 ^ 64 - 1

/-- What was written under a name, the endpoint of that name wrote. -/
structure Owned (c : Cluster V) : Prop where
  names : (c.endpoints.map (·.core.actor)).Nodup
  writers : ∀ p ∈ c.written, ∃ ep ∈ c.endpoints, ep.core.actor = p.ts.actor
  clocks : ∀ ep ∈ c.endpoints, ∀ p ∈ c.written, p.ts.actor = ep.core.actor →
    p.ts.lamport.toNat ≤ ep.core.lamport.toNat

namespace Owned

variable {i : Nat} {ep : Endpoint V}

theorem ahead (h : Owned c) (hok : Distinct c e) : Ahead c e := by
  intro ep hwriter
  refine ⟨hok.2 ep hwriter, h.clocks ep ?_⟩
  cases e with
  | set i key value => exact mem_of_getElem? hwriter
  | delete i key => exact mem_of_getElem? hwriter
  | new _ | snapshot _ | deliver _ _ | deliverSnapshot _ _ => cases hwriter

/-- An endpoint goes on under its name with a clock that is not behind. -/
theorem set (h : Owned c) {ep ep' : Endpoint V} (hep : c.endpoints[i]? = some ep)
    (hactor : ep'.core.actor = ep.core.actor)
    (hclock : ep.core.lamport.toNat ≤ ep'.core.lamport.toNat) :
    Owned { c with endpoints := c.endpoints.set i ep' } := by
  have hmem : ep ∈ c.endpoints := mem_of_getElem? hep
  have hnames : (c.endpoints.set i ep').map (·.core.actor) = c.endpoints.map (·.core.actor) := by
    have hget : (c.endpoints.map (·.core.actor))[i]? = some ep.core.actor := by
      rw [getElem?_map, hep]
      rfl
    obtain ⟨hi, heq⟩ := List.getElem?_eq_some_iff.mp hget
    rw [map_set, hactor, ← heq, set_getElem_self]
  refine ⟨?_, fun p hp => ?_, fun ep₁ hep₁ p hp hname => ?_⟩
  · show ((c.endpoints.set i ep').map (·.core.actor)).Nodup
    rw [hnames]
    exact h.names
  · obtain ⟨ep₁, hep₁, hname⟩ := h.writers p hp
    have hin : ep₁.core.actor ∈ (c.endpoints.set i ep').map (·.core.actor) := by
      rw [hnames]
      exact mem_map_of_mem hep₁
    obtain ⟨ep₂, hep₂, hname₂⟩ := mem_map.mp hin
    exact ⟨ep₂, hep₂, hname₂.trans hname⟩
  · rcases mem_or_eq_of_mem_set hep₁ with hold | rfl
    · exact h.clocks ep₁ hold p hp hname
    · exact le_trans (h.clocks ep hmem p hp (hname.trans hactor)) hclock

theorem wrote (h : Owned c) {key : String} {value : Option V}
    {deleted : Bool} {r : BoardCore V × SetPayload V} (hep : c.endpoints[i]? = some ep)
    (hlt : ep.core.lamport.toNat < 2 ^ 64 - 1)
    (hwrite : ep.core.write checks key value deleted = some r) : Owned (c.wrote i ep r) := by
  obtain ⟨b', p⟩ := r
  have hnext := BoardCore.lamport_of_write hlt hwrite
  obtain ⟨-, hactor, hp, -⟩ := BoardCore.write_eq_some hwrite
  have hset : Owned { c with endpoints := c.endpoints.set i ⟨b', ep.seen ++ [p]⟩ } :=
    h.set hep hactor (by show _ ≤ b'.lamport.toNat; omega)
  have hi : i < c.endpoints.length := (List.getElem?_eq_some_iff.mp hep).1
  have hwriter : (⟨b', ep.seen ++ [p]⟩ : Endpoint V) ∈
      c.endpoints.set i ⟨b', ep.seen ++ [p]⟩ := mem_set hi _
  have hname : p.ts.actor = b'.actor := by rw [hp, hactor]
  refine ⟨hset.names, forall_mem_snoc hset.writers ⟨_, hwriter, hname.symm⟩, fun ep₁ hep₁ =>
    forall_mem_snoc (hset.clocks ep₁ hep₁) fun hq₁ => ?_⟩
  -- only the writer itself has that name
  have hself : ep₁ = ⟨b', ep.seen ++ [p]⟩ :=
    inj_on_of_nodup_map hset.names hep₁ hwriter (hq₁.symm.trans hname)
  rw [hself, hp]

theorem merged (h : Owned c) {entries : List (SetPayload V)}
    (hep : c.endpoints[i]? = some ep) : Owned (c.merged i ep entries) := by
  obtain ⟨hactor, hclock⟩ := BoardCore.mergeSnapshot_actor_lamport entries ep.core
  exact h.set hep hactor hclock

theorem step (h : Owned c) (hok : Distinct c e) (hstep : c.step checks e = some c') :
    Owned c' := by
  cases steps_of_step hstep with
  | opened actor he =>
    have hnew := hok.1 actor he
    refine ⟨?_, fun p hp => ?_, fun ep hep p hp hname => ?_⟩
    · rw [map_append]
      refine nodup_append.mpr ⟨h.names, nodup_singleton _, ?_⟩
      intro name hname other hother
      obtain ⟨ep, hep, rfl⟩ := mem_map.mp hname
      rw [mem_singleton.mp hother]
      exact hnew ep hep
    · obtain ⟨ep, hep, hname⟩ := h.writers p hp
      exact ⟨ep, mem_append_left _ hep, hname⟩
    · rcases mem_append.mp hep with hold | hnew'
      · exact h.clocks ep hold p hp hname
      · -- nobody has written under the new name
        rw [mem_singleton.mp hnew'] at hname
        obtain ⟨ep₁, hep₁, hname₁⟩ := h.writers p hp
        exact absurd (hname₁.trans hname) (hnew ep₁ hep₁)
  | wrote i ep key value deleted r hep hwriter hwrite =>
    exact h.wrote hep (hok.2 ep hwriter) hwrite
  | took i ep hep => exact ⟨h.names, h.writers, h.clocks⟩
  | merged i ep entries hep hfrom => exact h.merged hep

theorem empty : Owned (Cluster.empty : Cluster V) where
  names := nodup_nil
  writers := fun _ h => absurd h not_mem_nil
  clocks := fun _ h => absurd h not_mem_nil

end Owned

theorem inv_of_distinct (h : GuardedRun (Cluster.step checks) Distinct Cluster.empty c) : Inv c := by
  have hboth : Inv c ∧ Owned c := by
    refine h.invariant (P := fun c => Inv c ∧ Owned c) ⟨Inv.empty, Owned.empty⟩ ?_
    rintro c e c' ⟨hinv, howned⟩ hok hstep
    exact ⟨hinv.step (howned.ahead hok) hstep, howned.step hok hstep⟩
  exact hboth.1

end Cluster

/-- The same entries, and the same digest. -/
def Converged (b b' : BoardCore V) : Prop :=
  b.entries = b'.entries ∧ ∀ sha256, b.digest sha256 = b'.digest sha256

namespace Endpoint.Sound

variable {a b : Endpoint V}

theorem snapshot_subset (h : a.Sound) : a.core.snapshot ⊆ a.seen :=
  fun _ hp => h.mem_seen (BoardCore.mem_snapshot.mp hp)

/-- A snapshot stands for all that was seen. -/
theorem dominated_snapshot (h : a.Sound) :
    Dominated SetPayload.key SetPayload.ts a.seen a.core.snapshot := by
  refine dominated_of_newest fun key => ⟨_, h.newest key, fun p hp => ?_⟩
  have hkey := BoardCore.key_of_held hp
  exact BoardCore.mem_snapshot.mpr (hkey ▸ hp)

theorem converged (ha : a.Sound) (hb : b.Sound)
    (hle : Dominated SetPayload.key SetPayload.ts a.seen b.seen)
    (hge : Dominated SetPayload.key SetPayload.ts b.seen a.seen)
    (hunique : ∀ p ∈ a.seen, ∀ q ∈ b.seen, p.key = q.key → p.ts = q.ts → p = q) :
    Converged a.core b.core := by
  have hentries : a.core.entries = b.core.entries :=
    BoardCore.entries_eq_of_held fun key =>
      (ha.newest key).eq_of_dominated (hb.newest key) hle hge hunique
  exact ⟨hentries, fun sha256 => by rw [BoardCore.digest, BoardCore.digest, hentries]⟩

end Endpoint.Sound

/-- In every run of endpoints with hostnames of their own, each endpoint holds
for every key the newest of what it wrote or received. Two that wrote or
received the same, or that merge each other's snapshots, agree; the second
snapshot may be taken before or after the first one is merged. -/
theorem newest_held_and_converged {c : Cluster V}
    (h : GuardedRun (Cluster.step checks) Cluster.Distinct Cluster.empty c) :
    (∀ ep ∈ c.endpoints, ∀ key,
      Newest SetPayload.key SetPayload.ts ep.seen key (ep.core.held key)) ∧
    (∀ a ∈ c.endpoints, ∀ b ∈ c.endpoints, (∀ p, p ∈ a.seen ↔ p ∈ b.seen) →
      Converged a.core b.core) ∧
    ∀ a ∈ c.endpoints, ∀ b ∈ c.endpoints,
      Converged (a.core.mergeSnapshot b.core.snapshot) (b.core.mergeSnapshot a.core.snapshot) ∧
      Converged (a.core.mergeSnapshot b.core.snapshot)
        (b.core.mergeSnapshot (a.core.mergeSnapshot b.core.snapshot).snapshot) := by
  have hinv := Cluster.inv_of_distinct h
  refine ⟨fun ep hep => (hinv.sound ep hep).newest, fun a ha b hb hsame => ?_,
    fun a ha b hb => ?_⟩
  · exact (hinv.sound a ha).converged (hinv.sound b hb)
      (dominated_of_subset fun p hp => (hsame p).mp hp)
      (dominated_of_subset fun p hp => (hsame p).mpr hp)
      fun p hp q hq => hinv.unique p (hinv.seen a ha p hp) q (hinv.seen b hb q hq)
  · have hsa := hinv.sound a ha
    have hsb := hinv.sound b hb
    have hsa' := Endpoint.Sound.mergeSnapshot b.core.snapshot hsa
    have hseen : ∀ p ∈ a.seen ++ b.core.snapshot, p ∈ c.written := by
      intro p hp
      rcases mem_append.mp hp with hp | hp
      · exact hinv.seen a ha p hp
      · exact hinv.mem_written_of_snapshot hb hp
    have hfromB : Dominated SetPayload.key SetPayload.ts b.seen (a.seen ++ b.core.snapshot) :=
      hsb.dominated_snapshot.mono (subset_append_right _ _)
    constructor
    · refine hsa'.converged (Endpoint.Sound.mergeSnapshot a.core.snapshot hsb) ?_ ?_ ?_
      · exact (hsa.dominated_snapshot.mono (subset_append_right _ _)).append
          (dominated_of_subset fun p hp => mem_append_left _ (hsb.snapshot_subset hp))
      · exact hfromB.append
          (dominated_of_subset fun p hp => mem_append_left _ (hsa.snapshot_subset hp))
      · intro p hp q hq
        refine hinv.unique p (hseen p hp) q ?_
        rcases mem_append.mp hq with hq | hq
        · exact hinv.seen b hb q hq
        · exact hinv.mem_written_of_snapshot ha hq
    · refine hsa'.converged (Endpoint.Sound.mergeSnapshot _ hsb) ?_ ?_ ?_
      · exact hsa'.dominated_snapshot.mono (subset_append_right _ _)
      · exact hfromB.append (dominated_of_subset hsa'.snapshot_subset)
      · intro p hp q hq
        refine hinv.unique p (hseen p hp) q ?_
        rcases mem_append.mp hq with hq | hq
        · exact hinv.seen b hb q hq
        · exact hseen q (hsa'.snapshot_subset hq)

/-! ### Two endpoints that write the same keys -/

/-- The condition of `Cluster.Distinct`, checked. -/
def checkDistinct (c : Cluster V) (e : Cluster.Event V) : Bool :=
  (match e with
    | .new actor => c.endpoints.all (·.core.actor ≠ actor)
    | _ => true) &&
    (e.writer c).all (·.core.lamport.toNat < 2 ^ 64 - 1)

theorem distinct_of_check (c : Cluster V) (e : Cluster.Event V) (h : checkDistinct c e = true) :
    c.Distinct e := by
  obtain ⟨hnew, hwriter⟩ := (Bool.and_eq_true _ _).mp h
  constructor
  · rintro actor rfl ep hep
    exact of_decide_eq_true (all_eq_true.mp hnew ep hep)
  · intro ep hep
    rw [hep] at hwriter
    exact of_decide_eq_true hwriter

/-- Both write `k`, one of them deletes it, and each gets the other's SETs, in
another order and one of them twice. -/
def crossing : List (Cluster.Event Nat) :=
  [.new "ada", .new "bob", .set 0 "k" (some 1), .set 1 "k" (some 2), .set 1 "l" (some 3),
    .deliver 0 2, .delete 0 "k", .deliver 1 3, .deliver 1 0, .deliver 1 3, .deliver 0 1]

theorem newest_held_and_converged_crossing : ∃ c a b,
    play (Cluster.step true) checkDistinct Cluster.empty (crossing.map fun e _ => e) = some c ∧
      c.endpoints = [a, b] ∧ a.seen ≠ b.seen ∧
      a.core.held "k" = some ⟨"k", none, ⟨3, "ada"⟩, true⟩ ∧ Converged a.core b.core := by
  have hall : (play (Cluster.step true) checkDistinct Cluster.empty
      (crossing.map fun e _ => e)).any (fun c => c.endpoints.length = 2 ∧
        c.endpoints.Pairwise fun a b => (a.seen ⊆ b.seen ∧ b.seen ⊆ a.seen) ∧ a.seen ≠ b.seen ∧
          a.core.held "k" = some ⟨"k", none, ⟨3, "ada"⟩, true⟩) = true := by
    decide +kernel
  obtain ⟨c, hplay, htwo, hpair⟩ := some_of_any hall
  obtain ⟨a, b, hends⟩ := length_eq_two.mp htwo
  rw [hends, pairwise_pair] at hpair
  obtain ⟨⟨hsub, hsup⟩, hne, hheld⟩ := hpair
  refine ⟨c, a, b, hplay, hends, hne, hheld, ?_⟩
  exact (newest_held_and_converged (guardedRun_play distinct_of_check hplay)).2.1
    a (by rw [hends]; simp) b (by rw [hends]; simp) fun p => ⟨fun h => hsub h, fun h => hsup h⟩

end Telesthete.Board
