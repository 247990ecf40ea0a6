import Mathlib.Data.List.MinMax
import Telesthete.Proofs.ControlReplay
import Telesthete.Proofs.LivePeer

/-!
# How large the per-peer maps get

Six maps have an entry per address. The control task's watermarks are pruned
to the registry when they pass the cap, its epochs are those of addresses
with a watermark, and the registry evicts an entry before it takes one more:
these three stay within the cap whatever arrives.

The transport's three do not. An address has keys there from its HELLO and a
`last_seen` time from its first authenticated packet, and loses them by a
GOODBYE or when the keepalive loop finds it dead in the registry. An address
that the full registry evicted is not in it any more, and one that never
greeted never was, so nothing takes their entries out: a HELLO that is
replayed from one spoofed address after the other leaves three entries each
time. What bounds these maps is only the number of addresses that
authenticated packets came from.
-/

namespace Telesthete.Band

open Telesthete.Lib Telesthete.Crypto Telesthete.Wire List Option

variable {m m' : Band} {e : Event}
variable {cfg : ControlConfig} {pkt : Inbound} {g : Greeting} {effect : Effect}
variable {i : Nat} {addr : SocketAddr} {st : PeerState} {t : ControlTask} {addrs : List SocketAddr}

/-- The entries of all six maps. -/
def peerEntries (m : Band) : Nat :=
  m.control.watermark.entries.length + m.control.sessions.entries.length +
    m.peers.entries.length + m.transport.peerKeys.entries.length +
    m.transport.sendKeys.entries.length + m.transport.lastSeen.entries.length

/-! ## The control task's maps -/

namespace ControlTask

variable {cfg : ControlConfig} {t : ControlTask} {pkt : Inbound} {r : ControlTask × List Effect}
  {live : SocketAddr → Bool}

/-- Every committed epoch has a watermark beside it. -/
def Paired (t : ControlTask) : Prop := ∀ a ∈ t.sessions, a ∈ t.watermark

theorem Paired.prune (h : Paired t) : Paired (t.prune live) := by
  unfold ControlTask.prune
  split
  · intro a ha
    obtain ⟨hlive, hmem⟩ := mem_retain.mp ha
    exact mem_retain.mpr ⟨hlive, h a hmem⟩
  · exact h

theorem Paired.advance (h : Paired t) (addr : SocketAddr) (seq : Nat) :
    Paired (t.advance addr seq) :=
  fun a ha => (AList.mem_insert _).mpr (.inr (h a ha))

theorem Paired.restart_advance (h : Paired t) (addr : SocketAddr) (session : UInt64) (seq : Nat) :
    Paired ((t.restart addr session).advance addr seq) := by
  intro a ha
  rcases (AList.mem_insert _).mp ha with rfl | hold
  · exact (AList.mem_insert _).mpr (.inl rfl)
  · by_cases heq : a = addr
    · exact (AList.mem_insert _).mpr (.inl heq)
    · exact (AList.mem_insert _).mpr (.inr (AList.mem_erase.mpr ⟨heq, h a hold⟩))

theorem Paired.forget (h : Paired t) (addr : SocketAddr) : Paired (t.forget addr) := by
  intro a ha
  obtain ⟨hne, hmem⟩ := AList.mem_erase.mp ha
  exact AList.mem_erase.mpr ⟨hne, h a hmem⟩

theorem length_erase_le {β : SocketAddr → Type} (s : AList β) (addr : SocketAddr) :
    (s.erase addr).entries.length ≤ s.entries.length :=
  length_entries_le fun _ ha => (AList.mem_erase.mp ha).2

/-- A packet adds at most one watermark, and its epoch only with it. -/
theorem Handled.size (h : Handled cfg t pkt r) (hpaired : Paired t) :
    Paired r.1 ∧ r.1.watermark.entries.length ≤ t.watermark.entries.length + 1 := by
  cases h with
  | drop => exact ⟨hpaired, Nat.le_succ _⟩
  | restart henv hhand hg hnewer =>
    refine ⟨hpaired.restart_advance _ _ _, ?_⟩
    exact length_entries_insert_le.trans (Nat.succ_le_succ (length_erase_le _ _))
  | refresh henv hhand hg hsame hfresh =>
    exact ⟨hpaired.advance _ _, length_entries_insert_le⟩
  | @other env henv hhand hfresh =>
    have hadvance := hpaired.advance pkt.source pkt.header.sequence
    rcases receive_cases (t.advance pkt.source pkt.header.sequence) pkt env with
      ⟨-, hr⟩ | ⟨-, hr | ⟨ev, hr⟩⟩ <;> rw [hr]
    · exact ⟨hadvance.forget _, (length_erase_le _ _).trans length_entries_insert_le⟩
    · exact ⟨hadvance, length_entries_insert_le⟩
    · exact ⟨hadvance, length_entries_insert_le⟩

/-- The prune leaves no more watermarks than the cap, if the live addresses are within it. -/
theorem length_prune_le (peers : AList fun _ : SocketAddr => PeerState)
    (hlive : ∀ a, live a = true → a ∈ peers) (hpeers : peers.entries.length ≤ peerMapSoftCap) :
    (t.prune live).watermark.entries.length ≤ peerMapSoftCap := by
  unfold prune
  split
  · refine le_trans (length_entries_le fun a ha => ?_) hpeers
    exact hlive a (mem_retain.mp ha).1
  · next hle => exact not_lt.mp hle

end ControlTask

/-! ## The registry -/

/-- The effects of a greeting make room right before they insert. -/
theorem Greeting.welcome_room (h : (g.welcome cfg pkt)[i]? = some (.insertPeer addr st)) :
    ∃ j, i = j + 1 ∧ (g.welcome cfg pkt)[j]? = some (.makeRoom addr) := by
  unfold welcome at h ⊢
  rcases i with - | - | - | - | i
  · simp at h
  · simp at h
  · simp at h
  · have haddr : pkt.source = addr := by
      simp at h
      exact h.1
    exact ⟨2, rfl, by simp [haddr]⟩
  · exfalso
    cases hhello : g.isHello <;> rw [hhello] at h
    · rcases i with - | i <;> simp at h
    · rcases i with - | - | i <;> simp at h

theorem ControlTask.Handled.room {r : ControlTask × List Effect} (h : Handled cfg t pkt r)
    (hi : r.2[i]? = some (.insertPeer addr st)) :
    ∃ j, i = j + 1 ∧ r.2[j]? = some (.makeRoom addr) := by
  cases h with
  | drop => cases hi
  | restart henv hhand hg hnewer =>
    cases i with
    | zero => cases hi
    | succ i =>
      obtain ⟨j, rfl, hj⟩ := Greeting.welcome_room hi
      exact ⟨j + 1, rfl, hj⟩
  | refresh henv hhand hg hsame hfresh => exact Greeting.welcome_room hi
  | @other env henv hhand hfresh =>
    exfalso
    rcases receive_cases (t.advance pkt.source pkt.header.sequence) pkt env with
      ⟨-, hr⟩ | ⟨-, hr | ⟨ev, hr⟩⟩ <;> rw [hr] at hi
    · rcases i with - | - | - | - | - | i <;> simp [Transport.forgetPeer] at hi
    · cases hi
    · rcases i with - | i <;> simp at hi

/-- The registry is within the cap, and there is room for the entry that is inserted next. -/
structure Roomy (m : Band) : Prop where
  peers : m.peers.entries.length ≤ peerMapSoftCap
  room : ∀ i addr st, m.pending[i]? = some (.insertPeer addr st) →
    (i = 0 ∧ (addr ∈ m.peers ∨ m.peers.entries.length < peerMapSoftCap)) ∨
      ∃ j, i = j + 1 ∧ m.pending[j]? = some (.makeRoom addr)

/-- What the other tasks do to the maps: they take entries out, and note when a peer was seen. -/
structure Shrinks (m m' : Band) : Prop where
  control : m'.control = m.control
  pending : m'.pending = m.pending
  peers : ∀ a ∈ m'.peers, a ∈ m.peers
  peerKeys : ∀ a ∈ m'.transport.peerKeys, a ∈ m.transport.peerKeys
  sendKeys : ∀ a ∈ m'.transport.sendKeys, a ∈ m.transport.sendKeys
  lastSeen : ∀ a ∈ m'.transport.lastSeen, a ∈ m.transport.lastSeen ∨
    ∃ pkt ∈ m.recvLoop.inHand, a = pkt.source

theorem forget_lastSeen {t : Transport} (op : Transport.Forget) {a : SocketAddr}
    (h : a ∈ (t.forget op).lastSeen) : a ∈ t.lastSeen := by
  cases op with
  | lastSeen addr => exact (AList.mem_erase.mp h).2
  | peerKey addr => exact h
  | sendKey addr => exact h

theorem keepaliveStep_maps (now : Nat) :
    (∀ a ∈ (m.keepaliveStep now).peers, a ∈ m.peers) ∧
      ∀ a ∈ (m.keepaliveStep now).transport.lastSeen, a ∈ m.transport.lastSeen := by
  unfold keepaliveStep
  split
  · exact ⟨fun _ h => h, fun _ h => h⟩
  · exact ⟨fun _ h => h, fun _ h => h⟩
  · exact ⟨fun _ h => h, fun _ h => h⟩
  · exact ⟨fun _ h => (mem_retain.mp h).2, fun _ h => h⟩
  · exact ⟨fun _ h => h, fun _ h => forget_lastSeen _ h⟩
  · exact ⟨fun _ h => h, fun _ h => h⟩

theorem step_maps (h : m.step e = some m') (hcontrol : e ≠ .control)
    (heffect : ∀ victim, e ≠ .effect victim) :
    (∀ a ∈ m'.peers, a ∈ m.peers) ∧
      ∀ a ∈ m'.transport.lastSeen, a ∈ m.transport.lastSeen ∨
        ∃ pkt ∈ m.recvLoop.inHand, a = pkt.source := by
  cases step_happens h with
  | seen hloop =>
    refine ⟨fun _ h => h, fun a ha => ?_⟩
    rcases (AList.mem_insert _).mp ha with rfl | hold
    · exact .inr ⟨_, by rw [hloop]; exact mem_singleton_self _, rfl⟩
    · exact .inl hold
  | dispatch _ =>
    obtain ⟨_, _, _, _, hframe⟩ := route_frame _
    rw [hframe]
    exact ⟨fun _ h => h, fun _ h => .inl h⟩
  | control _ _ => exact absurd rfl hcontrol
  | effect _ _ => exact absurd rfl (heffect _)
  | keepalive =>
    obtain ⟨hpeers, hseen⟩ := keepaliveStep_maps (m := m) _
    exact ⟨hpeers, fun a ha => .inl (hseen a ha)⟩
  | boardDemux _ | dropDemux _ =>
    obtain ⟨_, hframe⟩ := demux_frame _ _
    rw [hframe]
    exact ⟨fun _ h => h, fun _ h => .inl h⟩
  | _ => exact ⟨fun _ h => h, fun _ h => .inl h⟩

theorem mem_of_lookup_imp {β : SocketAddr → Type} {s t : AList β}
    (h : ∀ addr v, s.lookup addr = some v → t.lookup addr = some v) : ∀ a ∈ s, a ∈ t := by
  intro a ha
  obtain ⟨v, hv⟩ := isSome_iff_exists.mp (AList.lookup_isSome.mpr ha)
  exact mem_of_lookup (h a v hv)

theorem step_shrinks (h : m.step e = some m') :
    (∃ pkt rest, m.pending = [] ∧ m.controlQueue = pkt :: rest ∧ m' = m.taken pkt rest) ∨
    (∃ victim effect rest, m.pending = effect :: rest ∧
      { m with pending := rest }.perform victim effect = some m') ∨
    Shrinks m m' := by
  rcases step_cases h with ⟨pkt, rest, -, hpend, hqueue, hm'⟩ |
    ⟨victim, effect, rest, -, hpend, hp⟩ | hq
  · exact .inl ⟨pkt, rest, hpend, hqueue, hm'⟩
  · exact .inr (.inl ⟨victim, effect, rest, hpend, hp⟩)
  · by_cases hcontrol : e = .control
    · subst hcontrol
      obtain ⟨pkt, rest, hpend, hqueue, hm'⟩ := step_control h
      exact .inl ⟨pkt, rest, hpend, hqueue, hm'⟩
    · by_cases heffect : ∃ victim, e = .effect victim
      · obtain ⟨victim, rfl⟩ := heffect
        obtain ⟨effect, rest, hpend, hp⟩ := step_effect h
        exact .inr (.inl ⟨victim, effect, rest, hpend, hp⟩)
      · obtain ⟨hpeers, hseen⟩ := step_maps h hcontrol fun victim he => heffect ⟨victim, he⟩
        exact .inr (.inr ⟨hq.control, hq.pending, hpeers, mem_of_lookup_imp hq.sub.peerKeys,
          mem_of_lookup_imp hq.sub.sendKeys, hseen⟩)

namespace Roomy

variable {victim : SocketAddr}

theorem shrinks (hm : Roomy m) (h : Shrinks m m') : Roomy m' where
  peers := (length_entries_le h.peers).trans hm.peers
  room := by
    intro i addr st hi
    rw [h.pending] at hi ⊢
    rcases hm.room i addr st hi with ⟨hzero, hroom⟩ | hmake
    · refine .inl ⟨hzero, ?_⟩
      have hle := length_entries_le h.peers
      rcases hroom with hmem | hlt
      · by_cases hstill : addr ∈ m'.peers
        · exact .inl hstill
        · exact .inr (lt_of_lt_of_le (length_entries_lt h.peers hmem hstill) hm.peers)
      · exact .inr (lt_of_le_of_lt hle hlt)
    · exact .inr hmake

theorem taken (hm : Roomy m) (pkt : Inbound) (rest : List Inbound) : Roomy (m.taken pkt rest) where
  peers := hm.peers
  room := fun _ _ _ hi =>
    .inr ((ControlTask.handle_handled m.cfg m.isLive m.control pkt).room hi)

/-- After the registry made room, there is room. -/
theorem makeRoom {victim addr : SocketAddr} (hpeers : m.peers.entries.length ≤ peerMapSoftCap)
    (h : m.perform victim (.makeRoom addr) = some m') :
    m'.peers.entries.length ≤ peerMapSoftCap ∧
      (addr ∈ m'.peers ∨ m'.peers.entries.length < peerMapSoftCap) := by
  simp only [Band.perform] at h
  split at h
  · obtain ⟨hlowest, hsome⟩ := ite_none_right_eq_some.mp h
    cases hsome
    obtain ⟨st, hst, -⟩ := (Option.any_eq_true _ _).mp hlowest
    have herase := length_entries_erase (mem_of_lookup hst)
    exact ⟨by show (m.peers.erase victim).entries.length ≤ _; omega,
      .inr (by show (m.peers.erase victim).entries.length < _; omega)⟩
  · next hroom =>
    cases h
    refine ⟨hpeers, ?_⟩
    by_cases hmem : addr ∈ m.peers
    · exact .inl hmem
    · refine .inr (Nat.lt_of_not_le fun hfull => hroom ⟨?_, hfull⟩)
      exact AList.lookup_eq_none.mpr hmem

/-- What follows an effect that makes no room is not an insertion. -/
theorem rest {rest : List Effect} (hm : Roomy m)
    (hpend : m.pending = effect :: rest) (i : Nat) (addr : SocketAddr) (st : PeerState)
    (hi : rest[i]? = some (.insertPeer addr st)) :
    (i = 0 ∧ effect = .makeRoom addr) ∨ ∃ j, i = j + 1 ∧ rest[j]? = some (.makeRoom addr) := by
  have hroom := hm.room (i + 1) addr st (by rw [hpend]; exact hi)
  rcases hroom with ⟨hzero, -⟩ | ⟨j, hj, hmake⟩
  · exact absurd hzero (Nat.succ_ne_zero i)
  · obtain rfl := Nat.succ.inj hj
    rw [hpend] at hmake
    cases i with
    | zero => exact .inl ⟨rfl, Option.some.inj hmake⟩
    | succ i => exact .inr ⟨i, rfl, hmake⟩

theorem performed {rest : List Effect} (hm : Roomy m) (hpend : m.pending = effect :: rest)
    (h : { m with pending := rest }.perform victim effect = some m') : Roomy m' := by
  have hpending : m'.pending = rest := (perform_frame h).2.2
  have hrest := hm.rest hpend
  -- only room that was made lets an insertion come next
  have hquiet : (∀ addr, effect ≠ .makeRoom addr) →
      ∀ i addr st, m'.pending[i]? = some (.insertPeer addr st) →
        (i = 0 ∧ (addr ∈ m'.peers ∨ m'.peers.entries.length < peerMapSoftCap)) ∨
          ∃ j, i = j + 1 ∧ m'.pending[j]? = some (.makeRoom addr) := by
    intro hne i addr st hi
    rw [hpending] at hi ⊢
    rcases hrest i addr st hi with ⟨-, hmake⟩ | hmake
    · exact absurd hmake (hne addr)
    · exact .inr hmake
  cases effect with
  | makeRoom addr =>
    obtain ⟨hpeers, hroom⟩ := makeRoom (m := { m with pending := rest }) hm.peers h
    refine ⟨hpeers, fun i addr' st hi => ?_⟩
    rw [hpending] at hi ⊢
    rcases hrest i addr' st hi with ⟨hzero, hmake⟩ | hmake
    · obtain rfl := Effect.makeRoom.inj hmake
      exact .inl ⟨hzero, hroom⟩
    · exact .inr hmake
  | insertPeer addr st =>
    cases h
    refine ⟨?_, hquiet fun _ => Effect.noConfusion⟩
    rcases hm.room 0 addr st (by rw [hpend]; rfl) with ⟨-, hmem | hlt⟩ | ⟨j, hj, -⟩
    · rw [length_entries_insert_of_mem hmem]
      exact hm.peers
    · exact length_entries_insert_le.trans hlt
    · exact absurd hj.symm (Nat.succ_ne_zero j)
  | removePeer addr =>
    cases h
    exact ⟨(ControlTask.length_erase_le _ _).trans hm.peers, hquiet fun _ => Effect.noConfusion⟩
  | _ =>
    cases h
    exact ⟨hm.peers, hquiet fun _ => Effect.noConfusion⟩

end Roomy

/-- The control task's maps and the registry, whatever arrives. -/
structure Capped (m : Band) : Prop where
  roomy : Roomy m
  paired : m.control.Paired
  watermark : m.control.watermark.entries.length ≤ peerMapSoftCap + 1

theorem Capped.bind {psk : Bytes} {hostname : String} {session : UInt64}
    {ciphers capabilities : List String} {deadAfter seq : Nat} :
    Capped (bindWithOptions psk hostname session ciphers capabilities deadAfter seq) where
  roomy := ⟨Nat.zero_le _, fun _ _ _ hi => by cases hi⟩
  paired := fun _ ha => absurd ha (AList.notMem_empty _)
  watermark := Nat.zero_le _

theorem Capped.step (hm : Capped m) (h : m.step e = some m') : Capped m' := by
  rcases step_shrinks h with ⟨pkt, rest, -, -, rfl⟩ | ⟨victim, effect, rest, hpend, hp⟩ | hs
  · have hhandled := ControlTask.handle_handled m.cfg m.isLive m.control pkt
    obtain ⟨hpaired, hsize⟩ := hhandled.size hm.paired.prune
    have hprune : (m.control.prune m.isLive).watermark.entries.length ≤ peerMapSoftCap :=
      ControlTask.length_prune_le m.peers (fun a ha => AList.lookup_isSome.mp ha) hm.roomy.peers
    exact ⟨hm.roomy.taken pkt rest, hpaired, hsize.trans (Nat.succ_le_succ hprune)⟩
  · obtain ⟨-, hcontrol, -⟩ := perform_frame hp
    refine ⟨hm.roomy.performed hpend hp, ?_, ?_⟩ <;> rw [hcontrol]
    · exact hm.paired
    · exact hm.watermark
  · refine ⟨hm.roomy.shrinks hs, ?_, ?_⟩ <;> rw [hs.control]
    · exact hm.paired
    · exact hm.watermark

/-! ## The transport's maps -/

/-- Authenticated packets come from the addresses `addrs` only. -/
def FromAmong (addrs : List SocketAddr) (m : Band) : Event → Prop
  | .recv source wire => (m.transport.decode source wire).isSome = true → source ∈ addrs
  | _ => True

/-- Everything the band has for an address, or on the way, is for one of `addrs`. -/
structure Known (addrs : List SocketAddr) (m : Band) : Prop where
  transit : ∀ pkt ∈ m.inTransit, pkt.source ∈ addrs
  queue : ∀ pkt ∈ m.controlQueue, pkt.source ∈ addrs
  pending : ∀ effect ∈ m.pending, effect.peer ∈ addrs
  peerKeys : ∀ a ∈ m.transport.peerKeys, a ∈ addrs
  sendKeys : ∀ a ∈ m.transport.sendKeys, a ∈ addrs
  lastSeen : ∀ a ∈ m.transport.lastSeen, a ∈ addrs

/-- An effect adds entries for its own address only. -/
theorem perform_transport {victim : SocketAddr} (h : m.perform victim effect = some m') :
    (∀ a ∈ m'.transport.peerKeys, a = effect.peer ∨ a ∈ m.transport.peerKeys) ∧
    (∀ a ∈ m'.transport.sendKeys, a = effect.peer ∨ a ∈ m.transport.sendKeys) ∧
    ∀ a ∈ m'.transport.lastSeen, a ∈ m.transport.lastSeen := by
  cases effect with
  | registerPeerKey addr key suite =>
    cases h
    exact ⟨fun a ha => (AList.mem_insert _).mp ha, fun a ha => .inr ha, fun a ha => ha⟩
  | registerSendKey addr key suite =>
    cases h
    exact ⟨fun a ha => .inr ha, fun a ha => (AList.mem_insert _).mp ha, fun a ha => ha⟩
  | forget op =>
    cases h
    have hsub := Transport.sub_forget (t := m.transport) op
    exact ⟨fun a ha => .inr (mem_of_lookup_imp hsub.peerKeys a ha),
      fun a ha => .inr (mem_of_lookup_imp hsub.sendKeys a ha), fun a ha => forget_lastSeen op ha⟩
  | makeRoom addr =>
    obtain ⟨peers, rfl⟩ := perform_makeRoom h
    exact ⟨fun a ha => .inr ha, fun a ha => .inr ha, fun a ha => ha⟩
  | _ =>
    cases h
    exact ⟨fun a ha => .inr ha, fun a ha => .inr ha, fun a ha => ha⟩

namespace Known

variable {addrs : List SocketAddr}

theorem bind {psk : Bytes} {hostname : String} {session : UInt64}
    {ciphers capabilities : List String} {deadAfter seq : Nat} :
    Known addrs (bindWithOptions psk hostname session ciphers capabilities deadAfter seq) where
  transit := fun _ h => by cases h
  queue := fun _ h => by cases h
  pending := fun _ h => by cases h
  peerKeys := fun _ h => absurd h (AList.notMem_empty _)
  sendKeys := fun _ h => absurd h (AList.notMem_empty _)
  lastSeen := fun _ h => absurd h (AList.notMem_empty _)

theorem step (hm : Known addrs m) (hok : FromAmong addrs m e) (h : m.step e = some m') :
    Known addrs m' := by
  have htransit : ∀ pkt ∈ m'.inTransit, pkt.source ∈ addrs := by
    intro pkt hpkt
    rcases step_inTransit h hpkt with hold | ⟨source, wire, rfl, hdec⟩
    · exact hm.transit pkt hold
    · obtain ⟨rfl, -⟩ := Transport.decode_eq_some hdec
      exact hok (by rw [hdec]; rfl)
  have hqueue : ∀ pkt ∈ m'.controlQueue, pkt.source ∈ addrs := by
    intro pkt hpkt
    rcases step_controlQueue h hpkt with hold | hmoved
    · exact hm.queue pkt hold
    · exact hm.transit pkt hmoved
  rcases step_shrinks h with ⟨pkt, rest, -, hq, rfl⟩ | ⟨victim, effect, rest, hpend, hp⟩ | hs
  · refine ⟨htransit, hqueue, fun effect heffect => ?_, hm.peerKeys, hm.sendKeys, hm.lastSeen⟩
    rw [(ControlTask.handle_handled m.cfg m.isLive m.control pkt).peer effect heffect]
    exact hm.queue pkt (hq ▸ mem_cons_self)
  · obtain ⟨hpeer, hsend, hseen⟩ := perform_transport hp
    have heffect : effect.peer ∈ addrs := hm.pending effect (hpend ▸ mem_cons_self)
    refine ⟨htransit, hqueue, ?_, ?_, ?_, fun a ha => hm.lastSeen a (hseen a ha)⟩
    · rw [(perform_frame hp).2.2]
      exact fun eff heff => hm.pending eff (hpend ▸ mem_cons_of_mem _ heff)
    · intro a ha
      rcases hpeer a ha with rfl | hold
      · exact heffect
      · exact hm.peerKeys a hold
    · intro a ha
      rcases hsend a ha with rfl | hold
      · exact heffect
      · exact hm.sendKeys a hold
  · refine ⟨htransit, hqueue, ?_, fun a ha => hm.peerKeys a (hs.peerKeys a ha),
      fun a ha => hm.sendKeys a (hs.sendKeys a ha), fun a ha => ?_⟩
    · rw [hs.pending]
      exact hm.pending
    · rcases hs.lastSeen a ha with hold | ⟨pkt, hpkt, rfl⟩
      · exact hm.lastSeen a hold
      · exact hm.transit pkt (mem_append_left _ hpkt)

end Known

theorem peerEntries_le (hcapped : Capped m) (hknown : Known addrs m) :
    m.peerEntries ≤ 3 * peerMapSoftCap + 2 + 3 * addrs.length := by
  have hwatermark := hcapped.watermark
  have hsessions := length_entries_le hcapped.paired
  have hpeers := hcapped.roomy.peers
  have hpeerKeys := length_entries_le_of_forall_mem hknown.peerKeys
  have hsendKeys := length_entries_le_of_forall_mem hknown.sendKeys
  have hlastSeen := length_entries_le_of_forall_mem hknown.lastSeen
  unfold peerEntries
  omega

/-- As long as authenticated packets have come from no more addresses than the cap, the six maps
stay within a bound that depends on the cap alone. -/
theorem peerEntries_bounded {psk : Bytes} {hostname : String} {session : UInt64}
    {ciphers capabilities : List String} {deadAfter seq : Nat} {addrs : List SocketAddr}
    (hfew : addrs.length ≤ peerMapSoftCap)
    (hrun : GuardedRun Band.step (FromAmong addrs)
      (bindWithOptions psk hostname session ciphers capabilities deadAfter seq) m) :
    m.peerEntries ≤ 6 * peerMapSoftCap + 2 := by
  obtain ⟨hcapped, hknown⟩ := hrun.invariant (P := fun m => Capped m ∧ Known addrs m)
    ⟨.bind, .bind⟩
    fun _ _ _ hm hok hstep => ⟨hm.1.step hstep, hm.2.step hok hstep⟩
  have hle := peerEntries_le hcapped hknown
  omega

/-- The condition of `FromAmong`, checked. -/
def checkFrom (addrs : List SocketAddr) (m : Band) : Event → Bool
  | .recv source wire => !(m.transport.decode source wire).isSome || decide (source ∈ addrs)
  | _ => true

theorem fromAmong_of_check (m : Band) (e : Event)
    (h : checkFrom addrs m e = true) : FromAmong addrs m e := by
  cases e with
  | recv source wire =>
    intro hdecode
    simpa [checkFrom, hdecode] using h
  | _ => trivial

/-- A HELLO leaves an entry in each of the six maps. -/
theorem peerEntries_bounded_hello : ∃ m,
    play Band.step (checkFrom [peerAddr]) ownBand
      ((arrive (peerHello 1 10) ++ settle 7).map fun e _ => e) = some m ∧
    m.peerEntries = 6 ∧ m.peerEntries ≤ 6 * peerMapSoftCap + 2 := by
  refine exists_some (fun m => m.peerEntries = 6) (by decide +kernel) fun m hm hentries => ?_
  exact ⟨hentries, peerEntries_bounded (by decide) (guardedRun_play fromAmong_of_check hm)⟩

/-! ## A flood

One HELLO of a peer's, replayed from one address after the other, and dealt with each time. -/

/-- A registry with an entry has one of lowest epoch. -/
theorem exists_isLowest (h : 0 < m.peers.entries.length) : ∃ victim, m.isLowest victim = true := by
  have hne : m.peers.entries.argmin (fun e => e.2.sessionEpoch.toNat) ≠ none :=
    fun hnone => ne_nil_of_length_pos h (argmin_eq_none.mp hnone)
  obtain ⟨low, hlow⟩ := ne_none_iff_exists'.mp hne
  refine ⟨low.1, (Option.any_eq_true _ _).mpr ⟨low.2, ?_, ?_⟩⟩
  · exact AList.mem_lookup_iff.mpr (argmin_mem hlow)
  · refine all_eq_true.mpr fun e he => decide_eq_true ?_
    have hle := le_of_mem_argmin (f := fun e => e.2.sessionEpoch.toNat) he hlow
    exact UInt64.le_iff_toNat_le.mpr hle

/-- Room can be made whatever the registry holds, and nothing but the registry changes. -/
theorem exists_makeRoom (m : Band) (addr : SocketAddr) : ∃ victim peers, ∀ m' : Band,
    m'.peers = m.peers → m'.perform victim (.makeRoom addr) = some { m' with peers := peers } := by
  by_cases hfull : m.peers.lookup addr = none ∧ peerMapSoftCap ≤ m.peers.entries.length
  · obtain ⟨victim, hvictim⟩ := exists_isLowest (m := m) (lt_of_lt_of_le (by decide) hfull.2)
    refine ⟨victim, m.peers.erase victim, fun m' hpeers => ?_⟩
    rw [isLowest, ← hpeers] at hvictim
    rw [← hpeers] at hfull ⊢
    simp only [perform, if_pos hfull, isLowest, hvictim, if_true]
  · refine ⟨addr, m.peers, fun m' hpeers => ?_⟩
    rw [← hpeers] at hfull ⊢
    simp only [perform, if_neg hfull]

/-- A greeting from an address without an epoch is accepted. -/
theorem ControlTask.greet_of_lookup_none (pkt : Inbound) (h : t.sessions.lookup pkt.source = none) :
    t.greet cfg pkt g =
      ((t.restart pkt.source g.session).advance pkt.source pkt.header.sequence,
        .rebase pkt.source :: g.welcome cfg pkt) := by
  simp [greet, isStale, isNewer, h, isReplay_restart]

/-- Nothing but one datagram arrives. -/
def Replays (wire : Datagram) (_ : Band) : Event → Prop
  | .recv _ other => other = wire
  | _ => True

/-- The HELLO as it is received from `source`. -/
def floodHello (source : SocketAddr) : Inbound :=
  ⟨source, (peerHello 1 10).header, (peerHello 1 10).ciphertext.plaintext, peerHello 1 10⟩

def floodAddr (i : Nat) : SocketAddr := ⟨i, 7000⟩

/-- The band after the HELLO came from `n` addresses and the control task dealt with it each time:
every one of them has its keys and a time. -/
structure Flooded (n : Nat) (m : Band) : Prop where
  idle : m.recvLoop = .idle
  queue : m.controlQueue = []
  pending : m.pending = []
  bandId : m.transport.bandId = ownBand.transport.bandId
  baseKey : m.transport.baseKey = ownBand.transport.baseKey
  sessions : ∀ a ∈ m.control.sessions, ∃ i < n, a = floodAddr i
  peerKeys : ∀ i < n, floodAddr i ∈ m.transport.peerKeys
  sendKeys : ∀ i < n, floodAddr i ∈ m.transport.sendKeys
  lastSeen : ∀ i < n, floodAddr i ∈ m.transport.lastSeen

namespace Flooded

variable {n : Nat}

/-- The HELLO opens under the base key, whatever address it seems to come from. -/
theorem decode (hm : Flooded n m) (source : SocketAddr) :
    m.transport.decode source (peerHello 1 10) = some (floodHello source) :=
  Transport.decode_send (p := (peerBand 1 10).transport) hm.bandId.symm hm.baseKey.symm
    fun h => by cases h

/-- What the control task makes of the HELLO from the next address. -/
def greeting (n : Nat) (m : Band) : Greeting :=
  .ofHello m.cfg (floodAddr n) ⟨"peer", [], [baselineCipher], 1⟩

/-- The band when the HELLO from the next address is in the control queue. -/
def arrived (n : Nat) (m : Band) : Band :=
  { m with
    recvLoop := .idle
    transport := m.transport.refresh (floodAddr n) 0
    controlQueue := [floodHello (floodAddr n)] }

theorem run_arrived (hm : Flooded n m) :
    GuardedRun Band.step (Replays (peerHello 1 10)) m (arrived n m) := by
  have hrecv : m.step (.recv (floodAddr n) (peerHello 1 10)) =
      some { m with recvLoop := .decoded (floodHello (floodAddr n)) } := by
    simp only [Band.step, hm.idle, hm.decode]
  refine .head ⟨.recv (floodAddr n) (peerHello 1 10), rfl, hrecv⟩
    (.head ⟨.seen 0, trivial, rfl⟩ (.single ⟨.dispatch, trivial, ?_⟩))
  have hroute : (floodHello (floodAddr n)).header.channelType = .control := rfl
  simp only [Band.step, Band.route, hroute, hm.queue, nil_append]
  rfl

/-- The band when the control task has taken that HELLO, which is new to it. -/
def greeted (n : Nat) (m : Band) : Band :=
  { arrived n m with
    control := ((m.control.prune m.isLive).restart (floodAddr n) 1).advance (floodAddr n) 10
    pending := .rebase (floodAddr n) :: (greeting n m).welcome m.cfg (floodHello (floodAddr n))
    controlQueue := [] }

theorem step_greeted (hm : Flooded n m) : (arrived n m).step .control = some (greeted n m) := by
  have hpend : (arrived n m).pending = [] := hm.pending
  have hsessions : (m.control.prune m.isLive).sessions.lookup (floodAddr n) = none := by
    refine eq_none_iff_forall_ne_some.mpr fun epoch hepoch => ?_
    have hlookup := (m.control.prune_lookup m.isLive (floodAddr n)).1 epoch hepoch
    obtain ⟨i, hi, heq⟩ := hm.sessions _ (AList.lookup_isSome.mp (by rw [hlookup]; rfl))
    have hip : n = i := congrArg SocketAddr.ip heq
    omega
  have hgreet : (m.control.prune m.isLive).greet m.cfg (floodHello (floodAddr n))
      (greeting n m) = _ := ControlTask.greet_of_lookup_none _ hsessions
  simp only [Band.step, hpend]
  exact congrArg (fun r : ControlTask × List Effect =>
    some { arrived n m with control := r.1, pending := r.2, controlQueue := [] }) hgreet

theorem mem_next {β : Type} {s : AList fun _ : SocketAddr => β} (b : β)
    (h : ∀ i < n, floodAddr i ∈ s) : ∀ i < n + 1, floodAddr i ∈ s.insert (floodAddr n) b := by
  intro i hi
  rcases Nat.lt_succ_iff_lt_or_eq.mp hi with hlt | rfl
  · exact (AList.mem_insert _).mpr (.inr (h i hlt))
  · exact (AList.mem_insert _).mpr (.inl rfl)

/-- One more address, and the band knows one more. -/
theorem next (hm : Flooded n m) : ∃ m',
    GuardedRun Band.step (Replays (peerHello 1 10)) m m' ∧ Flooded (n + 1) m' := by
  obtain ⟨victim, peers, hroom⟩ := exists_makeRoom m (floodAddr n)
  have hgreeted := hm.run_arrived.tail ⟨.control, trivial, hm.step_greeted⟩
  -- the signal and the two keys, then room in the registry, then the entry, the answer, the event
  have hkeys := ((hgreeted.tail ⟨.effect victim, trivial, rfl⟩).tail
    ⟨.effect victim, trivial, rfl⟩).tail ⟨.effect victim, trivial, rfl⟩
  have hmade := hkeys.tail ⟨.effect victim, trivial, hroom _ rfl⟩
  refine ⟨_, ((hmade.tail ⟨.effect victim, trivial, rfl⟩).tail
    ⟨.effect victim, trivial, rfl⟩).tail ⟨.effect victim, trivial, rfl⟩, ?_⟩
  refine ⟨rfl, rfl, rfl, hm.bandId, hm.baseKey, ?_, mem_next _ hm.peerKeys, mem_next _ hm.sendKeys,
    mem_next _ hm.lastSeen⟩
  intro a ha
  rcases (AList.mem_insert _).mp ha with rfl | hold
  · exact ⟨n, Nat.lt_succ_self n, rfl⟩
  · have hmem := mem_of_lookup_imp (fun addr => (m.control.prune_lookup m.isLive addr).1) a hold
    obtain ⟨i, hi, heq⟩ := hm.sessions a hmem
    exact ⟨i, Nat.lt_succ_of_lt hi, heq⟩

theorem zero : Flooded 0 ownBand where
  idle := rfl
  queue := rfl
  pending := rfl
  bandId := rfl
  baseKey := rfl
  sessions := fun _ h => absurd h (AList.notMem_empty _)
  peerKeys := fun _ h => absurd h (Nat.not_lt_zero _)
  sendKeys := fun _ h => absurd h (Nat.not_lt_zero _)
  lastSeen := fun _ h => absurd h (Nat.not_lt_zero _)

theorem le_length {β : SocketAddr → Type} {s : AList β} (h : ∀ i < n, floodAddr i ∈ s) :
    n ≤ s.entries.length := by
  have hnodup : ((List.range n).map floodAddr).Nodup :=
    nodup_range.map fun i j hij => congrArg SocketAddr.ip hij
  have hlen : ((List.range n).map floodAddr).length ≤ s.entries.length := by
    refine length_le_of_forall_mem hnodup fun a ha => ?_
    obtain ⟨i, hi, rfl⟩ := mem_map.mp ha
    exact h i (mem_range.mp hi)
  rwa [length_map, length_range] at hlen

theorem peerEntries_ge (hm : Flooded n m) : 3 * n ≤ m.peerEntries := by
  have hpeerKeys := le_length hm.peerKeys
  have hsendKeys := le_length hm.sendKeys
  have hlastSeen := le_length hm.lastSeen
  unfold peerEntries
  omega

end Flooded

theorem exists_flooded (n : Nat) : ∃ m,
    GuardedRun Band.step (Replays (peerHello 1 10)) ownBand m ∧ Flooded n m := by
  induction n with
  | zero => exact ⟨ownBand, .refl, .zero⟩
  | succ n ih =>
    obtain ⟨m, hrun, hm⟩ := ih
    obtain ⟨m', hmore, hm'⟩ := hm.next
    exact ⟨m', hrun.trans hmore, hm'⟩

/-- No bound holds for a flood. Nothing arrives but one HELLO of a member's, from ever new
addresses, and the control task deals with every one; the registry stays within the cap, but of
each address, evicted or not, three entries remain. -/
theorem flood_unbounded : Genuine [1] (peerHello 1 10) ∧
    (∀ n, ∃ m, GuardedRun Band.step (Replays (peerHello 1 10)) ownBand m ∧ Flooded n m ∧
      m.peers.entries.length ≤ peerMapSoftCap ∧ 3 * n ≤ m.peerEntries) ∧
    ¬ ∃ bound, ∀ m, GuardedRun Band.step (Replays (peerHello 1 10)) ownBand m →
      m.peerEntries ≤ bound := by
  refine ⟨⟨1, peerSends_sentIn 1 10 _⟩, fun n => ?_, ?_⟩
  · obtain ⟨m, hrun, hm⟩ := exists_flooded n
    have hcapped : Capped m := hrun.invariant .bind fun _ _ _ h _ he => h.step he
    exact ⟨m, hrun, hm, hcapped.roomy.peers, hm.peerEntries_ge⟩
  · rintro ⟨bound, hbound⟩
    obtain ⟨m, hrun, hm⟩ := exists_flooded (bound + 1)
    have hle := hbound m hrun
    have hge := hm.peerEntries_ge
    omega

end Telesthete.Band
