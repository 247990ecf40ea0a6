import Telesthete.Lib.Run
import Telesthete.Relay.Effects

/-!
# What holds of every registry

A registry starts empty and its operations keep it within its caps, with no
empty band and with every peer in order (`Peer.Sound`): it has a sink exactly
when it is eligible, and it is eligible by right of its connection or of the
packets it sent. The invariant `Registry.Inv` is proved one operation at a time
from what the operation leaves under each key.
-/

namespace Telesthete.Relay

open Telesthete.Lib Telesthete.Wire Option
open Telesthete.Band (SocketAddr)

variable {S : Type} {r r' : Registry S} {band b : BandId} {key k : PeerKey} {addr : SocketAddr}
  {sink : S} {conn : Bool} {now later ttl : Nat} {frame : Bytes} {limits : Limits} {p : Peer S}
  {op : Op S}

/-! ## One peer -/

/-- A peer in order. `seen` is the count of packets as far as 32 bits hold it. -/
structure Peer.Sound (limits : Limits) (key : PeerKey) (p : Peer S) : Prop where
  sink : p.sink.isSome = p.eligible
  conn : ∀ id, key = .conn id → p.eligible = true
  udp : ∀ addr, key = .udp addr →
    (p.eligible = true ↔ max 1 limits.udpValidationPackets.toNat ≤ p.packets)
  made : p.made = if p.eligible then 1 else 0
  seen : p.seen.toNat = min p.packets (2 ^ 32 - 1)
  route : p.route ≠ some 0

theorem Peer.seen_observed (h : p.seen.toNat = min p.packets (2 ^ 32 - 1)) :
    (p.observed now).seen.toNat = min (p.observed now).packets (2 ^ 32 - 1) := by
  show (if p.seen.toNat + 1 < 2 ^ 32 then p.seen + 1 else p.seen).toNat =
    min (p.packets + 1) (2 ^ 32 - 1)
  by_cases hlt : p.seen.toNat + 1 < 2 ^ 32
  · rw [if_pos hlt, UInt32.toNat_add, UInt32.toNat_one, Nat.mod_eq_of_lt hlt]
    omega
  · rw [if_neg hlt]
    omega

theorem Peer.Sound.newPeer (hkey : conn = true ↔ ∃ id, key = .conn id) :
    (Registry.newPeer limits sink conn now later).Sound limits key := by
  have hone : limits.udpValidationPackets ≤ 1 ↔ max 1 limits.udpValidationPackets.toNat ≤ 1 := by
    rw [UInt32.le_iff_toNat_le, UInt32.toNat_one]
    omega
  constructor
  · by_cases he : (conn || decide (limits.udpValidationPackets ≤ 1)) = true
    · simp [Registry.newPeer, he]
    · simp [Registry.newPeer, he]
  · intro id hid
    simp [Registry.newPeer, hkey.mpr ⟨id, hid⟩]
  · intro addr haddr
    have hconn : conn = false := by
      by_contra h
      obtain ⟨id, hid⟩ := hkey.mp (by simpa using h)
      rw [haddr] at hid
      cases hid
    simpa [Registry.newPeer, hconn] using hone
  · rfl
  · rfl
  · simp [Registry.newPeer]

/-- A connection that is heard from. -/
theorem Peer.Sound.observed {id : UInt64} (h : p.Sound limits (.conn id)) :
    (p.observed now).Sound limits (.conn id) := by
  refine { h with udp := fun addr haddr => ?_, seen := seen_observed h.seen }
  cases haddr

/-- A datagram counts towards validation, and makes the peer eligible when it completes it. -/
theorem Peer.Sound.observe (h : p.Sound limits (.udp addr)) :
    (Registry.observe limits sink now p).Sound limits (.udp addr) := by
  have hseen : (p.observed now).seen.toNat = min (p.observed now).packets (2 ^ 32 - 1) :=
    seen_observed h.seen
  have hpackets : (p.observed now).packets = p.packets + 1 := rfl
  have hudp := h.udp addr rfl
  have hv := limits.udpValidationPackets.toNat_lt
  unfold Registry.observe
  by_cases hp : Registry.promotes limits now p = true
  · rw [if_pos hp]
    obtain ⟨hnot, hle⟩ := Bool.and_eq_true_iff.mp hp
    have hle' := UInt32.le_iff_toNat_le.mp (of_decide_eq_true hle)
    have hmade : p.made = 0 := by
      rw [h.made]
      simpa using hnot
    refine ⟨rfl, fun _ _ => rfl, fun _ _ => ⟨fun _ => ?_, fun _ => rfl⟩, ?_, hseen, h.route⟩
    · show _ ≤ (p.observed now).packets
      omega
    · simp [hmade]
  · rw [if_neg hp]
    refine ⟨h.sink, h.conn, fun _ _ => ?_, h.made, hseen, h.route⟩
    by_cases he : p.eligible = true
    · have hmax := hudp.mp he
      refine iff_of_true he ?_
      omega
    · have hlt : ¬ limits.udpValidationPackets ≤ (p.observed now).seen := by
        intro hle
        exact hp (by simp [Registry.promotes, he, hle])
      have hlt' := UInt32.not_le.mp hlt
      have hlt'' := UInt32.lt_iff_toNat_lt.mp hlt'
      refine iff_of_false he ?_
      omega

theorem Peer.Sound.withRoute {route : Option UInt16} (h : p.Sound limits key)
    (hroute : route ≠ some 0) : Peer.Sound limits key { p with route := route } :=
  ⟨h.sink, h.conn, h.udp, h.made, h.seen, hroute⟩

theorem Peer.Sound.routed {id : UInt16} (h : p.Sound limits key) :
    (Registry.routed id p).Sound limits key := by
  refine h.withRoute ?_
  by_cases hid : id = 0
  · simp [hid]
  · simp [hid]

theorem Peer.Sound.superseded {found : Option (Peer S)} (h : p.Sound limits k) :
    (superseded key found k p).Sound limits k := by
  rcases superseded_cases key found k p with heq | heq
  · rw [heq]
    exact h
  · rw [heq]
    exact h.withRoute (by simp)

/-! ## All peers -/

namespace Registry

/-- The caps hold, and a band that is there has a peer. -/
structure Sized (r : Registry S) : Prop where
  bands : r.bands.entries.length ≤ r.limits.maxBands
  peers : ∀ band peers, r.bands.lookup band = some peers →
    peers.entries ≠ [] ∧ peers.entries.length ≤ r.limits.maxPeersPerBand

structure Inv (r : Registry S) : Prop where
  sized : r.Sized
  sound : ∀ band key p, r.peer? band key = some p → p.Sound r.limits key

theorem Sized.update {f : Peers S → Peers S} (h : r.Sized)
    (hf : ∀ peers, (f peers).entries.length = peers.entries.length) : (r.update band f).Sized := by
  refine ⟨?_, fun b peers hb => ?_⟩
  · show (modify band f r.bands).entries.length ≤ _
    rw [length_entries_modify]
    exact h.bands
  · have hlook : (modify band f r.bands).lookup b = some peers := hb
    rw [lookup_modify] at hlook
    by_cases heq : b = band
    · rw [if_pos heq] at hlook
      obtain ⟨found, hfound, rfl⟩ := map_eq_some_iff.mp hlook
      obtain ⟨hne, hle⟩ := h.peers b found hfound
      rw [← List.length_pos_iff, hf]
      exact ⟨List.length_pos_iff.mpr hne, hle⟩
    · rw [if_neg heq] at hlook
      exact h.peers b peers hlook

/-- Where a registration is not refused, there is room for it. -/
theorem room_of_refusal (h : r.refusal band = none) :
    (band ∉ r.bands → r.bands.entries.length < r.limits.maxBands) ∧
      (r.peers band).entries.length < r.limits.maxPeersPerBand := by
  unfold refusal at h
  by_cases hcap : ((r.bands.lookup band).isNone &&
      decide (r.limits.maxBands ≤ r.bands.entries.length)) = true
  · rw [if_pos hcap] at h
    cases h
  · rw [if_neg hcap] at h
    by_cases hpeers : r.limits.maxPeersPerBand ≤ (r.peers band).entries.length
    · rw [if_pos hpeers] at h
      cases h
    · refine ⟨fun hnot => ?_, Nat.lt_of_not_le hpeers⟩
      have hnone : r.bands.lookup band = none := AList.lookup_eq_none.mpr hnot
      simpa [hnone] using hcap

theorem Sized.register (h : r.Sized) (hroom : r.refusal band = none) :
    (r.register band key p).Sized := by
  obtain ⟨hbands, hpeers⟩ := room_of_refusal hroom
  refine ⟨?_, fun b peers hb => ?_⟩
  · show (r.bands.insert band _).entries.length ≤ _
    by_cases hmem : band ∈ r.bands
    · rw [length_entries_insert_of_mem hmem]
      exact h.bands
    · rw [length_entries_insert hmem]
      exact hbands hmem
  · have hlook : (r.bands.insert band ((r.peers band).insert key p)).lookup b = some peers := hb
    rw [lookup_insert_ite] at hlook
    by_cases heq : b = band
    · rw [if_pos heq] at hlook
      cases hlook
      refine ⟨?_, le_trans length_entries_insert_le hpeers⟩
      rw [AList.entries_insert]
      exact List.cons_ne_nil _ _
    · rw [if_neg heq] at hlook
      exact h.peers b peers hlook

theorem Sized.disconnect (h : r.Sized) : (r.disconnect band key).registry.Sized := by
  unfold Registry.disconnect
  cases hband : r.bands.lookup band with
  | none => exact h
  | some found =>
    have herase : (found.erase key).entries.length ≤ found.entries.length :=
      (List.kerase_sublist key found.entries).length_le
    by_cases hempty : (found.erase key).entries.isEmpty = true
    · simp only [if_pos hempty]
      refine ⟨?_, fun b peers hb => ?_⟩
      · exact le_trans (List.kerase_sublist band r.bands.entries).length_le h.bands
      · have hlook : (r.bands.erase band).lookup b = some peers := hb
        rw [lookup_erase_ite] at hlook
        obtain ⟨-, hlook⟩ := ite_none_left_eq_some.mp hlook
        exact h.peers b peers hlook
    · simp only [if_neg hempty]
      refine ⟨?_, fun b peers hb => ?_⟩
      · exact le_trans (le_of_eq length_entries_modify) h.bands
      · have hlook : (modify band (fun _ => found.erase key) r.bands).lookup b = some peers := hb
        rw [lookup_modify] at hlook
        by_cases heq : b = band
        · rw [if_pos heq, heq, hband] at hlook
          cases hlook
          refine ⟨fun hnil => hempty (by rw [hnil]; rfl), ?_⟩
          exact le_trans herase (h.peers band found hband).2
        · rw [if_neg heq] at hlook
          exact h.peers b peers hlook

theorem Sized.pruned (h : r.Sized) : (r.pruned ttl now).Sized := by
  refine ⟨?_, fun b peers hb => ?_⟩
  · refine le_trans List.filter_sublist.length_le ?_
    rw [length_entries_mapVals]
    exact h.bands
  · have hlook : (filterVals (fun _ peers => !peers.entries.isEmpty)
        (mapVals (fun _ peers => filterVals (retained ttl now) peers) r.bands)).lookup b =
          some peers := hb
    rw [lookup_filterVals, lookup_mapVals] at hlook
    obtain ⟨hmap, hne⟩ := filter_eq_some_iff.mp hlook
    obtain ⟨found, hfound, rfl⟩ := map_eq_some_iff.mp hmap
    refine ⟨by simpa using hne, ?_⟩
    exact le_trans List.filter_sublist.length_le (h.peers b found hfound).2

/-- What a relayed frame leaves: the registry as it was, or with a declaration made. -/
theorem registry_forward (r : Registry S) (band : BandId) (src : PeerKey) (frame : Bytes) :
    (r.forward band src frame).registry = r ∨
      ∃ id, (r.forward band src frame).registry = r.declare band src id := by
  cases hinfo : routeInfo frame with
  | none =>
    rw [forward_of_short hinfo]
    exact .inl rfl
  | some info =>
    by_cases hroute : info.channelType = some .route
    · rw [forward_of_route hinfo hroute]
      exact .inr ⟨_, rfl⟩
    · exact .inl (forward_of_ne_route hinfo hroute).1

/-- No operation changes the limits. -/
theorem limits_insert : (r.insert band key sink conn now later).registry.limits = r.limits := by
  rw [insert_eq]
  cases r.refusal band with
  | none => rfl
  | some e => rfl

theorem limits_observeUdp : (r.observeUdp band addr sink now later).registry.limits = r.limits := by
  cases hpeer : r.peer? band (.udp addr) with
  | none =>
    rw [observeUdp_of_none hpeer]
    exact limits_insert
  | some p =>
    rw [observeUdp_of_peer hpeer]
    split
    · rfl
    · rfl

theorem limits_forward {src : PeerKey} : (r.forward band src frame).registry.limits = r.limits := by
  rcases registry_forward r band src frame with heq | ⟨id, heq⟩
  · rw [heq]
  · rw [heq]
    rfl

theorem limits_disconnect : (r.disconnect band key).registry.limits = r.limits := by
  unfold disconnect
  split
  · dsimp only
    split
    · rfl
    · rfl
  · rfl

theorem limits_apply : (r.apply op).registry.limits = r.limits := by
  cases op with
  | connect band id sink now later => exact limits_insert
  | observeUdp band addr sink now later => exact limits_observeUdp
  | touch band id now => rfl
  | forward band src frame => exact limits_forward
  | injectFromLink band frame =>
    show (r.injectFromLink band frame).registry.limits = r.limits
    rw [registry_injectFromLink]
  | disconnect band key => exact limits_disconnect
  | prune ttl now => rfl

theorem inv_new {fed : Bool} : (new limits fed : Registry S).Inv where
  sized := ⟨Nat.zero_le _, by rintro _ _ ⟨⟩⟩
  sound := by rintro _ _ _ ⟨⟩

theorem Inv.insert (h : r.Inv) (hkey : conn = true ↔ ∃ id, key = .conn id) :
    (r.insert band key sink conn now later).registry.Inv := by
  rw [insert_eq]
  cases hroom : r.refusal band with
  | some e => exact h
  | none =>
    refine ⟨h.sized.register hroom, fun b k p hp => ?_⟩
    have hp' : (r.register band key (newPeer r.limits sink conn now later)).peer? b k = some p :=
      hp
    rw [peer?_register] at hp'
    by_cases heq : b = band ∧ k = key
    · rw [if_pos heq] at hp'
      cases hp'
      rw [heq.2]
      exact Peer.Sound.newPeer hkey
    · rw [if_neg heq] at hp'
      exact h.sound b k p hp'

theorem Inv.observeUdp (h : r.Inv) : (r.observeUdp band addr sink now later).registry.Inv := by
  cases hpeer : r.peer? band (.udp addr) with
  | none =>
    rw [observeUdp_of_none hpeer]
    exact h.insert (by simp)
  | some p =>
    refine ⟨?_, fun b k p' hp' => ?_⟩
    · rw [observeUdp_of_peer hpeer]
      split
      · exact h.sized.update fun peers => length_supersedeRebound.trans length_entries_modify
      · exact h.sized.update fun peers => length_entries_modify
    · rw [limits_observeUdp]
      rw [peer?_observeUdp hpeer] at hp'
      by_cases hb : b = band
      · subst hb
        rw [if_pos rfl] at hp'
        obtain ⟨q, hq, rfl⟩ := map_eq_some_iff.mp hp'
        by_cases hk : k = .udp addr
        · subst hk
          rw [if_pos rfl]
          exact (h.sound b _ p hpeer).observe
        · rw [if_neg hk]
          split
          · exact (h.sound b k q hq).superseded
          · exact h.sound b k q hq
      · rw [if_neg hb] at hp'
        exact h.sound b k p' hp'

theorem Inv.touch {id : UInt64} (h : r.Inv) : (r.touch band (.conn id) now).registry.Inv := by
  refine ⟨h.sized.update fun peers => length_entries_modify, fun b k p hp => ?_⟩
  rw [peer?_touch] at hp
  by_cases heq : b = band ∧ k = .conn id
  · rw [if_pos heq] at hp
    obtain ⟨q, hq, rfl⟩ := map_eq_some_iff.mp hp
    have hsound := h.sound b k q hq
    rw [heq.2] at hsound ⊢
    exact hsound.observed
  · rw [if_neg heq] at hp
    exact h.sound b k p hp

theorem Inv.declare {src : PeerKey} {id : UInt16} (h : r.Inv) : (r.declare band src id).Inv := by
  refine ⟨h.sized.update fun peers => length_supersedeRebound.trans length_entries_modify,
    fun b k p hp => ?_⟩
  rw [peer?_declare] at hp
  by_cases hb : b = band
  · subst hb
    rw [if_pos rfl] at hp
    obtain ⟨q, hq, rfl⟩ := map_eq_some_iff.mp hp
    refine Peer.Sound.superseded ?_
    split
    · exact (h.sound b k q hq).routed
    · exact h.sound b k q hq
  · rw [if_neg hb] at hp
    exact h.sound b k p hp

theorem Inv.apply (h : r.Inv) : (r.apply op).registry.Inv := by
  cases op with
  | connect band id sink now later => exact h.insert (by simp)
  | observeUdp band addr sink now later => exact h.observeUdp
  | touch band id now => exact h.touch
  | forward band src frame =>
    show (r.forward band src frame).registry.Inv
    rcases registry_forward r band src frame with heq | ⟨id, heq⟩
    · rw [heq]
      exact h
    · rw [heq]
      exact h.declare
  | injectFromLink band frame =>
    show (r.injectFromLink band frame).registry.Inv
    rw [registry_injectFromLink]
    exact h
  | disconnect band key =>
    refine ⟨h.sized.disconnect, fun b k p hp => ?_⟩
    have hp' : (r.disconnect band key).registry.peer? b k = some p := hp
    rw [peer?_disconnect] at hp'
    have hsound := h.sound b k p (ite_none_left_eq_some.mp hp').2
    rw [limits_apply]
    exact hsound
  | prune ttl now =>
    refine ⟨h.sized.pruned, fun b k p hp => ?_⟩
    have hp' : (r.pruned ttl now).peer? b k = some p := hp
    rw [peer?_pruned] at hp'
    exact h.sound b k p (filter_eq_some_iff.mp hp').1

/-- Any operations, one after the other, on a registry that starts empty. -/
def Reachable (limits : Limits) (fed : Bool) (r : Registry S) : Prop :=
  GuardedRun step (fun _ _ => True) (new limits fed) r

theorem guardedRun_run {ok : Registry S → Op S → Prop} (r : Registry S) (ops : List (Op S))
    (h : ∀ op ∈ ops, ∀ s, ok s op) : GuardedRun step ok r (r.run ops) := by
  induction ops generalizing r with
  | nil => exact .refl
  | cons op ops ih =>
    have hhead : GuardedStep step ok r (r.apply op).registry :=
      ⟨op, h op List.mem_cons_self r, rfl⟩
    exact .head hhead (ih _ fun op hop => h op (List.mem_cons_of_mem _ hop))

theorem Reachable.run {fed : Bool} (h : Reachable limits fed r) (ops : List (Op S)) :
    Reachable limits fed (r.run ops) :=
  h.trans (guardedRun_run r ops fun _ _ _ => trivial)

theorem reachable_run (limits : Limits) (fed : Bool) (ops : List (Op S)) :
    Reachable limits fed ((new limits fed).run ops) :=
  guardedRun_run _ ops fun _ _ _ => trivial

theorem Reachable.inv {fed : Bool} (h : Reachable limits fed r) : r.limits = limits ∧ r.Inv := by
  refine GuardedRun.invariant (P := fun r : Registry S => r.limits = limits ∧ r.Inv) h
    ⟨rfl, inv_new⟩ fun r op r' hinv _ hstep => ?_
  cases hstep
  exact ⟨limits_apply.trans hinv.1, hinv.2.apply⟩

/-! ## Refusals and eviction -/

theorem result_forward {src : PeerKey} : (r.forward band src frame).result = .ok () := by
  unfold forward
  split
  · split
    · rfl
    · rfl
  · rfl

theorem result_injectFromLink : (r.injectFromLink band frame).result = .ok () := by
  unfold injectFromLink
  split
  · split
    · rfl
    · rfl
  · rfl

theorem result_disconnect : (r.disconnect band key).result = .ok () := by
  unfold disconnect
  split
  · dsimp only
    split
    · rfl
    · rfl
  · rfl

/-- A refusal changes nothing and makes no sink. -/
theorem apply_eq_of_error {e : RegError} (h : (r.apply op).result = .error e) :
    (r.apply op).registry = r ∧ (r.apply op).made = 0 := by
  have hinsert : ∀ band key sink conn now later,
      (r.insert band key sink conn now later).result = .error e →
      (r.insert band key sink conn now later).registry = r ∧
        (r.insert band key sink conn now later).made = 0 := by
    intro band key sink conn now later h
    rw [insert_eq] at h ⊢
    cases hroom : r.refusal band with
    | none =>
      rw [hroom] at h
      cases h
    | some e => exact ⟨rfl, rfl⟩
  cases op with
  | connect band id sink now later => exact hinsert band (.conn id) sink true now later h
  | observeUdp band addr sink now later =>
    have h' : (r.observeUdp band addr sink now later).result = .error e := h
    show (r.observeUdp band addr sink now later).registry = r ∧
      (r.observeUdp band addr sink now later).made = 0
    cases hpeer : r.peer? band (.udp addr) with
    | none =>
      rw [observeUdp_of_none hpeer] at h' ⊢
      exact hinsert band (.udp addr) sink false now later h'
    | some p =>
      rw [observeUdp_of_peer hpeer] at h'
      split at h'
      · cases h'
      · cases h'
  | touch band id now => cases h
  | forward band src frame => cases result_forward.symm.trans h
  | injectFromLink band frame => cases result_injectFromLink.symm.trans h
  | disconnect band key => cases result_disconnect.symm.trans h
  | prune ttl now => cases h

/-- A UDP peer not heard from for longer than `ttl`. -/
def Idle (ttl now : Nat) (key : PeerKey) (p : Peer S) : Prop :=
  ∃ addr, key = .udp addr ∧ ttl < now - p.lastSeen

theorem retained_iff : retained ttl now key p = true ↔ ¬ Idle ttl now key p := by
  cases key with
  | conn id => simp [retained, Idle]
  | udp addr => simp [retained, Idle]

theorem peer?_pruned_eq_some :
    (r.pruned ttl now).peer? band key = some p ↔
      r.peer? band key = some p ∧ ¬ Idle ttl now key p := by
  rw [peer?_pruned, filter_eq_some_iff, retained_iff]

theorem exists_peer?_of_mem (h : r.Sized) (hb : band ∈ r.bands) :
    ∃ key p, r.peer? band key = some p := by
  obtain ⟨peers, hpeers⟩ := isSome_iff_exists.mp (AList.lookup_isSome.mpr hb)
  obtain ⟨e, he⟩ := List.exists_mem_of_ne_nil _ (h.peers band peers hpeers).1
  refine ⟨e.1, e.2, ?_⟩
  unfold peer? Registry.peers
  rw [hpeers]
  exact AList.mem_lookup_iff.mpr he

theorem mem_of_peer? (h : r.peer? band key = some p) : band ∈ r.bands := by
  by_contra hnot
  have hnone : r.bands.lookup band = none := AList.lookup_eq_none.mpr hnot
  simp [peer?, peers, hnone] at h

/-- A band that is there is one with a peer. -/
theorem Sized.mem_iff (h : r.Sized) : band ∈ r.bands ↔ ∃ key p, r.peer? band key = some p :=
  ⟨exists_peer?_of_mem h, fun ⟨_, _, hp⟩ => mem_of_peer? hp⟩

/-- In every reachable registry the caps hold, no band is empty, and the peers are in order; an
operation that is refused leaves it alone, and eviction removes the idle UDP peers and the bands
left without a peer. -/
theorem reachable_inv_and_atomic {limits : Limits} {fed : Bool} {r : Registry S}
    (h : Reachable limits fed r) :
    r.bands.entries.length ≤ limits.maxBands ∧
    (∀ band peers, r.bands.lookup band = some peers →
      peers.entries ≠ [] ∧ peers.entries.length ≤ limits.maxPeersPerBand) ∧
    (∀ band key p, r.peer? band key = some p →
      (p.sink.isSome = true ↔ p.eligible = true) ∧ p.made ≤ 1) ∧
    (∀ band id p, r.peer? band (.conn id) = some p → p.eligible = true) ∧
    (∀ band addr p, r.peer? band (.udp addr) = some p →
      (p.eligible = true ↔ max 1 limits.udpValidationPackets.toNat ≤ p.packets)) ∧
    (∀ op e, (r.apply op).result = .error e →
      (r.apply op).registry = r ∧ (r.apply op).made = 0) ∧
    (∀ ttl now,
      (∀ band key p, (r.prune ttl now).1.registry.peer? band key = some p ↔
        r.peer? band key = some p ∧ ¬ Idle ttl now key p) ∧
      (∀ band, band ∈ (r.prune ttl now).1.registry.bands ↔
        band ∈ r.bands ∧ ∃ key p, r.peer? band key = some p ∧ ¬ Idle ttl now key p)) := by
  obtain ⟨rfl, hinv⟩ := h.inv
  refine ⟨hinv.sized.bands, hinv.sized.peers, fun band key p hp => ?_, fun band id p hp => ?_,
    fun band addr p hp => ?_, fun op e he => apply_eq_of_error he, fun ttl now => ⟨?_, ?_⟩⟩
  · have hsound := hinv.sound band key p hp
    refine ⟨by rw [hsound.sink], ?_⟩
    rw [hsound.made]
    split
    · exact Nat.le_refl 1
    · exact Nat.zero_le 1
  · exact (hinv.sound band _ p hp).conn id rfl
  · exact (hinv.sound band _ p hp).udp addr rfl
  · intro band key p
    exact peer?_pruned_eq_some
  · intro band
    have hmem : band ∈ (r.pruned ttl now).bands ↔
        ∃ key p, (r.pruned ttl now).peer? band key = some p := hinv.sized.pruned.mem_iff
    refine hmem.trans ⟨?_, ?_⟩
    · rintro ⟨key, p, hp⟩
      have hkept := peer?_pruned_eq_some.mp hp
      exact ⟨mem_of_peer? hkept.1, key, p, hkept⟩
    · rintro ⟨-, key, p, hkept⟩
      exact ⟨key, p, peer?_pruned_eq_some.mpr hkept⟩

/-- A full band: a connection, and a UDP peer that was validated by its second packet. -/
theorem reachable_inv_and_atomic_full :
    ∃ r : Registry Nat, Reachable ⟨1, 2, 2⟩ false r ∧
      (r.peer? zeroBand (.udp ⟨9, 40⟩)).any (·.eligible) = true ∧
      (r.apply (.connect zeroBand 2 7 5 5)).registry = r := by
  have hreach := reachable_run ⟨1, 2, 2⟩ false [.connect zeroBand 1 3 0 0,
    .observeUdp zeroBand ⟨9, 40⟩ 4 1 1, .observeUdp zeroBand ⟨9, 40⟩ 5 2 2]
  obtain ⟨-, -, -, -, -, hatomic, -⟩ := reachable_inv_and_atomic hreach
  refine ⟨_, hreach, by decide +kernel, ?_⟩
  exact (hatomic (.connect zeroBand 2 7 5 5) .peerCap (by decide +kernel)).1

end Registry

end Telesthete.Relay
