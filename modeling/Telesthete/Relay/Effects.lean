import Telesthete.Relay.Registry

/-!
# What the operations of a registry do to its peers

Every property of a registry is about the peer found under a band and a key,
`peer?`, and about how many bands and peers there are. This module says for each
operation what it leaves under every key, as a function of what was there, so
that no later proof unfolds an operation: a registration is `insert_eq` with
`peer?_register`, the operations that change peers in place are `peer?_observeUdp`,
`peer?_touch` and `peer?_forward`, and the two that remove peers are
`peer?_disconnect` and `peer?_pruned`.
-/

namespace Telesthete.Relay

open Telesthete.Lib Telesthete.Wire
open Telesthete.Band (SocketAddr)

variable {S : Type} {r : Registry S} {band b : BandId} {key k : PeerKey} {addr : SocketAddr}
  {sink : S} {conn : Bool} {now later ttl : Nat} {frame : Bytes} {peers : Peers S}

/-! ## Taking over a route id -/

/-- What a peer under `k` keeps when the peer found under `key` takes its route id. -/
def superseded (key : PeerKey) (found : Option (Peer S)) (k : PeerKey) (q : Peer S) : Peer S :=
  match key, found with
  | .udp addr, some p =>
    match p.route, p.eligible with
    | some id, true => if rebound addr id p.firstSeen k q then { q with route := none } else q
    | _, _ => q
  | _, _ => q

theorem lookup_supersedeRebound :
    (supersedeRebound peers key).lookup k =
      (peers.lookup k).map (superseded key (peers.lookup key) k) := by
  have hid : ∀ o : Option (Peer S), o = o.map fun q => q := fun o => by simp
  unfold supersedeRebound superseded
  cases key with
  | conn id => exact hid _
  | udp addr =>
    cases peers.lookup (.udp addr) with
    | none => exact hid _
    | some p =>
      obtain ⟨sink, first, last, eligible, seen, route, packets, made⟩ := p
      cases route with
      | none => exact hid _
      | some id =>
        cases eligible with
        | false => exact hid _
        | true => exact lookup_mapVals

theorem length_supersedeRebound :
    (supersedeRebound peers key).entries.length = peers.entries.length := by
  unfold supersedeRebound
  split
  · split
    · exact length_entries_mapVals
    · rfl
  · rfl

theorem superseded_cases (key : PeerKey) (found : Option (Peer S)) (k : PeerKey) (q : Peer S) :
    superseded key found k q = q ∨ superseded key found k q = { q with route := none } := by
  unfold superseded
  split
  · split
    · split
      · exact .inr rfl
      · exact .inl rfl
    · exact .inl rfl
  · exact .inl rfl

/-- Only an eligible UDP peer takes an id, from another port of its own IP. -/
theorem superseded_eq_self {found : Option (Peer S)} {q : Peer S}
    (h : ∀ addr a p, key = .udp addr → k = .udp a → found = some p → p.eligible = true →
      a = addr ∨ a.ip ≠ addr.ip) :
    superseded key found k q = q := by
  unfold superseded
  split
  · rename_i addr p
    split
    · rename_i id _ heligible
      cases k with
      | conn _ => rfl
      | udp a =>
        have hnot : rebound addr id p.firstSeen (.udp a) q = false := by
          rcases h addr a p rfl rfl rfl heligible with heq | hip
          · simp [rebound, heq]
          · simp [rebound, hip]
        rw [hnot]
        rfl
    · rfl
  · rfl

theorem superseded_self {found : Option (Peer S)} {q : Peer S} :
    superseded key found key q = q :=
  superseded_eq_self fun _ _ _ h h' _ _ => .inl (PeerKey.udp.inj (h'.symm.trans h))

/-! ## Changing peers in place -/

namespace Registry

variable {f : Peers S → Peers S} {p : Peer S} {src : PeerKey} {info : RouteInfo}

theorem peers_update (hf : f ∅ = ∅) :
    (r.update band f).peers b = if b = band then f (r.peers b) else r.peers b := by
  unfold peers update
  rw [lookup_modify]
  by_cases h : b = band
  · rw [if_pos h, if_pos h]
    cases r.bands.lookup b with
    | none => exact hf.symm
    | some peers => rfl
  · rw [if_neg h, if_neg h]

theorem peer?_update (hf : f ∅ = ∅) :
    (r.update band f).peer? b k =
      if b = band then (f (r.peers band)).lookup k else r.peer? b k := by
  unfold peer?
  rw [peers_update hf]
  by_cases h : b = band
  · rw [if_pos h, if_pos h, h]
  · rw [if_neg h, if_neg h]

theorem modify_empty {f : Peer S → Peer S} :
    modify key f (∅ : Peers S) = ∅ := rfl

theorem supersedeRebound_empty : supersedeRebound (∅ : Peers S) key = ∅ := by
  unfold supersedeRebound
  cases key with
  | conn _ => rfl
  | udp _ => rfl

/-- Refreshing a peer changes nothing but that peer. -/
theorem peer?_touch :
    (r.touch band key now).registry.peer? b k =
      if b = band ∧ k = key then (r.peer? b k).map (·.observed now) else r.peer? b k := by
  show (r.update band (modify key (·.observed now))).peer? b k = _
  rw [peer?_update modify_empty, lookup_modify]
  by_cases hb : b = band
  · subst hb
    by_cases hk : k = key
    · simp [hk, peer?]
    · simp [hk, peer?]
  · simp [hb]

/-- A datagram now makes the peer eligible. -/
def promotes (limits : Limits) (now : Nat) (p : Peer S) : Bool :=
  !p.eligible && limits.udpValidationPackets ≤ (p.observed now).seen

/-- The peer as a datagram leaves it. -/
def observe (limits : Limits) (sink : S) (now : Nat) (p : Peer S) : Peer S :=
  if promotes limits now p then
    { p.observed now with eligible := true, sink := some sink, made := p.made + 1 }
  else p.observed now

/-- A datagram from a peer that is there. -/
theorem observeUdp_of_peer (h : r.peer? band (.udp addr) = some p) :
    r.observeUdp band addr sink now later =
      if promotes r.limits now p then
        { registry := r.update band fun peers =>
            supersedeRebound (modify (.udp addr) (fun _ => observe r.limits sink now p) peers)
              (.udp addr)
          made := 1 }
      else
        { registry := r.update band
            (modify (.udp addr) fun _ => observe r.limits sink now p) } := by
  have hobs : (!(p.observed now).eligible &&
      decide (r.limits.udpValidationPackets ≤ (p.observed now).seen)) =
        promotes r.limits now p := rfl
  simp only [observeUdp, h, hobs, observe]
  by_cases hp : promotes r.limits now p = true
  · simp only [if_pos hp]
    rfl
  · simp only [if_neg hp]

theorem observeUdp_of_none (h : r.peer? band (.udp addr) = none) :
    r.observeUdp band addr sink now later = r.insert band (.udp addr) sink false now later := by
  simp only [observeUdp, h]

theorem peer?_observeUdp (h : r.peer? band (.udp addr) = some p) :
    (r.observeUdp band addr sink now later).registry.peer? b k =
      if b = band then
        (r.peer? b k).map fun q =>
          if k = .udp addr then observe r.limits sink now p
          else if promotes r.limits now p then
            superseded (.udp addr) (some (observe r.limits sink now p)) k q
          else q
      else r.peer? b k := by
  have hp : (r.peers band).lookup (.udp addr) = some p := h
  rw [observeUdp_of_peer h]
  by_cases hpro : promotes r.limits now p = true
  · rw [if_pos hpro]
    rw [peer?_update (by rw [modify_empty, supersedeRebound_empty])]
    by_cases hb : b = band
    · subst hb
      rw [if_pos rfl, if_pos rfl, lookup_supersedeRebound, lookup_modify, lookup_modify,
        if_pos rfl, hp]
      by_cases hk : k = .udp addr
      · subst hk
        simp [peer?, hp, superseded_self]
      · simp [peer?, hk, hpro]
    · rw [if_neg hb, if_neg hb]
  · rw [if_neg hpro]
    rw [peer?_update modify_empty]
    by_cases hb : b = band
    · subst hb
      rw [if_pos rfl, if_pos rfl, lookup_modify]
      by_cases hk : k = .udp addr
      · subst hk
        simp [peer?, hp]
      · simp [peer?, hk, hpro]
    · rw [if_neg hb, if_neg hb]

/-- The peer with the route id it declares; the id 0 declares none. -/
def routed (id : UInt16) (p : Peer S) : Peer S :=
  { p with route := if id ≠ 0 then some id else none }

/-- The registry after a declaration. -/
def declare (r : Registry S) (band : BandId) (src : PeerKey) (id : UInt16) : Registry S :=
  r.update band fun peers => supersedeRebound (modify src (routed id) peers) src

theorem peer?_declare {id : UInt16} :
    (r.declare band src id).peer? b k =
      if b = band then
        (r.peer? b k).map fun q =>
          superseded src ((r.peer? band src).map (routed id)) k
            (if k = src then routed id q else q)
      else r.peer? b k := by
  unfold declare
  rw [peer?_update (by rw [modify_empty, supersedeRebound_empty])]
  by_cases hb : b = band
  · subst hb
    rw [if_pos rfl, if_pos rfl, lookup_supersedeRebound, lookup_modify, lookup_modify, if_pos rfl]
    by_cases hk : k = src
    · subst hk
      simp [peer?, Function.comp_def]
    · simp [peer?, hk]
  · rw [if_neg hb, if_neg hb]

theorem update_of_notMem (h : r.bands.lookup band = none) :
    r.update band f = r := by
  unfold update
  rw [modify_of_notMem (AList.lookup_eq_none.mp h)]

/-- A declaration is recorded, and goes nowhere. -/
theorem forward_of_route (hinfo : routeInfo frame = some info)
    (hroute : info.channelType = some .route) :
    r.forward band src frame = { registry := r.declare band src info.channelId } := by
  unfold forward
  rw [hinfo]
  cases hband : r.bands.lookup band with
  | none => simp only [declare, update_of_notMem hband]
  | some peers =>
    simp only [if_pos hroute]
    rfl

/-- Any other frame leaves the registry alone. -/
theorem forward_of_ne_route (hinfo : routeInfo frame = some info)
    (hroute : info.channelType ≠ some .route) :
    (r.forward band src frame).registry = r ∧
      (r.forward band src frame).sends =
        (targets (r.peers band) (some src) info).map fun sink => (sink, frame) := by
  unfold forward peers
  rw [hinfo]
  cases r.bands.lookup band with
  | none => exact ⟨rfl, rfl⟩
  | some peers =>
    simp [hroute]

theorem forward_of_short (hinfo : routeInfo frame = none) :
    r.forward band src frame = { registry := r } := by
  unfold forward
  rw [hinfo]

theorem injectFromLink_of_route (hinfo : routeInfo frame = some info)
    (hroute : info.channelType = some .route) :
    r.injectFromLink band frame = { registry := r } := by
  unfold injectFromLink
  rw [hinfo]
  cases r.bands.lookup band with
  | none => rfl
  | some peers => simp only [if_pos hroute]

theorem injectFromLink_of_ne_route (hinfo : routeInfo frame = some info)
    (hroute : info.channelType ≠ some .route) :
    r.injectFromLink band frame =
      { registry := r
        sends := (targets (r.peers band) none info).map fun sink => (sink, frame) } := by
  unfold injectFromLink peers
  rw [hinfo]
  cases r.bands.lookup band with
  | none => rfl
  | some peers =>
    simp only [if_neg hroute]
    rfl

theorem registry_injectFromLink : (r.injectFromLink band frame).registry = r := by
  unfold injectFromLink
  split
  · split
    · rfl
    · rfl
  · rfl

/-! ## Registering and removing peers -/

/-- Why a registration in the band is refused, if it is. -/
def refusal (r : Registry S) (band : BandId) : Option RegError :=
  if (r.bands.lookup band).isNone && r.limits.maxBands ≤ r.bands.entries.length then
    some .bandCap
  else if r.limits.maxPeersPerBand ≤ (r.peers band).entries.length then some .peerCap
  else none

/-- A peer as it is registered. -/
def newPeer (limits : Limits) (sink : S) (conn : Bool) (now later : Nat) : Peer S :=
  let eligible := conn || limits.udpValidationPackets ≤ 1
  { sink := if eligible then some sink else none
    firstSeen := now
    lastSeen := later
    eligible
    seen := 1
    route := none
    packets := 1
    made := if eligible then 1 else 0 }

def register (r : Registry S) (band : BandId) (key : PeerKey) (peer : Peer S) : Registry S :=
  { r with bands := r.bands.insert band ((r.peers band).insert key peer) }

/-- A refused registration undoes the band it made. -/
theorem insert_eq :
    r.insert band key sink conn now later =
      match r.refusal band with
      | some e => { registry := r, result := .error e }
      | none =>
        { registry := r.register band key (newPeer r.limits sink conn now later)
          made := (newPeer r.limits sink conn now later).made } := by
  obtain ⟨bands, limits, fed⟩ := r
  cases hband : bands.lookup band with
  | none =>
    have hnot : band ∉ bands := AList.lookup_eq_none.mp hband
    have hundo : (bands.insert band (∅ : Peers S)).erase band = bands := erase_insert hnot
    by_cases hcap : limits.maxBands ≤ bands.entries.length
    · simp [insert, refusal, hband, hcap]
    · by_cases hpeers : limits.maxPeersPerBand = 0
      · simp [insert, refusal, peers, hband, hcap, hpeers, hundo]
      · simp [insert, refusal, peers, hband, hcap, hpeers, register, newPeer]
  | some found =>
    by_cases hpeers : limits.maxPeersPerBand ≤ found.entries.length
    · simp [insert, refusal, peers, hband, hpeers]
    · simp [insert, refusal, peers, hband, hpeers, register, newPeer]

theorem peer?_register :
    (r.register band key p).peer? b k = if b = band ∧ k = key then some p else r.peer? b k := by
  unfold peer? peers register
  rw [lookup_insert_ite]
  by_cases hb : b = band
  · subst hb
    by_cases hk : k = key
    · subst hk
      simp
    · simp [hk, peers]
  · simp [hb]

theorem peer?_disconnect :
    (r.disconnect band key).registry.peer? b k =
      if b = band ∧ k = key then none else r.peer? b k := by
  unfold disconnect
  cases hband : r.bands.lookup band with
  | none =>
    by_cases hb : b = band
    · subst hb
      simp [peer?, peers, hband]
    · simp [hb]
  | some found =>
    -- either way the peers of the band are those found, without the key
    have hpeers : (if (found.erase key).entries.isEmpty then
          ({ registry := { r with bands := r.bands.erase band } } : Outcome S)
        else { registry := r.update band fun _ => found.erase key }).registry.peers b =
        if b = band then found.erase key else r.peers b := by
      by_cases hempty : (found.erase key).entries.isEmpty = true
      · rw [if_pos hempty, eq_empty_of_isEmpty hempty]
        show ((r.bands.erase band).lookup b).getD ∅ = _
        rw [lookup_erase_ite]
        by_cases hb : b = band
        · rw [if_pos hb, if_pos hb]
          rfl
        · rw [if_neg hb, if_neg hb]
          rfl
      · rw [if_neg hempty]
        show ((modify band _ r.bands).lookup b).getD ∅ = _
        rw [lookup_modify]
        by_cases hb : b = band
        · rw [if_pos hb, if_pos hb, hb, hband]
          rfl
        · rw [if_neg hb, if_neg hb]
          rfl
    show AList.lookup k (Registry.peers _ b) = _
    rw [hpeers]
    by_cases hb : b = band
    · subst hb
      rw [if_pos rfl, lookup_erase_ite]
      simp [peer?, peers, hband]
    · simp [hb, peer?]

/-- A band that loses its last peer goes, but then it has no peers to speak of. -/
theorem peers_pruned : (r.pruned ttl now).peers b = filterVals (retained ttl now) (r.peers b) := by
  unfold peers pruned
  rw [lookup_filterVals, lookup_mapVals]
  cases r.bands.lookup b with
  | none => rfl
  | some found =>
    by_cases hempty : (filterVals (retained ttl now) found).entries.isEmpty = true
    · simp only [Option.map_some, Option.getD_some, eq_empty_of_isEmpty hempty]
      rfl
    · simp [Option.filter_some, hempty]

theorem peer?_pruned :
    (r.pruned ttl now).peer? b k = (r.peer? b k).filter (retained ttl now k) := by
  unfold peer?
  rw [peers_pruned, lookup_filterVals]

end Registry

end Telesthete.Relay
