import Telesthete.Proofs.Delivery
import Telesthete.Relay.Hub
import Mathlib.Data.List.Count
import Mathlib.Data.List.Perm.Subperm
import Telesthete.Lib.NumberedLog

/-!
# What happens to a frame at a hub

A packet of a client that a hub accepts is held until it is forwarded, then
offered to the federation task once the local sinks are served, and waits there
for its turn. Those three places make up `Hub.offered`, and a task only ever moves
a frame from one to the next or drops it: whatever a hub does, what it offers
afterwards was offered before, no frame more often. The copies on their way to
local peers may be many. They all come out of the registry under the band they
were forwarded or injected in, and sinks never leave their band.

`Hub.Inv` collects this, relative to the packets received so far. `Local` is what
is known of a copy that came from a client of this hub, `Faithful` what is known
of any copy.
-/

namespace Telesthete.Relay

open Telesthete.Lib Telesthete.Wire List Option Registry
open Telesthete.Band (SocketAddr)

/-- The band that the header of a frame names. -/
def headerBand (frame : Bytes) : Option BandId := (routeInfo frame).map RouteInfo.bandId

/-! ## The sinks of a registry -/

section registry

variable {r r' : Registry Sink} {band b : BandId} {key k src : PeerKey} {addr : SocketAddr}
  {sink : Sink} {conn : Bool} {now later ttl : Nat} {frame : Bytes} {p q : Peer Sink}

/-- Every sink is registered in the band, and for the peer, that it was made for. -/
def Registry.Pinned (r : Registry Sink) : Prop :=
  ∀ band key p sink, r.peer? band key = some p → p.sink = some sink →
    sink.band = band ∧ sink.key = key

theorem sink_superseded {found : Option (Peer Sink)} :
    (superseded key found k q).sink = q.sink := by
  rcases superseded_cases key found k q with heq | heq
  · rw [heq]
  · rw [heq]

namespace Registry.Pinned

theorem new {limits : Limits} {fed : Bool} : (Registry.new limits fed : Registry Sink).Pinned := by
  rintro _ _ _ _ ⟨⟩

/-- An operation that makes no sink. -/
theorem of_sinks (h : r.Pinned)
    (hsinks : ∀ b k p', r'.peer? b k = some p' → ∃ p, r.peer? b k = some p ∧ p'.sink = p.sink) :
    r'.Pinned := by
  intro b k p' sink hp' hsink
  obtain ⟨p, hp, heq⟩ := hsinks b k p' hp'
  exact h b k p sink hp (heq ▸ hsink)

theorem insert (h : r.Pinned) (hband : sink.band = band) (hkey : sink.key = key) :
    (r.insert band key sink conn now later).registry.Pinned := by
  rw [insert_eq]
  cases r.refusal band with
  | some e => exact h
  | none =>
    intro b k p s hp hs
    have hp' : (r.register band key (Registry.newPeer r.limits sink conn now later)).peer? b k =
        some p := hp
    rw [peer?_register] at hp'
    by_cases heq : b = band ∧ k = key
    · rw [if_pos heq] at hp'
      cases hp'
      obtain ⟨-, hs'⟩ := ite_none_right_eq_some.mp hs
      cases hs'
      exact ⟨hband.trans heq.1.symm, hkey.trans heq.2.symm⟩
    · rw [if_neg heq] at hp'
      exact h b k p s hp' hs

theorem observeUdp (h : r.Pinned) (hband : sink.band = band) (hkey : sink.key = .udp addr) :
    (r.observeUdp band addr sink now later).registry.Pinned := by
  cases hpeer : r.peer? band (.udp addr) with
  | none =>
    rw [observeUdp_of_none hpeer]
    exact h.insert hband hkey
  | some p =>
    intro b k p' s hp' hs
    rw [peer?_observeUdp hpeer] at hp'
    by_cases hb : b = band
    · subst hb
      rw [if_pos rfl] at hp'
      obtain ⟨q, hq, rfl⟩ := map_eq_some_iff.mp hp'
      by_cases hk : k = .udp addr
      · subst hk
        rw [if_pos rfl] at hs
        by_cases hpro : Registry.promotes r.limits now p = true
        · simp only [Registry.observe, if_pos hpro] at hs
          cases hs
          exact ⟨hband, hkey⟩
        · simp only [Registry.observe, if_neg hpro] at hs
          exact h b _ p s hpeer hs
      · rw [if_neg hk] at hs
        split at hs
        · rw [sink_superseded] at hs
          exact h b k q s hq hs
        · exact h b k q s hq hs
    · rw [if_neg hb] at hp'
      exact h b k p' s hp' hs

theorem touch (h : r.Pinned) : (r.touch band key now).registry.Pinned := by
  refine h.of_sinks fun b k p' hp' => ?_
  rw [peer?_touch] at hp'
  by_cases heq : b = band ∧ k = key
  · rw [if_pos heq] at hp'
    obtain ⟨q, hq, rfl⟩ := map_eq_some_iff.mp hp'
    exact ⟨q, hq, rfl⟩
  · rw [if_neg heq] at hp'
    exact ⟨p', hp', rfl⟩

theorem declare {id : UInt16} (h : r.Pinned) : (r.declare band src id).Pinned := by
  refine h.of_sinks fun b k p' hp' => ?_
  rw [peer?_declare] at hp'
  by_cases hb : b = band
  · subst hb
    rw [if_pos rfl] at hp'
    obtain ⟨q, hq, rfl⟩ := map_eq_some_iff.mp hp'
    refine ⟨q, hq, ?_⟩
    rw [sink_superseded]
    split
    · rfl
    · rfl
  · rw [if_neg hb] at hp'
    exact ⟨p', hp', rfl⟩

theorem forward (h : r.Pinned) : (r.forward band src frame).registry.Pinned := by
  rcases registry_forward r band src frame with heq | ⟨id, heq⟩
  · rw [heq]
    exact h
  · rw [heq]
    exact h.declare

theorem disconnect (h : r.Pinned) : (r.disconnect band key).registry.Pinned := by
  refine h.of_sinks fun b k p' hp' => ⟨p', ?_, rfl⟩
  rw [peer?_disconnect] at hp'
  exact (ite_none_left_eq_some.mp hp').2

theorem prune (h : r.Pinned) : (r.prune ttl now).1.registry.Pinned := by
  refine h.of_sinks fun b k p' hp' => ⟨p', ?_, rfl⟩
  have hp : (r.pruned ttl now).peer? b k = some p' := hp'
  rw [peer?_pruned] at hp
  exact (filter_eq_some_iff.mp hp).1

theorem band_of_mem_targets {from? : Option PeerKey} {info : RouteInfo} (h : r.Pinned)
    (hmem : sink ∈ targets (r.peers band) from? info) : sink.band = band := by
  obtain ⟨e, he, hsink⟩ := mem_filterMap.mp hmem
  have hentry := (mem_filter.mp (mem_filter.mp he).1).1
  exact (h band e.1 e.2 sink (AList.mem_lookup_iff.mpr hentry) hsink).1

/-- What is forwarded goes, as it is, to sinks of its band. -/
theorem mem_sends_forward (h : r.Pinned) {x : Sink × Bytes}
    (hx : x ∈ (r.forward band src frame).sends) : x.1.band = band ∧ x.2 = frame := by
  cases hinfo : routeInfo frame with
  | none =>
    rw [forward_of_short hinfo] at hx
    cases hx
  | some info =>
    by_cases hroute : info.channelType = some .route
    · rw [forward_of_route hinfo hroute] at hx
      cases hx
    · rw [(forward_of_ne_route hinfo hroute).2] at hx
      obtain ⟨sink, hsink, rfl⟩ := mem_map.mp hx
      exact ⟨h.band_of_mem_targets hsink, rfl⟩

theorem mem_sends_injectFromLink (h : r.Pinned) {x : Sink × Bytes}
    (hx : x ∈ (r.injectFromLink band frame).sends) : x.1.band = band ∧ x.2 = frame := by
  cases hinfo : routeInfo frame with
  | none =>
    unfold Registry.injectFromLink at hx
    rw [hinfo] at hx
    cases hx
  | some info =>
    by_cases hroute : info.channelType = some .route
    · rw [injectFromLink_of_route hinfo hroute] at hx
      cases hx
    · rw [injectFromLink_of_ne_route hinfo hroute] at hx
      obtain ⟨sink, hsink, rfl⟩ := mem_map.mp hx
      exact ⟨h.band_of_mem_targets hsink, rfl⟩

end Registry.Pinned

/-- What is forwarded is federated at most once. -/
theorem Registry.federated_forward (r : Registry Sink) (band : BandId) (src : PeerKey)
    (frame : Bytes) : (r.forward band src frame).federated.Sublist [(band, frame)] := by
  unfold Registry.forward
  split
  · split
    · exact nil_sublist _
    · dsimp only
      split
      · exact List.Sublist.refl _
      · exact nil_sublist _
  · exact nil_sublist _

end registry

/-! ## Copies -/

variable {H : Type} {receipts more : List (H × Bytes)} {h : H} {band : BandId} {copy : Copy}
variable {tag : Nat} {xs : List (BandId × Copy)}

/-- The copy of a packet that this hub received, from a client, in the band. -/
structure Local (receipts : List (H × Bytes)) (h : H) (band : BandId) (copy : Copy) : Prop where
  hops : copy.mark.hops = 0
  received : receipts[copy.mark.tag]? = some (h, copy.bytes)
  header : headerBand copy.bytes = some band
  size : copy.bytes.length ≤ maxMessage

/-- The copy of a packet of the band that some hub received from a client, at most one link away. -/
structure Faithful (receipts : List (H × Bytes)) (band : BandId) (copy : Copy) : Prop where
  hops : copy.mark.hops ≤ 1
  received : ∃ h, receipts[copy.mark.tag]? = some (h, copy.bytes)
  header : headerBand copy.bytes = some band

theorem getElem?_append_some {α : Type} {l more : List α} {i : Nat} {a : α} (h : l[i]? = some a) :
    (l ++ more)[i]? = some a := by
  obtain ⟨hlt, -⟩ := List.getElem?_eq_some_iff.mp h
  rw [getElem?_append_left hlt]
  exact h

theorem Local.mono (hl : Local receipts h band copy) : Local (receipts ++ more) h band copy :=
  ⟨hl.hops, getElem?_append_some hl.received, hl.header, hl.size⟩

theorem Faithful.mono (hf : Faithful receipts band copy) :
    Faithful (receipts ++ more) band copy := by
  obtain ⟨h, hreceived⟩ := hf.received
  exact ⟨hf.hops, ⟨h, getElem?_append_some hreceived⟩, hf.header⟩

theorem Local.faithful (hl : Local receipts h band copy) : Faithful receipts band copy :=
  ⟨by rw [hl.hops]; exact Nat.zero_le 1, ⟨h, hl.received⟩, hl.header⟩

theorem Local.tag_lt (hl : Local receipts h band copy) : copy.mark.tag < receipts.length :=
  (List.getElem?_eq_some_iff.mp hl.received).1

/-- How many of the frames are copies of a packet. -/
def tally (tag : Nat) (frames : List (BandId × Copy)) : Nat :=
  frames.countP fun x => x.2.mark.tag = tag

@[simp] theorem tally_nil : tally tag [] = 0 := rfl

@[simp] theorem tally_append {xs ys : List (BandId × Copy)} :
    tally tag (xs ++ ys) = tally tag xs + tally tag ys := countP_append

@[simp] theorem tally_cons {x : BandId × Copy} :
    tally tag (x :: xs) = tally tag xs + if x.2.mark.tag = tag then 1 else 0 := by
  simp [tally, countP_cons]

theorem tally_le {xs ys : List (BandId × Copy)} (hle : xs.Subperm ys) :
    tally tag xs ≤ tally tag ys := hle.countP_le _

/-- A packet that is still to come has no copies. -/
theorem tally_eq_zero {frames : List (BandId × Copy)}
    (hlocal : ∀ x ∈ frames, Local receipts h x.1 x.2) (htag : receipts.length ≤ tag) :
    tally tag frames = 0 := by
  refine countP_eq_zero.mpr fun x hx => ?_
  have hlt := (hlocal x hx).tag_lt
  simp only [decide_eq_true_eq]
  omega

/-! ## One hub -/

namespace Hub

variable {hub hub' : Hub} {mark : Mark} {tag i : Nat} {ok : Bool} {sink : Sink} {pkt : Bytes}
variable {key : PeerKey}

/-- The frames that were accepted and not yet forwarded. -/
def held (hub : Hub) : List (BandId × Copy) := hub.accepted.map fun x => (x.1, x.2.2)

/-- The frames that may still go to the links. -/
def offered (hub : Hub) : List (BandId × Copy) :=
  hub.held ++ hub.dispatches.flatMap Dispatch.federated ++ hub.egress

/-- The copies of a packet that may still be queued for a link. -/
def toward (hub : Hub) (k tag : Nat) : Nat :=
  tally tag hub.offered +
    hub.fanning.elim 0 fun f => if f.copy.mark.tag = tag then f.links.count k else 0

/-- What holds of a hub, given the packets received so far. -/
structure Inv (receipts : List (H × Bytes)) (h : H) (hub : Hub) : Prop where
  pinned : hub.registry.Pinned
  offered : ∀ x ∈ hub.offered, Local receipts h x.1 x.2
  offeredOnce : ∀ tag, tally tag hub.offered ≤ 1
  fanning : ∀ f ∈ hub.fanning, Local receipts h f.band f.copy
  sends : ∀ d ∈ hub.dispatches, ∀ x ∈ d.sends, Faithful receipts x.1.band x.2
  queues : ∀ sink, ∀ copy ∈ hub.queues sink, Faithful receipts sink.band copy
  delivered : ∀ x ∈ hub.delivered, Faithful receipts x.1.band x.2
  relayed : ∀ tag ∈ hub.relayed, ∃ bytes, receipts[tag]? = some (h, bytes)
  relayedOnce : ∀ tag, tally tag hub.held + hub.relayed.count tag ≤ 1

theorem inv_new {limits : Limits} {fed : Bool} : (new limits fed).Inv receipts h where
  pinned := .new
  offered := by rintro _ ⟨⟩
  offeredOnce _ := Nat.zero_le 1
  fanning := by rintro _ ⟨⟩
  sends := by rintro _ ⟨⟩
  queues := by rintro _ _ ⟨⟩
  delivered := by rintro _ ⟨⟩
  relayed := by rintro _ ⟨⟩
  relayedOnce _ := Nat.zero_le 1

namespace Inv

theorem mono (hi : hub.Inv receipts h) : hub.Inv (receipts ++ more) h where
  pinned := hi.pinned
  offered x hx := (hi.offered x hx).mono
  offeredOnce := hi.offeredOnce
  fanning f hf := (hi.fanning f hf).mono
  sends d hd x hx := (hi.sends d hd x hx).mono
  queues sink copy hcopy := (hi.queues sink copy hcopy).mono
  delivered x hx := (hi.delivered x hx).mono
  relayed tag htag := by
    obtain ⟨bytes, hbytes⟩ := hi.relayed tag htag
    exact ⟨bytes, getElem?_append_some hbytes⟩
  relayedOnce := hi.relayedOnce

/-- Nothing is known yet of a packet that is still to come. -/
theorem toward_eq_zero (hi : hub.Inv receipts h) (htag : receipts.length ≤ tag) (k : Nat) :
    hub.toward k tag = 0 := by
  unfold toward
  rw [tally_eq_zero hi.offered htag, Nat.zero_add]
  cases hf : hub.fanning with
  | none => rfl
  | some f =>
    have hlt := (hi.fanning f hf).tag_lt
    have hne : f.copy.mark.tag ≠ tag := by omega
    simp [hne]

end Inv

/-! ## Ingress -/

theorem offered_accept :
    (hub.accept band key pkt tag).offered.Perm ((band, ⟨pkt, tag, 0⟩) :: hub.offered) := by
  unfold offered held accept
  simp only [map_append, map_cons, map_nil, append_assoc]
  exact perm_middle

theorem tally_held_accept {t : Nat} :
    tally t (hub.accept band key pkt tag).held =
      tally t hub.held + if tag = t then 1 else 0 := by
  simp [held, accept]

theorem toward_accept {k t : Nat} :
    (hub.accept band key pkt tag).toward k t = hub.toward k t + if tag = t then 1 else 0 := by
  have hcount : tally t (hub.accept band key pkt tag).offered =
      tally t hub.offered + if tag = t then 1 else 0 := by
    rw [tally, offered_accept.countP_eq]
    exact tally_cons
  unfold toward
  rw [hcount]
  show _ + _ + hub.fanning.elim 0 _ = _
  omega

/-- A packet is accepted, and counted among those received. -/
theorem Inv.accept (hi : hub.Inv receipts h) (hheader : headerBand pkt = some band)
    (hsize : pkt.length ≤ maxMessage) :
    (hub.accept band key pkt receipts.length).Inv (receipts ++ [(h, pkt)]) h := by
  have hreceived : (receipts ++ [(h, pkt)])[receipts.length]? = some (h, pkt) := by simp
  have hfresh := tally_eq_zero hi.offered (le_rfl)
  have hnew : receipts.length ∉ hub.relayed := by
    intro hmem
    obtain ⟨bytes, hbytes⟩ := hi.relayed _ hmem
    obtain ⟨hlt, -⟩ := List.getElem?_eq_some_iff.mp hbytes
    exact lt_irrefl _ hlt
  have hheld : tally receipts.length hub.held = 0 := by
    refine tally_eq_zero (fun x hx => hi.offered x ?_) (le_rfl)
    exact mem_append_left _ (mem_append_left _ hx)
  have hmono : hub.Inv (receipts ++ [(h, pkt)]) h := hi.mono
  refine { hmono with
    offered := fun x hx => ?_, offeredOnce := fun t => ?_, relayedOnce := fun t => ?_ }
  · rcases mem_cons.mp (offered_accept.mem_iff.mp hx) with rfl | hx
    · exact ⟨rfl, hreceived, hheader, hsize⟩
    · exact hmono.offered x hx
  · rw [tally, offered_accept.countP_eq]
    have hcons : tally t ((band, ⟨pkt, receipts.length, 0⟩) :: hub.offered) ≤ 1 := by
      rw [tally_cons]
      have honce := hi.offeredOnce t
      split
      · rename_i heq
        rw [← (show receipts.length = t from heq), hfresh]
      · exact honce
    exact hcons
  · rw [tally_held_accept]
    have honce := hi.relayedOnce t
    show _ + hub.relayed.count t ≤ 1
    split
    · rename_i heq
      rw [← heq, hheld, count_eq_zero.mpr hnew]
    · exact honce

/-- Only the registry and the connections change, and sinks stay in their band. -/
def Quiet (hub hub' : Hub) : Prop :=
  ∃ (r : Registry Sink) (next : UInt64) (conns : List Conn), r.Pinned ∧
    hub' = { hub with registry := r, nextConn := next, conns := conns }

theorem Inv.quiet (hi : hub.Inv receipts h) (hquiet : hub.Quiet hub') : hub'.Inv receipts h := by
  obtain ⟨r, next, conns, hr, rfl⟩ := hquiet
  exact { hi with pinned := hr }

/-- What a packet does to a hub: it may be accepted, in the band that its header names. -/
def Takes (pkt : Bytes) (tag : Nat) (hub hub' : Hub) : Prop :=
  ∃ quiet, hub.Quiet quiet ∧
    (hub' = quiet ∨ ∃ band key, headerBand pkt = some band ∧ pkt.length ≤ maxMessage ∧
      hub' = quiet.accept band key pkt tag)

section ingress

variable {now later ttl : Nat} {id : UInt64} {c : Nat} {transport : Transport}

theorem headerBand_of_routeInfo {info : RouteInfo} (hinfo : routeInfo pkt = some info) :
    headerBand pkt = some info.bandId := by
  rw [headerBand, hinfo]
  rfl

theorem Quiet.takes (hquiet : hub.Quiet hub') : Takes pkt tag hub hub' := ⟨hub', hquiet, .inl rfl⟩

theorem quiet_self (hp : hub.registry.Pinned) : hub.Quiet hub :=
  ⟨hub.registry, hub.nextConn, hub.conns, hp, rfl⟩

theorem quiet_close (hp : hub.registry.Pinned) : hub.Quiet (hub.close c) := by
  unfold close
  cases hub.conns[c]? with
  | none => exact quiet_self hp
  | some conn =>
    refine ⟨_, hub.nextConn, _, ?_, rfl⟩
    split
    · exact hp.disconnect
    · exact hp

theorem quiet_prune (hp : hub.registry.Pinned) : hub.Quiet (hub.prune ttl now) :=
  ⟨_, hub.nextConn, hub.conns, hp.prune, rfl⟩

theorem quiet_openWs (hp : hub.registry.Pinned) : hub.Quiet hub.openWs :=
  ⟨hub.registry, hub.nextConn, _, hp, rfl⟩

theorem pinned_connect (hp : hub.registry.Pinned) :
    (hub.connect band tag now later).1.registry.Pinned := hp.insert rfl rfl

theorem quiet_openSession (hp : hub.registry.Pinned) :
    hub.Quiet (hub.openSession transport band tag now later) := by
  unfold openSession
  dsimp only
  split
  · exact ⟨_, hub.nextConn + 1, _, pinned_connect hp, rfl⟩
  · exact ⟨_, hub.nextConn + 1, hub.conns, pinned_connect hp, rfl⟩

theorem takes_recvUdp {src : SocketAddr} (hp : hub.registry.Pinned) (hsize : pkt.length < 2 ^ 16) :
    Takes pkt tag hub (hub.recvUdp src pkt tag now later) := by
  have hmax : pkt.length ≤ maxMessage := le_trans (le_of_lt hsize) (by decide)
  unfold recvUdp
  cases hinfo : routeInfo pkt with
  | none => exact (quiet_self hp).takes
  | some info =>
    have hout : (hub.registry.observeUdp info.bandId src ⟨info.bandId, .udp src, tag⟩ now
        later).registry.Pinned := hp.observeUdp rfl rfl
    refine ⟨_, ⟨_, hub.nextConn, hub.conns, hout, rfl⟩, ?_⟩
    dsimp only
    split
    · exact .inr ⟨info.bandId, _, headerBand_of_routeInfo hinfo, hmax, rfl⟩
    · exact .inl rfl

theorem takes_recvPinned (hp : hub.registry.Pinned) (hsize : pkt.length ≤ maxMessage) :
    Takes pkt tag hub (hub.recvPinned band id pkt tag now) := by
  unfold recvPinned
  cases hinfo : routeInfo pkt with
  | none => exact (quiet_self hp).takes
  | some info =>
    dsimp only
    split
    · rename_i hband
      have hheader := headerBand_of_routeInfo hinfo
      rw [hband] at hheader
      exact ⟨_, ⟨_, hub.nextConn, hub.conns, hp.touch, rfl⟩,
        .inr ⟨band, _, hheader, hsize, rfl⟩⟩
    · exact (quiet_self hp).takes

theorem takes_recvFirst (hp : hub.registry.Pinned) (hsize : pkt.length ≤ maxMessage) :
    Takes pkt tag hub (hub.recvFirst c pkt tag now later) := by
  unfold recvFirst
  cases hinfo : routeInfo pkt with
  | none => exact (quiet_self hp).takes
  | some info =>
    dsimp only
    split
    · exact ⟨_, ⟨_, hub.nextConn + 1, _, pinned_connect hp, rfl⟩,
        .inr ⟨_, _, headerBand_of_routeInfo hinfo, hsize, rfl⟩⟩
    · exact Quiet.takes ⟨_, hub.nextConn + 1, _, pinned_connect hp, rfl⟩

theorem takes_recv (hp : hub.registry.Pinned) (hrecv : hub.recv c pkt tag now later = some hub') :
    Takes pkt tag hub hub' := by
  unfold recv at hrecv
  split at hrecv
  · cases hrecv
  · split at hrecv
    · -- a WebSocket connection
      split at hrecv
      · cases hrecv
        exact (quiet_close hp).takes
      · rename_i hsize
        have hmax := Nat.le_of_not_lt hsize
        split at hrecv
        · cases hrecv
          exact takes_recvPinned hp hmax
        · cases hrecv
          exact takes_recvFirst hp hmax
    · -- a WebTransport session
      obtain ⟨hsize, heq⟩ := ite_none_right_eq_some.mp hrecv
      cases heq
      exact takes_recvPinned hp (le_trans (le_of_lt hsize) (by decide))
    · -- a Unix socket
      split at hrecv
      · cases hrecv
        exact (quiet_close hp).takes
      · split at hrecv
        · cases hrecv
          exact (quiet_self hp).takes
        · rename_i hsize
          cases hrecv
          exact takes_recvPinned hp (Nat.le_trans (Nat.le_of_not_lt hsize) (by decide))
    · cases hrecv

end ingress

/-! ## Fan-out -/

/-- What a task other than an ingress does with the frames that are offered: none is added, and a
frame is only on its way to links that are up or that it was on its way to. -/
structure Moves (hub hub' : Hub) : Prop where
  toward : ∀ k tag, hub'.toward k tag ≤ hub.toward k tag
  links : hub'.links = hub.links
  fanning : ∀ f' ∈ hub'.fanning, ∀ k ∈ f'.links,
    (∃ f ∈ hub.fanning, k ∈ f.links) ∨ k ∈ hub.links

theorem moves_of_subperm (hoffered : hub'.offered.Subperm hub.offered)
    (hlinks : hub'.links = hub.links) (hfanning : hub'.fanning = hub.fanning) :
    hub.Moves hub' where
  toward k tag := by
    unfold toward
    rw [hfanning]
    exact Nat.add_le_add_right (tally_le hoffered) _
  links := hlinks
  fanning f' hf' k hk := .inl ⟨f', hfanning ▸ hf', hk⟩

theorem Quiet.moves (hquiet : hub.Quiet hub') : hub.Moves hub' := by
  obtain ⟨r, next, conns, -, rfl⟩ := hquiet
  exact moves_of_subperm (.refl _) rfl rfl

theorem perm_held {x : BandId × PeerKey × Copy} (hx : hub.accepted[i]? = some x) :
    hub.held.Perm ((x.1, x.2.2) :: (hub.accepted.eraseIdx i).map fun x => (x.1, x.2.2)) := by
  obtain ⟨hlt, hget⟩ := List.getElem?_eq_some_iff.mp hx
  have hperm := getElem_cons_eraseIdx_perm hlt
  rw [hget] at hperm
  exact (hperm.map _).symm

/-- A fan-out that begins serves its sinks with copies of its frame. -/
theorem Inv.sends_dispatch {out : Outcome Sink} (hi : hub.Inv receipts h)
    (hsends : ∀ x ∈ out.sends, Faithful receipts x.1.band ⟨x.2, mark⟩) :
    ∀ d ∈ (hub.dispatch out mark).dispatches, ∀ x ∈ d.sends, Faithful receipts x.1.band x.2 := by
  refine forall_mem_snoc hi.sends fun x hx => ?_
  obtain ⟨y, hy, rfl⟩ := mem_map.mp hx
  exact hsends y hy

/-- A frame that is forwarded is fanned out to local peers, for the only time, and offered to the
federation task at most once. -/
theorem Inv.forward (hi : hub.Inv receipts h) (hforward : hub.forward i = some hub') :
    hub'.Inv receipts h ∧ hub.Moves hub' := by
  unfold Hub.forward at hforward
  cases hx : hub.accepted[i]? with
  | none =>
    rw [hx] at hforward
    cases hforward
  | some x =>
    obtain ⟨band, key, copy⟩ := x
    rw [hx] at hforward
    cases hforward
    have hheld := perm_held hx
    have hmem : (band, copy) ∈ hub.held := hheld.mem_iff.mpr mem_cons_self
    have hlocal : Local receipts h band copy :=
      hi.offered _ (mem_append_left _ (mem_append_left _ hmem))
    have hfederated : ((hub.registry.forward band key copy.bytes).federated.map
        (marked copy.mark)).Sublist [(band, copy)] :=
      (hub.registry.federated_forward band key copy.bytes).map _
    generalize hout : hub.registry.forward band key copy.bytes = out at hfederated
    have hoffered : ({ hub.dispatch out copy.mark with
        accepted := hub.accepted.eraseIdx i
        relayed := hub.relayed ++ [copy.mark.tag] } : Hub).offered.Subperm hub.offered := by
      have hmoved : hub.offered.Perm
          ((hub.accepted.eraseIdx i).map (fun x => (x.1, x.2.2)) ++
            (hub.dispatches.flatMap Dispatch.federated ++ [(band, copy)]) ++ hub.egress) := by
        refine ((hheld.append_right _).append_right _).trans ?_
        simp only [append_assoc, cons_append, nil_append]
        rw [← append_assoc, ← append_assoc]
        exact perm_middle.symm
      refine List.Subperm.trans ?_ hmoved.symm.subperm
      refine List.Sublist.subperm ?_
      simp only [Hub.offered, held, Hub.dispatch, flatMap_append, flatMap_singleton]
      exact (((List.Sublist.refl _).append hfederated).append_left _).append_right _
    refine ⟨⟨?_, fun x hx => hi.offered x (hoffered.subset hx), fun tag => ?_, hi.fanning,
      hi.sends_dispatch fun x hx => ?_, hi.queues, hi.delivered, fun tag htag => ?_,
      fun tag => ?_⟩, moves_of_subperm hoffered rfl rfl⟩
    · rw [← hout]
      exact hi.pinned.forward
    · exact le_trans (tally_le hoffered) (hi.offeredOnce tag)
    · rw [← hout] at hx
      obtain ⟨hband, hbytes⟩ := hi.pinned.mem_sends_forward hx
      rw [hband, hbytes]
      exact hlocal.faithful
    · exact forall_mem_snoc hi.relayed ⟨copy.bytes, hlocal.received⟩ tag htag
    · have honce := hi.relayedOnce tag
      rw [tally, hheld.countP_eq] at honce
      change tally tag (_ :: _) + _ ≤ 1 at honce
      rw [tally_cons] at honce
      show tally tag ((hub.accepted.eraseIdx i).map _) +
        (hub.relayed ++ [copy.mark.tag]).count tag ≤ 1
      rw [count_append, count_singleton]
      simp only [beq_iff_eq] at honce ⊢
      omega

/-- A frame from a link is fanned out to local peers and not offered to any link. -/
theorem Inv.inject (hi : hub.Inv receipts h) (hcopy : Faithful receipts band copy) :
    (hub.inject band copy).Inv receipts h ∧ hub.Moves (hub.inject band copy) := by
  have hfederated : (hub.registry.injectFromLink band copy.bytes).federated = [] :=
    federated_injectFromLink
  have hoffered : (hub.inject band copy).offered = hub.offered := by
    simp [Hub.offered, held, Hub.inject, Hub.dispatch, hfederated]
  refine ⟨⟨?_, ?_, ?_, hi.fanning, hi.sends_dispatch fun x hx => ?_, hi.queues, hi.delivered,
    hi.relayed, hi.relayedOnce⟩, moves_of_subperm (by rw [hoffered]) rfl rfl⟩
  · show (hub.registry.injectFromLink band copy.bytes).registry.Pinned
    rw [registry_injectFromLink]
    exact hi.pinned
  · rw [hoffered]
    exact hi.offered
  · rw [hoffered]
    exact hi.offeredOnce
  · obtain ⟨hband, hbytes⟩ := hi.pinned.mem_sends_injectFromLink hx
    rw [hband, hbytes]
    exact hcopy

/-- An element is replaced by one that stands for the same list. -/
theorem flatMap_set {α β : Type} {f : α → List β} {l : List α} {a b : α} (ha : l[i]? = some a)
    (hb : f b = f a) : (l.set i b).flatMap f = l.flatMap f := by
  obtain ⟨hlt, rfl⟩ := List.getElem?_eq_some_iff.mp ha
  have hmap : (l.set i b).map f = l.map f := by
    rw [map_set, hb, ← map_set, set_getElem_self]
  rw [flatMap_def, flatMap_def, hmap]

theorem Inv.send (hi : hub.Inv receipts h) (hsend : hub.send i ok = some hub') :
    hub'.Inv receipts h ∧ hub.Moves hub' := by
  unfold Hub.send at hsend
  split at hsend
  · rename_i sink copy sends federated hd
    cases hsend
    have hmem : (⟨(sink, copy) :: sends, federated⟩ : Dispatch) ∈ hub.dispatches :=
      mem_of_getElem? hd
    have hsends := hi.sends _ hmem
    have hfederated : (hub.dispatches.set i ⟨sends, federated⟩).flatMap Dispatch.federated =
        hub.dispatches.flatMap Dispatch.federated := flatMap_set hd rfl
    have hoffered : ({ hub with
          dispatches := hub.dispatches.set i ⟨sends, federated⟩
          queues :=
            if ok then Function.update hub.queues sink (hub.queues sink ++ [copy])
            else hub.queues } : Hub).offered = hub.offered := by
      unfold Hub.offered
      rw [hfederated]
      rfl
    refine ⟨⟨hi.pinned, ?_, ?_, hi.fanning, fun d hd => ?_, fun s c hc => ?_, hi.delivered,
      hi.relayed, hi.relayedOnce⟩, moves_of_subperm (by rw [hoffered]) rfl rfl⟩
    · rw [hoffered]
      exact hi.offered
    · rw [hoffered]
      exact hi.offeredOnce
    · rcases mem_or_eq_of_mem_set hd with hd | rfl
      · exact hi.sends d hd
      · exact fun x hx => hsends x (mem_cons_of_mem _ hx)
    · dsimp only at hc
      split at hc
      · rw [Function.update_apply] at hc
        split at hc
        · rename_i heq
          rcases mem_append.mp hc with hc | hc
          · exact heq ▸ hi.queues sink c hc
          · obtain rfl := mem_singleton.mp hc
            exact heq ▸ hsends _ mem_cons_self
        · exact hi.queues s c hc
      · exact hi.queues s c hc
  · cases hsend

theorem Inv.federate (hi : hub.Inv receipts h) (hfederate : hub.federate i ok = some hub') :
    hub'.Inv receipts h ∧ hub.Moves hub' := by
  unfold Hub.federate at hfederate
  split at hfederate
  · rename_i federated hd
    cases hfederate
    obtain ⟨hlt, hget⟩ := List.getElem?_eq_some_iff.mp hd
    have hperm := getElem_cons_eraseIdx_perm hlt
    rw [hget] at hperm
    have hmoved : hub.offered.Perm
        (hub.held ++ (hub.dispatches.eraseIdx i).flatMap Dispatch.federated ++
          (hub.egress ++ federated)) := by
      have hflat := (hperm.flatMap_right Dispatch.federated).symm
      rw [flatMap_cons] at hflat
      refine ((hflat.append_left hub.held).append_right hub.egress).trans ?_
      refine perm_iff_count.mpr fun x => ?_
      simp only [count_append]
      omega
    have hoffered : ({ hub with
          dispatches := hub.dispatches.eraseIdx i
          egress := if ok then hub.egress ++ federated else hub.egress } : Hub).offered.Subperm
        hub.offered := by
      refine List.Subperm.trans (List.Sublist.subperm ?_) hmoved.symm.subperm
      refine List.Sublist.append_left ?_ _
      split
      · exact List.Sublist.refl _
      · exact sublist_append_left _ _
    refine ⟨{ hi with
      offered := fun x hx => hi.offered x (hoffered.subset hx)
      offeredOnce := fun tag => le_trans (tally_le hoffered) (hi.offeredOnce tag)
      sends := fun d hd => hi.sends d (mem_of_mem_eraseIdx hd) },
      moves_of_subperm hoffered rfl rfl⟩
  · cases hfederate

theorem Inv.write (hi : hub.Inv receipts h) (hwrite : hub.write sink ok = some hub') :
    hub'.Inv receipts h ∧ hub.Moves hub' := by
  unfold Hub.write at hwrite
  split at hwrite
  · rename_i copy queue hqueue
    cases hwrite
    have hall := hi.queues sink
    rw [hqueue] at hall
    refine ⟨{ hi with queues := fun s c hc => ?_, delivered := fun x hx => ?_ }, moves_of_subperm (.refl _) rfl rfl⟩
    · dsimp only at hc
      rw [Function.update_apply] at hc
      split at hc
      · rename_i heq
        exact heq ▸ hall c (mem_cons_of_mem _ hc)
      · exact hi.queues s c hc
    · dsimp only at hx
      split at hx
      · exact forall_mem_snoc hi.delivered (hall copy mem_cons_self) x hx
      · exact hi.delivered x hx
  · cases hwrite

/-- The federation task takes a frame: from now on it is on its way to each link that is up. -/
theorem Inv.fanEgress (hi : hub.Inv receipts h) (hlinks : hub.links.Nodup)
    (hfan : hub.fanEgress = some hub') : hub'.Inv receipts h ∧ hub.Moves hub' := by
  unfold Hub.fanEgress at hfan
  split at hfan
  · rename_i band copy egress hfanning hegress
    cases hfan
    have hmem : (band, copy) ∈ hub.offered := by
      refine mem_append_right _ ?_
      rw [hegress]
      exact mem_cons_self
    have hcount : ∀ tag, tally tag hub.offered =
        tally tag (hub.held ++ hub.dispatches.flatMap Dispatch.federated ++ egress) +
          if copy.mark.tag = tag then 1 else 0 := by
      intro tag
      simp only [Hub.offered, hegress, tally_append, tally_cons]
      omega
    have hsub : (hub.held ++ hub.dispatches.flatMap Dispatch.federated ++ egress).Sublist
        hub.offered := by
      unfold Hub.offered
      rw [hegress]
      exact (sublist_cons_self _ _).append_left _
    refine ⟨{ hi with
      offered := fun x hx => hi.offered x (hsub.subset hx)
      offeredOnce := fun tag => le_trans (tally_le hsub.subperm) (hi.offeredOnce tag)
      fanning := ?_ }, ⟨fun k tag => ?_, rfl, ?_⟩⟩
    · rintro f ⟨⟩
      exact hi.offered _ hmem
    · have hone : hub.links.count k ≤ 1 := nodup_iff_count_le_one.mp hlinks k
      show tally tag (hub.held ++ hub.dispatches.flatMap Dispatch.federated ++ egress) +
        (if copy.mark.tag = tag then hub.links.count k else 0) ≤ hub.toward k tag
      unfold Hub.toward
      rw [hcount, hfanning]
      split
      · omega
      · omega
    · rintro f ⟨⟩ k hk
      exact .inr hk
  · cases hfan

end Hub

end Telesthete.Relay
