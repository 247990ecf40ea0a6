import Telesthete.Proofs.ControlReplay

/-!
# Epochs of undisturbed peers

As long as the control task forgets nobody, the epoch committed for an address
only grows, the epoch registered for it follows, and every data packet in the
band is of an epoch that was registered when it was decoded. `Undisturbed`
is the condition: no GOODBYE is handled, nobody is evicted from the registry.
The soft-cap prune is then harmless, since every committed address is in the
registry by the time the next packet is taken.
-/

namespace Telesthete.Band

open Telesthete.Lib Telesthete.Crypto Telesthete.Wire

/-- The network delivers genuine packets, no GOODBYE is handled, nobody is evicted. -/
def Undisturbed (m : Band) : Event → Prop
  | .recv _ wire => Genuine m.cfg.psk wire
  | .control =>
    ∀ pkt ∈ m.controlQueue.head?, ∀ env ∈ pkt.payload.envelope, env.type ≠ typeGoodbye
  | .effect _ => ∀ addr, m.pending.head? = some (.makeRoom addr) →
      m.peers.lookup addr = none → m.peers.entries.length < peerMapSoftCap
  | .keepalive now => ∀ seen, m.keepalive = .scanned seen → ∀ addr, m.isLive addr = true →
      (seen.lookup addr).any (fun t => now - t < m.deadAfter) = true
  | _ => True

theorem Undisturbed.genuineNet {m : Band} {e : Event} (h : Undisturbed m e) : GenuineNet m e := by
  cases e with
  | recv source wire => exact h
  | _ => trivial

/-- The effect removes nothing. -/
def Effect.Keeps : Effect → Prop
  | .removePeer _ => False
  | .forget _ => False
  | _ => True

theorem Greeting.welcome_keeps {cfg : ControlConfig} {pkt : Inbound} {g : Greeting} :
    ∀ effect ∈ g.welcome cfg pkt, effect.Keeps :=
  forall_welcome trivial trivial trivial trivial (fun _ => trivial) trivial

section Registry

variable {m m' : Band} {e : Event}

/-- The registry changes by an effect or by the keepalive loop. -/
theorem step_peers (h : m.step e = some m') :
    (m'.peers = m.peers ∧ m'.keepalive = m.keepalive) ∨ (∃ victim, e = .effect victim) ∨
      ∃ now, e = .keepalive now ∧ m' = m.keepaliveStep now := by
  cases step_happens h with
  | dispatch _ =>
    obtain ⟨_, _, _, _, hframe⟩ := route_frame _
    rw [hframe]
    exact .inl ⟨rfl, rfl⟩
  | effect _ _ => exact .inr (.inl ⟨_, rfl⟩)
  | keepalive => exact .inr (.inr ⟨_, rfl, rfl⟩)
  | boardDemux _ | dropDemux _ =>
    obtain ⟨_, hframe⟩ := demux_frame _ _
    rw [hframe]
    exact .inl ⟨rfl, rfl⟩
  | _ => exact .inl ⟨rfl, rfl⟩

theorem isLive_insert {addr a : SocketAddr} {state : PeerState} (h : m.isLive addr = true) :
    ({ m with peers := m.peers.insert a state } : Band).isLive addr = true := by
  unfold isLive
  rw [lookup_insert_ite]
  split
  · rfl
  · exact h

/-- An effect that removes nothing, and for which no room is needed. -/
theorem perform_isLive {victim : SocketAddr} {effect : Effect} (hkeeps : effect.Keeps)
    (hroom : ∀ addr, effect = .makeRoom addr → m.peers.lookup addr = none →
      m.peers.entries.length < peerMapSoftCap)
    (h : m.perform victim effect = some m') :
    m'.keepalive = m.keepalive ∧
      (∀ addr, m.isLive addr = true → m'.isLive addr = true) ∧
      ∀ addr state, effect = .insertPeer addr state → m'.isLive addr = true := by
  cases effect with
  | removePeer addr => exact hkeeps.elim
  | forget op => exact hkeeps.elim
  | makeRoom addr =>
    rcases makeRoom_cases h with ⟨hnone, hfull, -⟩ | rfl
    · exact absurd hfull (not_le.mpr (hroom addr rfl hnone))
    · exact ⟨rfl, fun _ h => h, by rintro _ _ ⟨⟩⟩
  | insertPeer addr state =>
    cases h
    refine ⟨rfl, fun _ => isLive_insert, ?_⟩
    intro a st heq
    obtain ⟨rfl, rfl⟩ := Effect.insertPeer.inj heq
    unfold isLive
    rw [AList.lookup_insert]
    rfl
  | _ =>
    cases h
    exact ⟨rfl, fun _ h => h, by rintro _ _ ⟨⟩⟩

/-- The keepalive loop, when its scan finds nobody dead. -/
theorem keepaliveStep_isLive {now : Nat} (hspares : ∀ ops, m.keepalive = .evicting ops → ops = [])
    (hok : Undisturbed m (.keepalive now)) :
    (∀ addr, m.isLive addr = true → (m.keepaliveStep now).isLive addr = true) ∧
      ∀ ops, (m.keepaliveStep now).keepalive = .evicting ops → ops = [] := by
  unfold keepaliveStep
  split
  · exact ⟨fun _ h => h, nofun⟩
  · exact ⟨fun _ h => h, nofun⟩
  · exact ⟨fun _ h => h, nofun⟩
  · rename_i seen hscan
    have halive := hok seen hscan
    refine ⟨fun addr haddr => ?_, ?_⟩
    · unfold isLive
      rw [lookup_retain, if_pos (halive addr haddr)]
      exact haddr
    · intro ops hops
      obtain rfl := Keepalive.evicting.inj hops
      rw [List.flatMap_eq_nil_iff]
      intro addr haddr
      obtain ⟨hkey, hdead⟩ := List.mem_filter.mp haddr
      have hlive : m.isLive addr = true := AList.lookup_isSome.mpr hkey
      dsimp only at hdead
      rw [halive addr hlive] at hdead
      cases hdead
  · rename_i op rest hevict
    cases hspares _ hevict
  · exact ⟨fun _ h => h, nofun⟩

end Registry

/-- What is committed and registered while nobody is forgotten. -/
structure EpochInv (m : Band) : Prop where
  arrivals : Arrivals m
  registered : ∀ addr r, m.registeredEpoch addr = some r →
    ∃ s, m.control.sessions.lookup addr = some s ∧ r ≤ s
  registering : ∀ addr key suite, .registerPeerKey addr key suite ∈ m.pending →
    m.control.sessions.lookup addr = some key.epoch
  keeps : ∀ effect ∈ m.pending, effect.Keeps
  live : ∀ addr s, m.control.sessions.lookup addr = some s →
    m.isLive addr = true ∨ ∃ state, .insertPeer addr state ∈ m.pending
  spares : ∀ ops, m.keepalive = .evicting ops → ops = []

namespace EpochInv

variable {m m' : Band} {e : Event}

/-- The prune removes no epoch: whoever has one is in the registry. -/
theorem prune_sessions (hm : EpochInv m) (hpend : m.pending = []) (addr : SocketAddr) :
    (m.control.prune m.isLive).sessions.lookup addr = m.control.sessions.lookup addr := by
  unfold ControlTask.prune
  split
  · rw [lookup_retain]
    cases hses : m.control.sessions.lookup addr with
    | none => exact ite_self _
    | some s =>
      have hlive : m.isLive addr = true := by
        rcases hm.live addr s hses with hlive | ⟨state, hmem⟩
        · exact hlive
        · rw [hpend] at hmem
          cases hmem
      exact if_pos hlive
  · rfl

theorem taken (hm : EpochInv m) {pkt : Inbound} {rest : List Inbound} (hpend : m.pending = [])
    (hqueue : m.controlQueue = pkt :: rest)
    (hbye : ∀ env ∈ pkt.payload.envelope, env.type ≠ typeGoodbye)
    (harrivals : Arrivals (m.taken pkt rest)) : EpochInv (m.taken pkt rest) := by
  have harrived := hm.arrivals.control pkt (hqueue ▸ List.mem_cons_self)
  have hhandled := ControlTask.handle_handled m.cfg m.isLive m.control pkt
  have hprune := hm.prune_sessions hpend
  have hlive : ∀ addr s, m.control.sessions.lookup addr = some s → m.isLive addr = true := by
    intro addr s hs
    rcases hm.live addr s hs with hlive | ⟨state, hmem⟩
    · exact hlive
    · rw [hpend] at hmem
      cases hmem
  suffices hr : ∀ r, ControlTask.Handled m.cfg (m.control.prune m.isLive) pkt r →
      (∀ addr r', m.registeredEpoch addr = some r' →
        ∃ s, r.1.sessions.lookup addr = some s ∧ r' ≤ s) ∧
      (∀ addr key suite, .registerPeerKey addr key suite ∈ r.2 →
        r.1.sessions.lookup addr = some key.epoch) ∧
      (∀ effect ∈ r.2, effect.Keeps) ∧
      ∀ addr s, r.1.sessions.lookup addr = some s →
        m.isLive addr = true ∨ ∃ state, .insertPeer addr state ∈ r.2 by
    obtain ⟨hregistered, hregistering, hkeeps, hlive'⟩ := hr _ hhandled
    exact ⟨harrivals, hregistered, hregistering, hkeeps, hlive', hm.spares⟩
  intro r hr
  have hregisters : ∀ addr key suite, .registerPeerKey addr key suite ∈ r.2 →
      r.1.sessions.lookup addr = some key.epoch := by
    intro addr key suite hmem
    obtain ⟨rfl, -, hsession, -⟩ := hr.registers harrived hmem
    exact hsession
  -- only a restart commits an epoch
  have hsame : r.1.sessions = (m.control.prune m.isLive).sessions →
      (∀ addr r', m.registeredEpoch addr = some r' →
        ∃ s, r.1.sessions.lookup addr = some s ∧ r' ≤ s) ∧
      ∀ addr s, r.1.sessions.lookup addr = some s → m.isLive addr = true := by
    intro heq
    rw [heq]
    refine ⟨fun addr r' hreg => ?_, fun addr s hs => hlive addr s (hprune addr ▸ hs)⟩
    rw [hprune]
    exact hm.registered addr r' hreg
  cases hr with
  | drop =>
    obtain ⟨hreg, hliv⟩ := hsame rfl
    exact ⟨hreg, hregisters, by rintro _ ⟨⟩, fun addr s hs => .inl (hliv addr s hs)⟩
  | @restart env g henv hhand hg hnewer =>
    refine ⟨fun addr r' hreg => ?_, hregisters, fun effect heffect => ?_, fun addr s hs => ?_⟩
    · obtain ⟨s, hs, hle⟩ := hm.registered addr r' hreg
      simp only [ControlTask.advance, ControlTask.restart, lookup_insert_ite]
      split
      · rename_i haddr
        subst haddr
        rw [ControlTask.isNewer, hprune, hs] at hnewer
        have hlt : s < g.session := of_decide_eq_true hnewer
        exact ⟨g.session, rfl, UInt64.le_trans hle (UInt64.le_of_lt hlt)⟩
      · rw [hprune]
        exact ⟨s, hs, hle⟩
    · rcases List.mem_cons.mp heffect with rfl | hwelcome
      · trivial
      · exact Greeting.welcome_keeps effect hwelcome
    · simp only [ControlTask.advance, ControlTask.restart, lookup_insert_ite] at hs
      split at hs
      · rename_i haddr
        subst haddr
        exact .inr ⟨_, List.mem_cons_of_mem _ Greeting.insertPeer_mem_welcome⟩
      · exact .inl (hlive addr s (hprune addr ▸ hs))
  | @refresh env g henv hhand hg hsession hfresh =>
    obtain ⟨hreg, hliv⟩ := hsame rfl
    exact ⟨hreg, hregisters, Greeting.welcome_keeps, fun addr s hs => .inl (hliv addr s hs)⟩
  | @other env henv hhand hfresh =>
    rcases ControlTask.receive_cases
      ((m.control.prune m.isLive).advance pkt.source pkt.header.sequence) pkt env with
      ⟨htype, -⟩ | ⟨-, hr | ⟨ev, hr⟩⟩
    · exact absurd htype (hbye env henv)
    · rw [hr] at hregisters hsame ⊢
      obtain ⟨hreg, hliv⟩ := hsame rfl
      exact ⟨hreg, hregisters, by rintro _ ⟨⟩, fun addr s hs => .inl (hliv addr s hs)⟩
    · rw [hr] at hregisters hsame ⊢
      obtain ⟨hreg, hliv⟩ := hsame rfl
      refine ⟨hreg, hregisters, fun effect h => ?_, fun addr s hs => .inl (hliv addr s hs)⟩
      obtain rfl := List.mem_singleton.mp h
      trivial

theorem performed (hm : EpochInv m) {victim : SocketAddr} {effect : Effect} {rest : List Effect}
    (hpend : m.pending = effect :: rest)
    (hroom : ∀ addr, effect = .makeRoom addr → m.peers.lookup addr = none →
      m.peers.entries.length < peerMapSoftCap)
    (h : { m with pending := rest }.perform victim effect = some m') (harrivals : Arrivals m') :
    EpochInv m' := by
  obtain ⟨-, hctl, hpend'⟩ := perform_frame h
  have hmem : ∀ effect' ∈ m'.pending, effect' ∈ m.pending := by
    intro effect' h'
    rw [hpend'] at h'
    exact hpend ▸ List.mem_cons_of_mem effect h'
  obtain ⟨hkeep, hlive, hinsert⟩ :=
    perform_isLive (m := { m with pending := rest })
      (hm.keeps effect (hpend ▸ List.mem_cons_self)) hroom h
  refine ⟨harrivals, ?_, ?_, fun effect' h' => hm.keeps effect' (hmem effect' h'), ?_, ?_⟩
  · intro addr r hreg
    rw [hctl]
    rcases perform_registeredEpoch h hreg with hold | ⟨key, suite, rfl, rfl⟩
    · exact hm.registered addr r hold
    · exact ⟨key.epoch, hm.registering addr key suite (hpend ▸ List.mem_cons_self),
        UInt64.le_refl _⟩
  · intro addr key suite h'
    rw [hctl]
    exact hm.registering addr key suite (hmem _ h')
  · intro addr s hs
    rw [hctl] at hs
    rcases hm.live addr s hs with hl | ⟨state, hmem'⟩
    · exact .inl (hlive addr hl)
    · rw [hpend] at hmem'
      rcases List.mem_cons.mp hmem' with heq | hrest
      · exact .inl (hinsert addr state heq.symm)
      · exact .inr ⟨state, hpend' ▸ hrest⟩
  · rw [hkeep]
    exact hm.spares

theorem quiet (hm : EpochInv m) (hok : Undisturbed m e) (h : m.step e = some m')
    (hne : ∀ victim, e ≠ .effect victim) (hq : Quiet m e m') (harrivals : Arrivals m') :
    EpochInv m' := by
  have hregistered : ∀ addr r, m'.registeredEpoch addr = some r →
      m.registeredEpoch addr = some r := by
    intro addr r hreg
    obtain ⟨key, hkey, rfl⟩ := Option.map_eq_some_iff.mp hreg
    rw [registeredEpoch, hq.sub.peerKeys addr key hkey]
    rfl
  have hlive : (∀ addr, m.isLive addr = true → m'.isLive addr = true) ∧
      ∀ ops, m'.keepalive = .evicting ops → ops = [] := by
    rcases step_peers h with ⟨hpeers, hkeep⟩ | ⟨victim, rfl⟩ | ⟨now, rfl, rfl⟩
    · unfold isLive
      rw [hpeers, hkeep]
      exact ⟨fun _ h => h, hm.spares⟩
    · exact absurd rfl (hne victim)
    · exact keepaliveStep_isLive hm.spares hok
  refine ⟨harrivals, fun addr r hreg => ?_, ?_, ?_, ?_, hlive.2⟩
  · rw [hq.control]
    exact hm.registered addr r (hregistered addr r hreg)
  · rw [hq.control, hq.pending]
    exact hm.registering
  · rw [hq.pending]
    exact hm.keeps
  · intro addr s hs
    rw [hq.control] at hs
    rw [hq.pending]
    exact (hm.live addr s hs).imp_left (hlive.1 addr)

theorem step (hm : EpochInv m) (hok : Undisturbed m e) (h : m.step e = some m') :
    EpochInv m' := by
  have harrivals := hm.arrivals.step hok.genuineNet h
  by_cases he : ∃ victim, e = .effect victim
  · obtain ⟨victim, rfl⟩ := he
    obtain ⟨effect, rest, hpend, hp⟩ := step_effect h
    refine hm.performed hpend ?_ hp harrivals
    rintro addr rfl
    exact hok addr (by rw [hpend]; rfl)
  · rcases step_cases h with
      ⟨pkt, rest, rfl, hpend, hqueue, rfl⟩ | ⟨victim, effect, rest, he', -⟩ | hq
    · exact hm.taken hpend hqueue (hok pkt (by rw [hqueue]; rfl)) harrivals
    · exact absurd ⟨victim, he'⟩ he
    · exact hm.quiet hok h (fun victim he' => he ⟨victim, he'⟩) hq harrivals

theorem bind {psk : Bytes} {hostname : String} {session : UInt64}
    {ciphers capabilities : List String} {deadAfter seq : Nat} :
    EpochInv (bindWithOptions psk hostname session ciphers capabilities deadAfter seq) where
  arrivals := .bind
  registered := fun _ _ h => absurd h.symm (Option.some_ne_none _)
  registering := fun _ _ _ h => absurd h List.not_mem_nil
  keeps := fun _ h => absurd h List.not_mem_nil
  live := fun _ _ h => absurd h.symm (Option.some_ne_none _)
  spares := nofun

/-- The epoch registered for an address stays or grows. -/
theorem registeredEpoch_mono (hm : EpochInv m) (hok : Undisturbed m e) (h : m.step e = some m')
    {addr : SocketAddr} {r : UInt64} (hreg : m.registeredEpoch addr = some r) :
    ∃ r', m'.registeredEpoch addr = some r' ∧ r ≤ r' := by
  rcases step_cases h with
    ⟨pkt, rest, rfl, -, -, rfl⟩ | ⟨victim, effect, rest, rfl, hpend, hp⟩ | hq
  · exact ⟨r, hreg, UInt64.le_refl r⟩
  · have hhead : effect ∈ m.pending := hpend ▸ List.mem_cons_self
    rcases perform_peerKeys hp addr with ⟨key, suite, rfl, hkey⟩ | ⟨rfl, -⟩ | hsame
    · -- what is registered next is the committed epoch
      obtain ⟨s, hs, hle⟩ := hm.registered addr r hreg
      have hnew := hm.registering addr key suite hhead
      obtain rfl := Option.some.inj (hs.symm.trans hnew)
      exact ⟨key.epoch, by rw [registeredEpoch, hkey]; rfl, hle⟩
    · exact (hm.keeps _ hhead).elim
    · refine ⟨r, ?_, UInt64.le_refl r⟩
      rw [registeredEpoch, hsame]
      exact hreg
  · rcases hq.keys with hsame | ⟨now, op, rest, -, hevict, -⟩
    · refine ⟨r, ?_, UInt64.le_refl r⟩
      rw [registeredEpoch, hsame.peerKeys]
      exact hreg
    · cases hm.spares _ hevict

end EpochInv

/-- A data packet opens under the key registered for its source, which names its
epoch. -/
theorem registeredEpoch_of_decode {m : Band} {source : SocketAddr} {wire : Datagram}
    {pkt : Inbound} (hm : Member m) (hgenuine : Genuine m.cfg.psk wire)
    (hdec : m.transport.decode source wire = some pkt) (hdata : pkt.isData = true) :
    m.registeredEpoch source = some (epochOf wire) := by
  obtain ⟨session, hsent⟩ := hgenuine
  obtain ⟨rfl, hkey⟩ := Transport.decode_eq_some hdec
  rcases hsent.cases_key with ⟨-, hctl, -⟩ | ⟨⟨cipher, hcipher⟩, -⟩
  · simp [Inbound.isData, hctl] at hdata
  · rcases hkey with hbase | ⟨suite, hlookup⟩
    · rw [hm.baseKey, hcipher] at hbase
      exact absurd hbase deriveSessionKey_ne_deriveKey
    · rw [registeredEpoch, hlookup, hcipher, hsent.epochOf_eq, Option.map_some,
        epoch_deriveSessionKey]

/-- The epoch of the packet is registered for its source, or a newer one is. -/
def Bounded (m : Band) (pkt : Inbound) : Prop :=
  ∃ r, m.registeredEpoch pkt.source = some r ∧ epochOf pkt.wire ≤ r

theorem Bounded.step {m m' : Band} {e : Event} {pkt : Inbound} (h : m.Bounded pkt)
    (hm : EpochInv m) (hok : Undisturbed m e) (hstep : m.step e = some m') : m'.Bounded pkt := by
  obtain ⟨r, hreg, hle⟩ := h
  obtain ⟨r', hreg', hle'⟩ := hm.registeredEpoch_mono hok hstep hreg
  exact ⟨r', hreg', UInt64.le_trans hle hle'⟩

end Telesthete.Band
