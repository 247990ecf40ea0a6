import Telesthete.Band.Genuine

/-!
# Replays against the control plane

The control task accepts a packet of an address only if its epoch is not
below the committed one and, within that epoch, its sequence is above the
watermark. So as long as the two maps hold what was accepted, no packet is
accepted twice and the registered receive key never goes back to an older
epoch. `Marked` is that fact for one reported packet: its epoch is at most
the committed one and, if equal, its sequence at most the watermark.

Two things can get around the maps. A GOODBYE and the soft-cap prune remove
the committed epoch, and the next handshake from the address is then taken
at its word. And a packet that was decoded under the old key while a newer
handshake was still in the control queue is compared with the watermark of
the new session. `ReplaySafe` excludes exactly these: a handshake that meets
no committed epoch is newer than all that was reported from its address, and
any other packet that passes the watermark is of the committed epoch.
-/

namespace Telesthete.Band

open Telesthete.Lib Telesthete.Crypto Telesthete.Wire List Option

variable {m : Band} {pkt : Inbound} {env : ControlEnvelope} {cfg : ControlConfig} {g : Greeting}

/-- The packet an effect reports to the application. -/
def Effect.reported : Effect → Option Inbound
  | .event _ pkt => some pkt
  | _ => none

/-- The packets that produced a control event, or are about to. -/
def reported (m : Band) : List Inbound :=
  m.events.map (·.2) ++ m.pending.filterMap Effect.reported

/-- The epoch of the receive key registered for an address. -/
def registeredEpoch (m : Band) (addr : SocketAddr) : Option UInt64 :=
  (m.transport.peerKeys.lookup addr).map fun key => key.1.epoch

/-- The condition on the packet the control task is about to handle. -/
def HandlesSafely (m : Band) (pkt : Inbound) : Prop :=
  ∀ env ∈ pkt.payload.envelope,
    if env.isHandshake then
      (m.control.prune m.isLive).sessions.lookup pkt.source = none →
        ∀ out ∈ m.events, out.2.source = pkt.source → epochOf out.2.wire < epochOf pkt.wire
    else
      (m.control.prune m.isLive).isReplay pkt.source pkt.header.sequence = false →
        (m.control.prune m.isLive).sessions.lookup pkt.source = some (epochOf pkt.wire)

instance (m : Band) (pkt : Inbound) : Decidable (m.HandlesSafely pkt) :=
  inferInstanceAs (Decidable (∀ env ∈ pkt.payload.envelope, _))

theorem HandlesSafely.handshake (h : m.HandlesSafely pkt) (henv : pkt.payload.envelope = some env)
    (hhand : env.isHandshake = true)
    (hnone : (m.control.prune m.isLive).sessions.lookup pkt.source = none) :
    ∀ out ∈ m.events, out.2.source = pkt.source → epochOf out.2.wire < epochOf pkt.wire := by
  have hall := h env henv
  rw [if_pos hhand] at hall
  exact hall hnone

theorem HandlesSafely.other (h : m.HandlesSafely pkt) (henv : pkt.payload.envelope = some env)
    (hhand : env.isHandshake = false)
    (hfresh : (m.control.prune m.isLive).isReplay pkt.source pkt.header.sequence = false) :
    (m.control.prune m.isLive).sessions.lookup pkt.source = some (epochOf pkt.wire) := by
  have hall := h env henv
  rw [if_neg (by simp [hhand])] at hall
  exact hall hfresh

/-- The network delivers genuine packets only, and the control task handles
none that gets around its maps. -/
def ReplaySafe (m : Band) : Event → Prop
  | .recv _ wire => Genuine m.cfg.psk wire
  | .control => ∀ pkt ∈ m.controlQueue.head?, m.HandlesSafely pkt
  | _ => True

theorem ReplaySafe.genuineNet {e : Event} (h : ReplaySafe m e) : GenuineNet m e := by
  cases e with
  | recv source wire => exact h
  | _ => trivial

/-- The maps account for a packet that was accepted. -/
def Marked (t : ControlTask) (pkt : Inbound) : Prop :=
  ∀ session, t.sessions.lookup pkt.source = some session →
    epochOf pkt.wire ≤ session ∧
      (epochOf pkt.wire = session →
        ∃ mark, t.watermark.lookup pkt.source = some mark ∧ pkt.wire.header.sequence ≤ mark)

namespace Marked

variable {t : ControlTask} {pkt : Inbound} {addr : SocketAddr}

/-- The prune takes both entries of an address or none. -/
theorem prune (h : Marked t pkt) (live : SocketAddr → Bool) : Marked (t.prune live) pkt := by
  unfold ControlTask.prune
  split
  · intro session hsession
    rw [lookup_retain] at hsession
    obtain ⟨hlive, hs⟩ := ite_none_right_eq_some.mp hsession
    obtain ⟨hle, hmark⟩ := h session hs
    refine ⟨hle, fun heq => ?_⟩
    rw [lookup_retain, if_pos hlive]
    exact hmark heq
  · exact h

theorem advance {seq : Nat} (h : Marked t pkt) (hfresh : t.isReplay addr seq = false) :
    Marked (t.advance addr seq) pkt := by
  intro session hsession
  obtain ⟨hle, hmark⟩ := h session hsession
  refine ⟨hle, fun heq => ?_⟩
  obtain ⟨mark, hlookup, hseq⟩ := hmark heq
  rw [ControlTask.advance, lookup_insert_ite]
  split
  · rename_i haddr
    unfold ControlTask.isReplay at hfresh
    rw [← haddr, hlookup] at hfresh
    have hlt : ¬ seq ≤ mark := of_decide_eq_false hfresh
    exact ⟨seq, rfl, by omega⟩
  · exact ⟨mark, hlookup, hseq⟩

theorem restart {session : UInt64} (h : Marked t pkt)
    (hold : pkt.source = addr → epochOf pkt.wire < session) :
    Marked (t.restart addr session) pkt := by
  intro s hs
  simp only [ControlTask.restart, lookup_insert_ite, lookup_erase_ite] at hs ⊢
  split at hs
  · rename_i haddr
    cases hs
    have hlt := hold haddr
    exact ⟨UInt64.le_of_lt hlt, fun heq => absurd heq (UInt64.ne_of_lt hlt)⟩
  · rename_i haddr
    rw [if_neg haddr]
    exact h s hs

theorem forget (h : Marked t pkt) : Marked (t.forget addr) pkt := by
  intro s hs
  simp only [ControlTask.forget, lookup_erase_ite] at hs ⊢
  obtain ⟨haddr, hs⟩ := ite_none_left_eq_some.mp hs
  rw [if_neg haddr]
  exact h s hs

/-- The packet just accepted is marked by its own sequence. -/
theorem self (hsession : t.sessions.lookup pkt.source = some (epochOf pkt.wire))
    (hheader : pkt.header = pkt.wire.header) :
    Marked (t.advance pkt.source pkt.header.sequence) pkt := by
  intro s hs
  rw [ControlTask.advance] at hs
  obtain rfl := Option.some.inj (hsession.symm.trans hs)
  refine ⟨UInt64.le_refl _, fun _ => ⟨pkt.header.sequence, ?_, ?_⟩⟩
  · rw [ControlTask.advance, lookup_insert_ite, if_pos rfl]
  · rw [hheader]

/-- A packet of the committed epoch above the watermark was not accepted yet. -/
theorem ne_of_fresh {q : Inbound} (h : Marked t pkt) (hsource : pkt.source = q.source)
    (hsession : t.sessions.lookup q.source = some (epochOf q.wire))
    (hheader : q.header = q.wire.header)
    (hfresh : t.isReplay q.source q.header.sequence = false) : pkt.wire ≠ q.wire := by
  intro hwire
  obtain ⟨mark, hlookup, hseq⟩ := (h _ (hsource ▸ hsession)).2 (by rw [hwire])
  unfold ControlTask.isReplay at hfresh
  rw [← hsource, hlookup, hheader, ← hwire] at hfresh
  exact absurd hseq (of_decide_eq_false hfresh)

end Marked

/-- A handshake's greeting has the epoch of the packet. -/
theorem Inbound.Arrived.greeting_session {psk : Bytes} (h : pkt.Arrived psk)
    (henv : pkt.payload.envelope = some env) (hhand : env.isHandshake = true)
    (hg : env.greeting cfg pkt.source = some g) : g.session = epochOf pkt.wire := by
  have hplain : pkt.wire.ciphertext.plaintext = .json env := by
    rw [← h.payload]
    cases hpayload : pkt.payload with
    | json env' =>
      rw [hpayload] at henv
      rw [Option.some.inj henv]
    | bytes bs =>
      rw [hpayload] at henv
      cases henv
  rw [epochOf, hplain]
  exact ((if_pos hhand).trans (ControlEnvelope.epoch_greeting hg)).symm

theorem Greeting.welcome_reported :
    (g.welcome cfg pkt).filterMap Effect.reported = [pkt] := by
  unfold welcome
  split <;> rfl

theorem Greeting.welcome_registers {addr : SocketAddr} {key : Key} {suite : Suite}
    (h : Effect.registerPeerKey addr key suite ∈ g.welcome cfg pkt) :
    addr = pkt.source ∧ key = deriveSessionKey cfg.psk g.committed g.session ∧
      suite = suiteFor g.committed := by
  unfold welcome at h
  simp only [cons_append, nil_append, mem_cons, Effect.registerPeerKey.injEq,
    mem_append, reduceCtorEq, false_or, not_mem_nil, or_false] at h
  rcases h with h | h
  · exact h
  · split at h
    · cases mem_singleton.mp h
    · cases h

theorem Greeting.insertPeer_mem_welcome :
    .insertPeer pkt.source ⟨g.hostname, g.capabilities, g.committed, g.session⟩ ∈
      g.welcome cfg pkt := by
  unfold welcome
  simp

namespace ControlTask.Handled

variable {cfg : ControlConfig} {t : ControlTask} {pkt : Inbound} {r : ControlTask × List Effect}

/-- What handling a packet means for those accepted before (`old`) and for
the packet itself. -/
theorem replay {old : List Inbound} (h : Handled cfg t pkt r)
    (harrived : pkt.Arrived cfg.psk) (hold : ∀ p ∈ old, Marked t p)
    (hstart : ∀ env, pkt.payload.envelope = some env → env.isHandshake = true →
      t.sessions.lookup pkt.source = none →
      ∀ p ∈ old, p.source = pkt.source → epochOf p.wire < epochOf pkt.wire)
    (hother : ∀ env, pkt.payload.envelope = some env → env.isHandshake = false →
      t.isReplay pkt.source pkt.header.sequence = false →
      t.sessions.lookup pkt.source = some (epochOf pkt.wire)) :
    (∀ p ∈ old, Marked r.1 p) ∧
      (r.2.filterMap Effect.reported = [] ∨
        r.2.filterMap Effect.reported = [pkt] ∧ Marked r.1 pkt ∧
          ∀ p ∈ old, p.source = pkt.source → p.wire ≠ pkt.wire) := by
  cases h with
  | drop => exact ⟨hold, .inl rfl⟩
  | @restart env g henv hhand hg hnewer =>
    have hg' : g.session = epochOf pkt.wire := harrived.greeting_session henv hhand hg
    -- a newer epoch than all before: the committed one bounds those, if there is one
    have hlt : ∀ p ∈ old, p.source = pkt.source → epochOf p.wire < g.session := by
      intro p hp hsource
      cases hprev : t.sessions.lookup pkt.source with
      | none => exact hg' ▸ hstart env henv hhand hprev p hp hsource
      | some prev =>
        rw [isNewer, hprev] at hnewer
        have hle := (hold p hp prev (hsource ▸ hprev)).1
        exact UInt64.lt_of_le_of_lt hle (of_decide_eq_true hnewer)
    have hfresh := isReplay_restart t pkt.source g.session pkt.header.sequence
    refine ⟨?_, .inr ⟨?_, ?_, ?_⟩⟩
    · intro p hp
      exact ((hold p hp).restart (hlt p hp)).advance hfresh
    · exact Greeting.welcome_reported
    · refine Marked.self ?_ harrived.header
      rw [ControlTask.restart, lookup_insert_ite, if_pos rfl, hg']
    · intro p hp hsource hwire
      have hepoch := hlt p hp hsource
      rw [hg', hwire] at hepoch
      exact absurd hepoch (UInt64.lt_irrefl _)
  | @refresh env g henv hhand hg hsame hfresh =>
    have hg' : g.session = epochOf pkt.wire := harrived.greeting_session henv hhand hg
    have hsession : t.sessions.lookup pkt.source = some (epochOf pkt.wire) := hg' ▸ hsame
    refine ⟨fun p hp => (hold p hp).advance hfresh, .inr ⟨Greeting.welcome_reported, ?_, ?_⟩⟩
    · exact .self hsession harrived.header
    · exact fun p hp hsource =>
        (hold p hp).ne_of_fresh hsource hsession harrived.header hfresh
  | @other env henv hhand hfresh =>
    have hsession := hother env henv hhand hfresh
    have hadv : ∀ p ∈ old, Marked (t.advance pkt.source pkt.header.sequence) p :=
      fun p hp => (hold p hp).advance hfresh
    have hself := Marked.self hsession harrived.header
    have hne : ∀ p ∈ old, p.source = pkt.source → p.wire ≠ pkt.wire :=
      fun p hp hsource => (hold p hp).ne_of_fresh hsource hsession harrived.header hfresh
    rcases receive_cases (t.advance pkt.source pkt.header.sequence) pkt env with
      ⟨-, hr⟩ | ⟨-, hr | ⟨ev, hr⟩⟩
    · rw [hr]
      exact ⟨fun p hp => (hadv p hp).forget, .inr ⟨rfl, hself.forget, hne⟩⟩
    · rw [hr]
      exact ⟨hadv, .inl rfl⟩
    · rw [hr]
      exact ⟨hadv, .inr ⟨rfl, hself, hne⟩⟩

/-- A key is registered for the packet's source and epoch, which is then the
committed one, and the packet is reported. -/
theorem registers {addr : SocketAddr} {key : Key} {suite : Suite} (h : Handled cfg t pkt r)
    (harrived : pkt.Arrived cfg.psk) (hreg : .registerPeerKey addr key suite ∈ r.2) :
    addr = pkt.source ∧ key.epoch = epochOf pkt.wire ∧
      r.1.sessions.lookup addr = some key.epoch ∧ pkt ∈ r.2.filterMap Effect.reported := by
  cases h with
  | drop => cases hreg
  | @restart env g henv hhand hg hnewer =>
    obtain ⟨rfl, rfl, -⟩ := Greeting.welcome_registers
      ((mem_cons.mp hreg).resolve_left (by simp))
    have hmem : pkt ∈ (g.welcome cfg pkt).filterMap Effect.reported := by
      rw [Greeting.welcome_reported]
      exact mem_singleton_self pkt
    rw [epoch_deriveSessionKey]
    refine ⟨rfl, harrived.greeting_session henv hhand hg, ?_, hmem⟩
    rw [ControlTask.advance, ControlTask.restart, lookup_insert_ite, if_pos rfl]
  | @refresh env g henv hhand hg hsame hfresh =>
    obtain ⟨rfl, rfl, -⟩ := Greeting.welcome_registers hreg
    rw [epoch_deriveSessionKey, Greeting.welcome_reported]
    exact ⟨rfl, harrived.greeting_session henv hhand hg, hsame, mem_singleton_self pkt⟩
  | @other env henv hhand hfresh =>
    rcases receive_cases (t.advance pkt.source pkt.header.sequence) pkt env with
      ⟨-, hr⟩ | ⟨-, hr | ⟨ev, hr⟩⟩ <;> rw [hr] at hreg
    · simp [Transport.forgetPeer] at hreg
    · cases hreg
    · cases mem_singleton.mp hreg

end ControlTask.Handled

/-- What a packet reports comes after all before it. -/
theorem taken_reported (hpend : m.pending = []) (pkt : Inbound) (rest : List Inbound) :
    (m.taken pkt rest).reported =
      m.reported ++ (m.control.handle m.cfg m.isLive pkt).2.filterMap Effect.reported := by
  rw [reported, reported, hpend, filterMap_nil, append_nil]
  rfl

section Perform

variable {m m' : Band} {victim : SocketAddr} {effect : Effect}

theorem perform_reported {rest : List Effect} (hpend : m.pending = effect :: rest)
    (h : { m with pending := rest }.perform victim effect = some m') :
    m'.reported = m.reported := by
  cases effect with
  | event ev pkt =>
    cases h
    simp [reported, hpend, Effect.reported]
  | makeRoom addr =>
    obtain ⟨peers, rfl⟩ := perform_makeRoom h
    rw [reported, reported, hpend]
    rfl
  | _ =>
    cases h
    rw [reported, reported, hpend]
    rfl

theorem perform_registeredEpoch {addr : SocketAddr} {session : UInt64}
    (h : m.perform victim effect = some m') (hreg : m'.registeredEpoch addr = some session) :
    m.registeredEpoch addr = some session ∨
      ∃ key suite, effect = .registerPeerKey addr key suite ∧ key.epoch = session := by
  rcases perform_peerKeys h addr with ⟨key, suite, rfl, hkey⟩ | ⟨-, hnone⟩ | hsame
  · rw [registeredEpoch, hkey] at hreg
    exact .inr ⟨key, suite, rfl, Option.some.inj hreg⟩
  · rw [registeredEpoch, hnone] at hreg
    cases hreg
  · rw [registeredEpoch, hsame] at hreg
    exact .inl hreg

end Perform

/-- The control plane's replay protection, in any state of a safe run. -/
structure ReplayInv (m : Band) : Prop where
  arrivals : Arrivals m
  nodup : (m.reported.map fun pkt => (pkt.source, pkt.wire)).Nodup
  marked : ∀ pkt ∈ m.reported, Marked m.control pkt
  registering : ∀ addr key suite, .registerPeerKey addr key suite ∈ m.pending →
    m.control.sessions.lookup addr = some key.epoch ∧
      ∃ pkt ∈ m.reported, pkt.source = addr ∧ epochOf pkt.wire = key.epoch
  registered : ∀ addr session, m.registeredEpoch addr = some session →
    ∃ pkt ∈ m.reported, pkt.source = addr ∧ epochOf pkt.wire = session

namespace ReplayInv

variable {m m' : Band} {e : Event}

theorem taken (hm : ReplayInv m) {pkt : Inbound} {rest : List Inbound} (hpend : m.pending = [])
    (hqueue : m.controlQueue = pkt :: rest) (hsafe : m.HandlesSafely pkt)
    (harrivals : Arrivals (m.taken pkt rest)) : ReplayInv (m.taken pkt rest) := by
  have harrived : pkt.Arrived m.cfg.psk :=
    hm.arrivals.control pkt (hqueue ▸ mem_cons_self)
  have hhandled := ControlTask.handle_handled m.cfg m.isLive m.control pkt
  have hold : ∀ p ∈ m.reported, Marked (m.control.prune m.isLive) p :=
    fun p hp => (hm.marked p hp).prune m.isLive
  have hevents : m.reported = m.events.map (·.2) := by simp [Band.reported, hpend]
  have hreported := taken_reported hpend pkt rest
  obtain ⟨hmarked, hnew⟩ := hhandled.replay harrived hold
    (fun env henv hhand hnone p hp hsource => by
      obtain ⟨out, hout, rfl⟩ := mem_map.mp (hevents ▸ hp)
      exact hsafe.handshake henv hhand hnone out hout hsource)
    (fun env henv hhand hfresh => hsafe.other henv hhand hfresh)
  refine ⟨harrivals, ?_, ?_, ?_, ?_⟩
  · rw [hreported]
    rcases hnew with hnone | ⟨hone, -, hne⟩
    · rw [hnone, append_nil]
      exact hm.nodup
    · rw [hone, map_append, nodup_append]
      refine ⟨hm.nodup, nodup_singleton _, ?_⟩
      intro x hx y hy hxy
      obtain ⟨p, hp, rfl⟩ := mem_map.mp hx
      obtain ⟨hsource, hwire⟩ := Prod.mk.inj (hxy.trans (mem_singleton.mp hy))
      exact hne p hp hsource hwire
  · rw [hreported]
    intro p hp
    rcases mem_append.mp hp with hp | hp
    · exact hmarked p hp
    · rcases hnew with hnone | ⟨hone, hself, -⟩
      · rw [hnone] at hp
        cases hp
      · rw [hone] at hp
        obtain rfl := mem_singleton.mp hp
        exact hself
  · intro addr key suite hreg
    obtain ⟨rfl, hepoch, hsession, hmem⟩ := hhandled.registers harrived hreg
    exact ⟨hsession, pkt, hreported ▸ mem_append_right _ hmem, rfl, hepoch.symm⟩
  · intro addr session hreg
    obtain ⟨p, hp, hrest⟩ := hm.registered addr session hreg
    exact ⟨p, hreported ▸ mem_append_left _ hp, hrest⟩

/-- Performing an effect reports nothing new; it may register a key. -/
theorem performed (hm : ReplayInv m) {victim : SocketAddr} {effect : Effect} {rest : List Effect}
    (hpend : m.pending = effect :: rest)
    (h : { m with pending := rest }.perform victim effect = some m') (harrivals : Arrivals m') :
    ReplayInv m' := by
  have hreported := perform_reported hpend h
  obtain ⟨-, hctl, hpend'⟩ := perform_frame h
  refine ⟨harrivals, ?_, ?_, ?_, ?_⟩
  · rw [hreported]
    exact hm.nodup
  · rw [hreported, hctl]
    exact hm.marked
  · rw [hreported, hctl, hpend']
    exact fun addr key suite hreg =>
      hm.registering addr key suite (hpend ▸ mem_cons_of_mem effect hreg)
  · rw [hreported]
    intro addr session hreg
    rcases perform_registeredEpoch h hreg with hold | ⟨key, suite, rfl, rfl⟩
    · exact hm.registered addr session hold
    · exact (hm.registering addr key suite (hpend ▸ mem_cons_self)).2

theorem quiet (hm : ReplayInv m) (hq : Quiet m e m') (harrivals : Arrivals m') :
    ReplayInv m' := by
  have hreported : m'.reported = m.reported := by rw [reported, hq.events, hq.pending]; rfl
  refine ⟨harrivals, ?_, ?_, ?_, ?_⟩
  · rw [hreported]
    exact hm.nodup
  · rw [hreported, hq.control]
    exact hm.marked
  · rw [hreported, hq.control, hq.pending]
    exact hm.registering
  · rw [hreported]
    intro addr session hreg
    obtain ⟨key, hkey, rfl⟩ := map_eq_some_iff.mp hreg
    refine hm.registered addr _ ?_
    rw [registeredEpoch, hq.sub.peerKeys addr key hkey]
    rfl

theorem step (hm : ReplayInv m) (hsafe : ReplaySafe m e) (h : m.step e = some m') :
    ReplayInv m' := by
  have harrivals := hm.arrivals.step hsafe.genuineNet h
  rcases step_cases h with
    ⟨pkt, rest, rfl, hpend, hqueue, rfl⟩ | ⟨victim, effect, rest, -, hpend, hp⟩ | hq
  · exact hm.taken hpend hqueue (hsafe pkt (by rw [hqueue]; rfl)) harrivals
  · exact hm.performed hpend hp harrivals
  · exact hm.quiet hq harrivals

theorem bind {psk : Bytes} {hostname : String} {session : UInt64}
    {ciphers capabilities : List String} {deadAfter seq : Nat} :
    ReplayInv (bindWithOptions psk hostname session ciphers capabilities deadAfter seq) where
  arrivals := .bind
  nodup := nodup_nil
  marked := fun _ h => absurd h not_mem_nil
  registering := fun _ _ _ h => absurd h not_mem_nil
  registered := fun _ _ h => absurd h.symm (Option.some_ne_none _)

theorem run (hm : ReplayInv m) (h : GuardedRun Band.step ReplaySafe m m') : ReplayInv m' :=
  h.invariant hm fun _ _ _ hm hsafe hstep => hm.step hsafe hstep

end ReplayInv

section Steps

variable {m m' : Band} {e : Event}

theorem step_reported (h : m.step e = some m') : ∀ pkt ∈ m.reported, pkt ∈ m'.reported := by
  intro pkt hpkt
  rcases step_cases h with ⟨q, rest, rfl, hpend, -, rfl⟩ | ⟨victim, effect, rest, -, hpend, hp⟩ | hq
  · rw [reported, hpend, filterMap_nil, append_nil] at hpkt
    exact mem_append_left _ hpkt
  · exact perform_reported hpend hp ▸ hpkt
  · rw [reported, hq.events, hq.pending]
    exact hpkt

/-- A registered epoch was registered before, or is by the effect performed. -/
theorem step_registeredEpoch {addr : SocketAddr} {session : UInt64} (h : m.step e = some m')
    (hreg : m'.registeredEpoch addr = some session) :
    m.registeredEpoch addr = some session ∨
      ∃ key suite, .registerPeerKey addr key suite ∈ m.pending ∧ key.epoch = session := by
  rcases step_cases h with ⟨q, rest, rfl, -, -, rfl⟩ | ⟨victim, effect, rest, -, hpend, hp⟩ | hq
  · exact .inl hreg
  · rcases perform_registeredEpoch hp hreg with hold | ⟨key, suite, rfl, hkey⟩
    · exact .inl hold
    · exact .inr ⟨key, suite, hpend ▸ mem_cons_self, hkey⟩
  · obtain ⟨key, hkey, rfl⟩ := map_eq_some_iff.mp hreg
    refine .inl ?_
    rw [registeredEpoch, hq.sub.peerKeys addr key hkey]
    rfl

end Steps

/-- Once an epoch is registered for an address, no older one is again: the
packet that brought it stays reported, and bounds what is committed later. -/
theorem ReplayInv.registeredEpoch_le {m m' : Band} {addr : SocketAddr} {session session' : UInt64}
    (hm : ReplayInv m) (h : GuardedRun Band.step ReplaySafe m m')
    (hreg : m.registeredEpoch addr = some session)
    (hreg' : m'.registeredEpoch addr = some session') : session ≤ session' := by
  have hrun := h.invariant
    (P := fun m => ReplayInv m ∧
      (∃ pkt ∈ m.reported, pkt.source = addr ∧ epochOf pkt.wire = session) ∧
      ∀ s, m.registeredEpoch addr = some s → session ≤ s)
    ⟨hm, hm.registered addr session hreg, fun s hs => by
      rw [Option.some.inj (hreg.symm.trans hs)]
      exact UInt64.le_refl s⟩
    (fun m e m' ⟨hm, ⟨pkt, hpkt, hsource, hepoch⟩, hle⟩ hsafe hstep => by
      refine ⟨hm.step hsafe hstep, ⟨pkt, step_reported hstep pkt hpkt, hsource, hepoch⟩, ?_⟩
      intro s hs
      rcases step_registeredEpoch hstep hs with hold | ⟨key, suite, hpend, rfl⟩
      · exact hle s hold
      · have hcommitted := (hm.registering addr key suite hpend).1
        exact hepoch ▸ (hm.marked pkt hpkt _ (hsource ▸ hcommitted)).1)
  exact hrun.2.2 session' hreg'

/-- In every run in which the network delivers genuine packets and no packet
gets around the control task's maps, the epoch of the receive key registered
for an address never decreases, and no packet from an address produces a
second control event. -/
theorem registeredEpoch_le_and_events_nodup {psk : Bytes} {hostname : String} {session : UInt64}
    {ciphers capabilities : List String} {deadAfter seq : Nat} {m m' : Band}
    (h : GuardedRun Band.step ReplaySafe
      (bindWithOptions psk hostname session ciphers capabilities deadAfter seq) m)
    (h' : GuardedRun Band.step ReplaySafe m m') :
    (∀ addr e e', m.registeredEpoch addr = some e → m'.registeredEpoch addr = some e' → e ≤ e') ∧
      (m'.events.map fun event => (event.2.source, event.2.wire)).Nodup := by
  have hm := ReplayInv.bind.run h
  refine ⟨fun addr e e' hreg hreg' => hm.registeredEpoch_le h' hreg hreg', ?_⟩
  have hnodup := (hm.run h').nodup
  rw [reported, map_append, List.map_map] at hnodup
  exact (nodup_append.mp hnodup).1

/-! ### A peer that restarts

The peer sends a HELLO in its first session, restarts, and sends a HELLO and
later a GOODBYE in its second. -/

def peerAddr : SocketAddr := ⟨1, 7000⟩

def ownAddr : SocketAddr := ⟨2, 7000⟩

/-- The peer's band, about to draw sequence `seq` in one of its sessions. -/
def peerBand (session : UInt64) (seq : Nat) : Band :=
  bindWithOptions [1] "peer" session [] [] 15 seq

def peerSends (session : UInt64) (seq : Nat) (msg : Message) : Datagram :=
  ((peerBand session seq).transport.send (msg.outbound session ownAddr)).2

theorem peerSends_sentIn (session : UInt64) (seq : Nat) (msg : Message) :
    SentIn [1] (peerSends session seq msg) session :=
  (@Member.bind [1] "peer" session [] [] 15 seq).sentIn_send ownAddr msg

def peerHello (session : UInt64) (seq : Nat) : Datagram :=
  peerSends session seq (.hello "peer" [] [baselineCipher])

def ownBand : Band := bindWithOptions [1] "own" 9 [] [] 15 0

/-- A datagram of the peer's goes through the receive loop. -/
def arrive (wire : Datagram) : List Event := [.recv peerAddr wire, .seen 0, .dispatch]

/-- The control task takes a packet and performs its effects, `n` of them. -/
def settle (n : Nat) : List Event := .control :: List.replicate n (.effect peerAddr)

/-- Both HELLOs arrive; then the events `more` happen. -/
def afterRestart (check : Band → Event → Bool) (more : List Event) : Option (Band × Band) := do
  let m ← play Band.step check ownBand
    ((arrive (peerHello 1 10) ++ settle 7 ++ arrive (peerHello 2 5) ++ settle 7).map fun e _ => e)
  let m' ← play Band.step check m (more.map fun e _ => e)
  some (m, m')

theorem afterRestart_runs {check : Band → Event → Bool} {ok : Band → Event → Prop}
    (hcheck : ∀ m e, check m e = true → ok m e) {more : List Event} {m m' : Band}
    (h : afterRestart check more = some (m, m')) :
    GuardedRun Band.step ok ownBand m ∧ GuardedRun Band.step ok m m' := by
  obtain ⟨m₁, h₁, hrest⟩ := bind_eq_some_iff.mp h
  obtain ⟨m₂, h₂, hlast⟩ := bind_eq_some_iff.mp hrest
  obtain ⟨rfl, rfl⟩ : m₁ = m ∧ m₂ = m' := by simpa using hlast
  exact ⟨guardedRun_play hcheck h₁, guardedRun_play hcheck h₂⟩

/-- What the peer sends. -/
def peerSent : List Datagram :=
  [peerHello 1 10, peerHello 2 5, peerSends 2 6 .keepalive, peerSends 2 7 .goodbye]

theorem peerSent_genuine : ∀ wire ∈ peerSent, Genuine [1] wire := by
  intro wire hwire
  simp only [peerSent, peerHello, mem_cons, not_mem_nil, or_false] at hwire
  rcases hwire with rfl | rfl | rfl | rfl <;> exact ⟨_, peerSends_sentIn _ _ _⟩

/-- The condition of `ReplaySafe`, checked. -/
def checkSafe (m : Band) (e : Event) : Bool :=
  deliversFrom [1] peerSent m e &&
    match e with
    | .control => ∀ pkt ∈ m.controlQueue.head?, m.HandlesSafely pkt
    | _ => true

theorem replaySafe_of_check (m : Band) (e : Event) (h : checkSafe m e = true) :
    ReplaySafe m e := by
  obtain ⟨hnet, hctl⟩ := Bool.and_eq_true_iff.mp h
  have hgenuine := genuineNet_of_deliversFrom peerSent_genuine hnet
  cases e with
  | recv source wire => exact hgenuine
  | control =>
    have hall : ∀ pkt ∈ m.controlQueue.head?, m.HandlesSafely pkt := of_decide_eq_true hctl
    exact hall
  | _ => trivial

theorem registeredEpoch_le_and_events_nodup_restart : ∃ m m',
    afterRestart checkSafe (arrive (peerSends 2 6 .keepalive) ++ settle 1 ++
      arrive (peerHello 1 10) ++ settle 0 ++ arrive (peerHello 2 5) ++ settle 0) = some (m, m') ∧
      m.registeredEpoch peerAddr = some 2 ∧ m'.registeredEpoch peerAddr = some 2 ∧
      m'.events.length = 3 ∧
      (m'.events.map fun event => (event.2.source, event.2.wire)).Nodup := by
  have hall : (afterRestart checkSafe (arrive (peerSends 2 6 .keepalive) ++ settle 1 ++
      arrive (peerHello 1 10) ++ settle 0 ++ arrive (peerHello 2 5) ++ settle 0)).any
      (fun s => s.1.registeredEpoch peerAddr = some 2 ∧ s.2.registeredEpoch peerAddr = some 2 ∧
        s.2.events.length = 3) = true := by
    decide +kernel
  obtain ⟨⟨m, m'⟩, hs, hreg, hreg', hlen⟩ := some_of_any hall
  obtain ⟨hrun, hrun'⟩ := afterRestart_runs replaySafe_of_check hs
  exact ⟨m, m', hs, hreg, hreg', hlen, (registeredEpoch_le_and_events_nodup hrun hrun').2⟩

/-- A GOODBYE makes the control task forget the committed epoch: a copy of the
HELLO of the peer's first session is then accepted a second time, and its key
registered in place of the second session's. -/
theorem goodbye_readmits_old_hello : ∃ m m',
    GuardedRun Band.step GenuineNet ownBand m ∧ GuardedRun Band.step GenuineNet m m' ∧
      m.registeredEpoch peerAddr = some 2 ∧ m'.registeredEpoch peerAddr = some 1 ∧
      ¬ (m'.events.map fun event => (event.2.source, event.2.wire)).Nodup := by
  have hall : (afterRestart (deliversFrom [1] peerSent) (arrive (peerSends 2 7 .goodbye) ++
      settle 5 ++ arrive (peerHello 1 10) ++ settle 7)).any
      (fun s => s.1.registeredEpoch peerAddr = some 2 ∧ s.2.registeredEpoch peerAddr = some 1 ∧
        ¬ (s.2.events.map fun event => (event.2.source, event.2.wire)).Nodup) = true := by
    decide +kernel
  obtain ⟨⟨m, m'⟩, hs, hreg, hreg', hdup⟩ := some_of_any hall
  obtain ⟨hrun, hrun'⟩ := afterRestart_runs
    (fun m e h => genuineNet_of_deliversFrom peerSent_genuine h) hs
  exact ⟨m, m', hrun, hrun', hreg, hreg', hdup⟩

end Telesthete.Band
