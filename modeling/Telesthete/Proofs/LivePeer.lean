import Telesthete.Proofs.ControlReplay

/-!
# Replays against a live peer

A peer whose HELLO was accepted stays reachable as long as its address keeps
the peer's epoch, its key and a watermark the peer's sequences are above:
`Live` says so of a state, for the peer's epoch and committed cipher and a
bound `hi` on the sequences it has used. Packets from other addresses do not
touch any of it, and of the packets from the peer's own address those of
older epochs and the peer's own are harmless.

The others are not. Nothing in a handshake says whose it is: that of another
member, replayed from the peer's address, commits that member's epoch there
if it is newer. `KeepsPeer` is the condition that the control task meets no
such handshake, no older one while it has no epoch committed for the address,
and no packet left over from an older session with a sequence beyond the
peer's, and that the address is not evicted. A HELLO_ACK that the peer sent
to someone else commits the cipher of that other conversation: the peer is
heard as long as it sends under the last cipher committed, `lastCipher`.
-/

namespace Telesthete.Band

open Telesthete.Lib Telesthete.Crypto Telesthete.Wire List Option

variable {addr : SocketAddr} {m : Band}

/-- The address an effect is about. -/
def Effect.peer : Effect → SocketAddr
  | .rebase addr => addr
  | .registerPeerKey addr _ _ => addr
  | .registerSendKey addr _ _ => addr
  | .makeRoom addr => addr
  | .insertPeer addr _ => addr
  | .sendHelloAck addr _ => addr
  | .removePeer addr => addr
  | .forget (.lastSeen addr) => addr
  | .forget (.peerKey addr) => addr
  | .forget (.sendKey addr) => addr
  | .event _ pkt => pkt.source

theorem Greeting.event_mem_welcome {cfg : ControlConfig} {pkt : Inbound} {g : Greeting} :
    .event g.event pkt ∈ g.welcome cfg pkt := by
  unfold welcome
  exact mem_append_right _ mem_cons_self

namespace ControlTask.Handled

variable {cfg : ControlConfig} {t : ControlTask} {pkt : Inbound} {r : ControlTask × List Effect}

/-- Everything a packet causes is about the address it came from. -/
theorem peer (h : Handled cfg t pkt r) : ∀ effect ∈ r.2, effect.peer = pkt.source := by
  refine h.forall_effects rfl
    (fun g => Greeting.forall_welcome rfl rfl rfl rfl (fun _ => rfl) rfl) rfl (fun op hop => ?_)
    fun _ => rfl
  simp only [Transport.forgetPeer, mem_cons, not_mem_nil, or_false] at hop
  rcases hop with rfl | rfl | rfl <;> rfl

/-- The maps change at that address only. -/
theorem lookup_other (h : Handled cfg t pkt r) {addr : SocketAddr} (hne : addr ≠ pkt.source) :
    r.1.sessions.lookup addr = t.sessions.lookup addr ∧
      r.1.watermark.lookup addr = t.watermark.lookup addr := by
  cases h with
  | drop => exact ⟨rfl, rfl⟩
  | restart henv hhand hg hnewer =>
    simp [advance, ControlTask.restart, hne]
  | refresh henv hhand hg hsame hfresh => simp [advance, hne]
  | @other env henv hhand hfresh =>
    rcases receive_cases (t.advance pkt.source pkt.header.sequence) pkt env with
      ⟨-, hr⟩ | ⟨-, hr | ⟨ev, hr⟩⟩ <;> rw [hr] <;>
      simp [advance, forget, hne]

end ControlTask.Handled

/-- The prune only removes. -/
theorem ControlTask.prune_lookup (t : ControlTask) (live : SocketAddr → Bool) (addr : SocketAddr) :
    (∀ s, (t.prune live).sessions.lookup addr = some s → t.sessions.lookup addr = some s) ∧
      ∀ mark, (t.prune live).watermark.lookup addr = some mark →
        t.watermark.lookup addr = some mark := by
  unfold prune
  split
  · simp only [lookup_retain]
    exact ⟨fun s h => (ite_none_right_eq_some.mp h).2,
      fun mark h => (ite_none_right_eq_some.mp h).2⟩
  · exact ⟨fun s h => h, fun mark h => h⟩

namespace ControlTask

variable {cfg : ControlConfig} {t : ControlTask} {pkt : Inbound}

theorem greet_event {g : Greeting}
    (hses : ∀ s, t.sessions.lookup pkt.source = some s → s = g.session)
    (hfresh : t.isReplay pkt.source pkt.header.sequence = false) :
    .event g.event pkt ∈ (t.greet cfg pkt g).2 := by
  have hstale : t.isStale pkt.source g.session = false := by
    unfold isStale
    cases hprev : t.sessions.lookup pkt.source with
    | none => rfl
    | some s =>
      rw [hses s hprev]
      exact decide_eq_false (UInt64.lt_irrefl _)
  unfold greet
  rw [if_neg (by simp [hstale])]
  cases hnewer : t.isNewer pkt.source g.session with
  | true =>
    simp only [if_true, isReplay_restart, Bool.false_eq_true, if_false]
    exact mem_append_right _ Greeting.event_mem_welcome
  | false =>
    simp only [Bool.false_eq_true, if_false, hfresh]
    exact mem_append_right _ Greeting.event_mem_welcome

variable {live : SocketAddr → Bool} {env : ControlEnvelope} {g : Greeting}

/-- Above the watermark, also if the prune has just removed it. -/
theorem isReplay_prune
    (hmark : ∀ mark, t.watermark.lookup pkt.source = some mark → mark < pkt.header.sequence) :
    (t.prune live).isReplay pkt.source pkt.header.sequence = false := by
  unfold isReplay
  cases hlookup : (t.prune live).watermark.lookup pkt.source with
  | none => rfl
  | some mark =>
    have hlt := hmark mark ((t.prune_lookup live pkt.source).2 mark hlookup)
    exact decide_eq_false (not_le.mpr hlt)

/-- A handshake of the committed epoch, if there is one, above the watermark is
accepted. -/
theorem handle_greeting_event (henv : pkt.payload.envelope = some env)
    (hhand : env.isHandshake = true) (hg : env.greeting cfg pkt.source = some g)
    (hses : ∀ s, t.sessions.lookup pkt.source = some s → s = g.session)
    (hmark : ∀ mark, t.watermark.lookup pkt.source = some mark → mark < pkt.header.sequence) :
    .event g.event pkt ∈ (t.handle cfg live pkt).2 := by
  have hses' := fun s h => hses s ((t.prune_lookup live pkt.source).1 s h)
  unfold handle
  rw [henv]
  dsimp only
  rw [if_pos hhand, hg]
  exact greet_event hses' (isReplay_prune hmark)

/-- What an accepted handshake does, both ways. -/
theorem handle_welcome {ev : ControlEvent} (henv : pkt.payload.envelope = some env)
    (hhand : env.isHandshake = true) (hg : env.greeting cfg pkt.source = some g)
    (hevent : .event ev pkt ∈ (t.handle cfg live pkt).2) :
    (∀ s, (t.handle cfg live pkt).1.sessions.lookup pkt.source = some s → s = g.session) ∧
      (t.handle cfg live pkt).1.watermark.lookup pkt.source = some pkt.header.sequence ∧
      ((t.handle cfg live pkt).2 = g.welcome cfg pkt ∨
        (t.handle cfg live pkt).2 = .rebase pkt.source :: g.welcome cfg pkt) := by
  have hhandled := handle_handled cfg live t pkt
  generalize t.handle cfg live pkt = r at hhandled hevent ⊢
  cases hhandled with
  | drop => cases hevent
  | @restart env' g' henv' hhand' hg' hnewer =>
    obtain rfl := Option.some.inj (henv.symm.trans henv')
    obtain rfl := Option.some.inj (hg.symm.trans hg')
    refine ⟨?_, AList.lookup_insert _, .inr rfl⟩
    intro s hs
    rw [ControlTask.advance, ControlTask.restart, AList.lookup_insert] at hs
    exact (Option.some.inj hs).symm
  | @refresh env' g' henv' hhand' hg' hsame hfresh =>
    obtain rfl := Option.some.inj (henv.symm.trans henv')
    obtain rfl := Option.some.inj (hg.symm.trans hg')
    refine ⟨?_, AList.lookup_insert _, .inl rfl⟩
    intro s hs
    exact (Option.some.inj (hsame.symm.trans hs)).symm
  | @other env' henv' hhand' hfresh =>
    obtain rfl := Option.some.inj (henv.symm.trans henv')
    rw [hhand] at hhand'
    cases hhand'

end ControlTask

/-- The cipher a handshake commits its receiver to. -/
def Inbound.committedCipher (cfg : ControlConfig) (pkt : Inbound) : Option String :=
  pkt.payload.envelope.bind fun env =>
    if env.isHandshake then (env.greeting cfg pkt.source).map (·.committed) else none

/-- The cipher of the last handshake accepted from an address. -/
def lastCipher (m : Band) (addr : SocketAddr) : Option String :=
  m.reported.reverse.findSome? fun pkt =>
    if pkt.source = addr then pkt.committedCipher m.cfg else none

/-- The condition on a packet from the peer's address that the control task
is about to handle. -/
def SparesPeer (m : Band) (session : UInt64) (hi : Nat) (pkt : Inbound) : Prop :=
  ∀ env ∈ pkt.payload.envelope,
    if env.isHandshake then
      epochOf pkt.wire < session ∧
          (m.control.prune m.isLive).sessions.lookup pkt.source ≠ none ∨
        epochOf pkt.wire = session ∧ pkt.header.sequence ≤ hi
    else
      pkt.header.sequence ≤ hi ∧ (env.type = typeGoodbye →
        (m.control.prune m.isLive).isReplay pkt.source pkt.header.sequence = true)

instance (m : Band) (session : UInt64) (hi : Nat) (pkt : Inbound) :
    Decidable (m.SparesPeer session hi pkt) :=
  inferInstanceAs (Decidable (∀ env ∈ pkt.payload.envelope, _))

/-- Genuine packets only; what the control task handles from the peer's address
spares the peer, which is not evicted. -/
def KeepsPeer (addr : SocketAddr) (session : UInt64) (hi : Nat) (m : Band) : Event → Prop
  | .recv _ wire => Genuine m.cfg.psk wire
  | .control => ∀ pkt ∈ m.controlQueue.head?, pkt.source = addr → m.SparesPeer session hi pkt
  | .keepalive _ => ∀ rest, m.keepalive ≠ .evicting (.peerKey addr :: rest)
  | _ => True

theorem KeepsPeer.genuineNet {session : UInt64} {hi : Nat}
    {e : Event} (h : KeepsPeer addr session hi m e) : GenuineNet m e := by
  cases e with
  | recv source wire => exact h
  | _ => trivial

/-- The peer can be heard, or will be once the key on its way is registered. -/
structure Live (addr : SocketAddr) (session : UInt64) (cipher : String) (hi : Nat) (m : Band) :
    Prop where
  committed : ∀ s, m.control.sessions.lookup addr = some s → s = session
  mark : ∀ mark, m.control.watermark.lookup addr = some mark → mark ≤ hi
  agreed : m.lastCipher addr = some cipher
  key : m.transport.peerKeys.lookup addr =
      some (deriveSessionKey m.cfg.psk cipher session, suiteFor cipher) ∨
    .registerPeerKey addr (deriveSessionKey m.cfg.psk cipher session) (suiteFor cipher) ∈ m.pending
  registering : ∀ key suite, .registerPeerKey addr key suite ∈ m.pending →
    key = deriveSessionKey m.cfg.psk cipher session ∧ suite = suiteFor cipher
  keeps : Effect.forget (.peerKey addr) ∉ m.pending

/-- What the control task takes is reported after all before it. -/
theorem taken_lastCipher {pkt : Inbound} {rest : List Inbound} (hpend : m.pending = []) :
    (m.taken pkt rest).lastCipher addr =
      (((m.control.handle m.cfg m.isLive pkt).2.filterMap Effect.reported).reverse.findSome?
        fun pkt => if pkt.source = addr then pkt.committedCipher m.cfg else none).or
        (m.lastCipher addr) := by
  rw [lastCipher, taken_reported hpend, reverse_append, findSome?_append]
  rfl

namespace Live

variable {m m' : Band} {e : Event} {addr : SocketAddr} {session : UInt64} {cipher : String}
  {hi : Nat} {pkt : Inbound}
variable {rest : List Inbound}

theorem performed (hm : Live addr session cipher hi m) {victim : SocketAddr} {effect : Effect}
    {rest : List Effect} (hpend : m.pending = effect :: rest)
    (h : { m with pending := rest }.perform victim effect = some m') :
    Live addr session cipher hi m' := by
  obtain ⟨hcfg, hctl, hpend'⟩ := perform_frame h
  have hmem : ∀ effect' ∈ m'.pending, effect' ∈ m.pending := by
    intro effect' h'
    rw [hpend'] at h'
    exact hpend ▸ mem_cons_of_mem effect h'
  have hcipher : m'.lastCipher addr = m.lastCipher addr := by
    rw [lastCipher, lastCipher, perform_reported hpend h, hcfg]
  refine ⟨hctl ▸ hm.committed, hctl ▸ hm.mark, hcipher.trans hm.agreed, ?_, ?_,
    fun h => hm.keeps (hmem _ h)⟩
  · rw [hcfg]
    rcases perform_peerKeys h addr with ⟨key, suite, rfl, hkey⟩ | ⟨rfl, -⟩ | hsame
    · obtain ⟨rfl, rfl⟩ := hm.registering key suite (hpend ▸ mem_cons_self)
      exact .inl hkey
    · exact absurd (hpend ▸ mem_cons_self) hm.keeps
    · rcases hm.key with hkey | hkey
      · exact .inl (hsame.trans hkey)
      · rw [hpend] at hkey
        rcases mem_cons.mp hkey with rfl | hrest
        · cases h
          exact .inl (AList.lookup_insert _)
        · exact .inr (hpend' ▸ hrest)
  · rw [hcfg]
    exact fun key suite h' => hm.registering key suite (hmem _ h')

theorem quiet (hm : Live addr session cipher hi m) (hok : KeepsPeer addr session hi m e)
    (hq : Quiet m e m') : Live addr session cipher hi m' := by
  have hcipher : m'.lastCipher addr = m.lastCipher addr := by
    rw [lastCipher, lastCipher, reported, reported, hq.events, hq.pending, hq.cfg]
  refine ⟨hq.control ▸ hm.committed, hq.control ▸ hm.mark, hcipher.trans hm.agreed, ?_, ?_,
    hq.pending ▸ hm.keeps⟩
  · rw [hq.cfg, hq.pending]
    refine hm.key.imp_left fun hkey => ?_
    rcases hq.keys with hsame | ⟨now, op, rest, rfl, hevict, hforget⟩
    · rw [hsame.peerKeys]
      exact hkey
    · rw [hforget]
      cases op with
      | peerKey a =>
        have hne : addr ≠ a := by
          rintro rfl
          exact hok rest hevict
        exact (AList.lookup_erase_ne hne).trans hkey
      | _ => exact hkey
  · rw [hq.cfg, hq.pending]
    exact hm.registering

/-- The key is in the table when the control task takes a packet. -/
theorem key_of_idle (hm : Live addr session cipher hi m) (hpend : m.pending = []) :
    m.transport.peerKeys.lookup addr =
      some (deriveSessionKey m.cfg.psk cipher session, suiteFor cipher) := by
  refine hm.key.resolve_right ?_
  rw [hpend]
  exact not_mem_nil

/-- The control task took a packet that commits to nothing here. -/
theorem spared (hm : Live addr session cipher hi m)
    (hpend : m.pending = []) {r : ControlTask × List Effect}
    (hr : m.control.handle m.cfg m.isLive pkt = r)
    (hcommitted : ∀ s, r.1.sessions.lookup addr = some s → s = session)
    (hmark : ∀ mark, r.1.watermark.lookup addr = some mark → mark ≤ hi)
    (hnew : ∀ p ∈ r.2.filterMap Effect.reported,
      p.source = addr → p.committedCipher m.cfg = none)
    (hreg : ∀ key suite, Effect.registerPeerKey addr key suite ∉ r.2)
    (hkeeps : Effect.forget (.peerKey addr) ∉ r.2) :
    Live addr session cipher hi (m.taken pkt rest) := by
  subst hr
  refine ⟨hcommitted, hmark, ?_, .inl (hm.key_of_idle hpend), ?_, hkeeps⟩
  · rw [taken_lastCipher hpend, findSome?_eq_none_iff.mpr, Option.none_or]
    · exact hm.agreed
    · intro p hp
      rw [mem_reverse] at hp
      split
      · rename_i hsource
        exact hnew p hp hsource
      · rfl
  · intro key suite h
    exact absurd h (hreg key suite)

/-- A packet from elsewhere. -/
theorem taken_other (hm : Live addr session cipher hi m)
    (hpend : m.pending = []) (hsource : pkt.source ≠ addr) :
    Live addr session cipher hi (m.taken pkt rest) := by
  have hhandled := ControlTask.handle_handled m.cfg m.isLive m.control pkt
  obtain ⟨hses, hmark⟩ := hhandled.lookup_other hsource.symm
  obtain ⟨hses', hmark'⟩ := m.control.prune_lookup m.isLive addr
  refine hm.spared hpend rfl ?_ ?_ ?_ ?_ ?_
  · exact fun s h => hm.committed s (hses' s (hses ▸ h))
  · exact fun mark h => hm.mark mark (hmark' mark (hmark ▸ h))
  · intro p hp hp'
    obtain ⟨effect, heffect, hrep⟩ := mem_filterMap.mp hp
    have hpeer := hhandled.peer effect heffect
    cases effect with
    | event ev q =>
      cases hrep
      exact absurd (hpeer.symm.trans hp') hsource
    | _ => cases hrep
  · exact fun key suite h => hsource (hhandled.peer _ h).symm
  · exact fun h => hsource (hhandled.peer _ h).symm

/-- An accepted handshake makes its sender live, with its epoch and the cipher
it commits to. -/
theorem welcome {env : ControlEnvelope} {g : Greeting}
    (hpend : m.pending = []) (henv : pkt.payload.envelope = some env)
    (hhand : env.isHandshake = true) (hg : env.greeting m.cfg pkt.source = some g)
    (hseq : pkt.header.sequence ≤ hi) {ev : ControlEvent}
    (hevent : .event ev pkt ∈ (m.control.handle m.cfg m.isLive pkt).2) :
    Live pkt.source g.session g.committed hi (m.taken pkt rest) := by
  have hcipher : pkt.committedCipher m.cfg = some g.committed := by
    rw [Inbound.committedCipher, henv, Option.bind_some, if_pos hhand, hg]
    rfl
  obtain ⟨hses, hmark, heffects⟩ := ControlTask.handle_welcome henv hhand hg hevent
  have hreported : (m.control.handle m.cfg m.isLive pkt).2.filterMap Effect.reported = [pkt] := by
    rcases heffects with heq | heq <;> rw [heq]
    · exact Greeting.welcome_reported
    · exact Greeting.welcome_reported
  have hmem : ∀ effect, effect ∈ (m.control.handle m.cfg m.isLive pkt).2 →
      effect = .rebase pkt.source ∨ effect ∈ g.welcome m.cfg pkt := by
    intro effect heffect
    rcases heffects with heq | heq <;> rw [heq] at heffect
    · exact .inr heffect
    · exact mem_cons.mp heffect
  refine ⟨hses, ?_, ?_, .inr ?_, ?_, ?_⟩
  · intro mark h
    obtain rfl := Option.some.inj (hmark.symm.trans h)
    exact hseq
  · rw [taken_lastCipher hpend, hreported]
    simp [hcipher]
  · show _ ∈ (m.control.handle m.cfg m.isLive pkt).2
    rcases heffects with heq | heq <;> rw [heq]
    · exact mem_cons_self
    · exact mem_cons_of_mem _ mem_cons_self
  · intro key suite h
    exact (Greeting.welcome_registers ((hmem _ h).resolve_left nofun)).2
  · intro h
    have hwelcome := (hmem _ h).resolve_left nofun
    unfold Greeting.welcome at hwelcome
    split at hwelcome <;> simp at hwelcome

/-- A packet from the peer's address that spares it. -/
theorem taken_self (hm : Live pkt.source session cipher hi m)
    (hpend : m.pending = []) (harrived : pkt.Arrived m.cfg.psk)
    (hspares : m.SparesPeer session hi pkt) :
    ∃ cipher', Live pkt.source session cipher' hi (m.taken pkt rest) := by
  have hhandled := ControlTask.handle_handled m.cfg m.isLive m.control pkt
  obtain ⟨hses, hmark⟩ := m.control.prune_lookup m.isLive pkt.source
  have hcommitted := fun s h => hm.committed s (hses s h)
  generalize hr : m.control.handle m.cfg m.isLive pkt = r at hhandled
  cases hhandled with
  | drop =>
    exact ⟨cipher, hm.spared hpend hr hcommitted (fun mark h => hm.mark mark (hmark mark h))
      (fun p hp => absurd hp not_mem_nil) (fun _ _ => not_mem_nil) not_mem_nil⟩
  | @restart env g henv hhand hg hnewer =>
    have hsession := harrived.greeting_session henv hhand hg
    have hcase := hspares env henv
    rw [if_pos hhand, ← hsession] at hcase
    rcases hcase with ⟨hold, hsome⟩ | ⟨rfl, hseq⟩
    · -- an older epoch is not a restart while the peer's is committed
      obtain ⟨s, hs⟩ := ne_none_iff_exists'.mp hsome
      rw [ControlTask.isNewer, hs, hcommitted s hs] at hnewer
      exact absurd (UInt64.lt_trans (of_decide_eq_true hnewer) hold) (UInt64.lt_irrefl _)
    · have hevent : .event g.event pkt ∈ (m.control.handle m.cfg m.isLive pkt).2 := by
        rw [hr]
        exact mem_cons_of_mem _ Greeting.event_mem_welcome
      exact ⟨g.committed, welcome hpend henv hhand hg hseq hevent⟩
  | @refresh env g henv hhand hg hsame hfresh =>
    have hsession := harrived.greeting_session henv hhand hg
    obtain rfl := hcommitted _ hsame
    have hcase := hspares env henv
    rw [if_pos hhand, ← hsession] at hcase
    rcases hcase with ⟨hold, -⟩ | ⟨-, hseq⟩
    · exact absurd hold (UInt64.lt_irrefl _)
    · have hevent : .event g.event pkt ∈ (m.control.handle m.cfg m.isLive pkt).2 := by
        rw [hr]
        exact Greeting.event_mem_welcome
      exact ⟨g.committed, welcome hpend henv hhand hg hseq hevent⟩
  | @other env henv hhand hfresh =>
    have hcase := hspares env henv
    rw [if_neg (by simp [hhand])] at hcase
    obtain ⟨hseq, hbye⟩ := hcase
    have hadvance : ∀ mark,
        ((m.control.prune m.isLive).advance pkt.source pkt.header.sequence).watermark.lookup
          pkt.source = some mark → mark ≤ hi := by
      intro mark hlookup
      rw [ControlTask.advance, AList.lookup_insert] at hlookup
      cases hlookup
      exact hseq
    have hnone : pkt.committedCipher m.cfg = none := by
      rw [Inbound.committedCipher, henv, Option.bind_some, hhand]
      rfl
    rcases ControlTask.receive_cases
      ((m.control.prune m.isLive).advance pkt.source pkt.header.sequence) pkt env with
      ⟨htype, -⟩ | ⟨-, hrec | ⟨ev, hrec⟩⟩
    · rw [hbye htype] at hfresh
      cases hfresh
    · rw [hrec] at hr
      exact ⟨cipher, hm.spared hpend hr hcommitted hadvance
        (fun p hp => absurd hp not_mem_nil) (fun _ _ => not_mem_nil) not_mem_nil⟩
    · rw [hrec] at hr
      refine ⟨cipher, hm.spared hpend hr hcommitted hadvance ?_ (by simp) (by simp)⟩
      intro p hp hsource
      obtain rfl := mem_singleton.mp hp
      exact hnone

theorem step (hm : Live addr session cipher hi m) (harrivals : Arrivals m)
    (hok : KeepsPeer addr session hi m e) (h : m.step e = some m') :
    ∃ cipher', Live addr session cipher' hi m' := by
  rcases step_cases h with
    ⟨pkt, rest, rfl, hpend, hqueue, rfl⟩ | ⟨victim, effect, rest, -, hpend, hp⟩ | hq
  · by_cases hsource : pkt.source = addr
    · subst hsource
      have harrived := harrivals.control pkt (hqueue ▸ mem_cons_self)
      exact hm.taken_self hpend harrived (hok pkt (by rw [hqueue]; rfl) rfl)
    · exact ⟨cipher, hm.taken_other hpend hsource⟩
  · exact ⟨cipher, hm.performed hpend hp⟩
  · exact ⟨cipher, hm.quiet hok hq⟩

theorem run (hm : Live addr session cipher hi m) (harrivals : Arrivals m)
    (h : GuardedRun Band.step (KeepsPeer addr session hi) m m') :
    Arrivals m' ∧ ∃ cipher', Live addr session cipher' hi m' := by
  refine h.invariant (P := fun m => Arrivals m ∧ ∃ cipher, Live addr session cipher hi m)
    ⟨harrivals, cipher, hm⟩ ?_
  rintro m e m' ⟨harrivals, cipher, hm⟩ hok hstep
  exact ⟨harrivals.step hok.genuineNet hstep, hm.step harrivals hok hstep⟩

end Live

/-- A packet opens with the key its sender sealed it with, and a handshake
with the base key. -/
theorem Transport.decode_send {t p : Transport} {out : Outbound}
    (hband : p.bandId = t.bandId) (hbase : p.baseKey = t.baseKey)
    (hkey : out.useBaseKey = false → t.peerKeys.lookup addr = some (p.sealingKey out)) :
    t.decode addr (p.send out).2 =
      some ⟨addr, ⟨p.bandId, out.channelType, out.channelId, p.seq⟩, out.plaintext,
        (p.send out).2⟩ := by
  have hsealed : ∀ key suite, decodePacketSuite suite key (p.send out).2 =
      if (p.sealingKey out).2 = suite ∧ (p.sealingKey out).1 = key then
        some (⟨p.bandId, out.channelType, out.channelId, p.seq⟩, out.plaintext)
      else none :=
    fun key suite => decodePacketSuite_encode
  rw [decode]
  cases huse : out.useBaseKey with
  | false =>
    rw [hkey huse, Option.bind_some]
    dsimp only
    rw [hsealed, if_pos ⟨rfl, rfl⟩]
    exact if_pos hband
  | true =>
    have hseal : p.sealingKey out = (t.baseKey, .chaCha20Poly1305) := by
      rw [sealingKey, if_pos huse, hbase]
    have hbaseOpen : decodePacketSuite .chaCha20Poly1305 t.baseKey (p.send out).2 =
        some (⟨p.bandId, out.channelType, out.channelId, p.seq⟩, out.plaintext) := by
      rw [hsealed, if_pos ⟨by rw [hseal], by rw [hseal]⟩]
    -- whatever the peer's key makes of it, the base key opens it
    rw [hbaseOpen]
    rcases t.peerKeys.lookup addr with - | ⟨key, suite⟩
    · exact if_pos hband
    · rw [Option.bind_some]
      dsimp only
      rw [hsealed]
      split <;> exact if_pos hband

namespace ControlTask

variable {cfg : ControlConfig} {t : ControlTask} {pkt : Inbound}

/-- The control task reports any message but a GOODBYE that is of the epoch
committed for its address, if one is, and above the watermark. -/
theorem handle_event {live : SocketAddr → Bool} {session : UInt64} {own : SocketAddr}
    {msg : Message} (hpayload : pkt.payload = (msg.outbound session own).plaintext)
    (hctl : (msg.outbound session own).channelType = .control) (hbye : msg ≠ .goodbye)
    (hses : ∀ s, t.sessions.lookup pkt.source = some s → s = session)
    (hmark : ∀ mark, t.watermark.lookup pkt.source = some mark → mark < pkt.header.sequence) :
    ∃ ev, .event ev pkt ∈ (t.handle cfg live pkt).2 := by
  cases msg with
  | hello hostname capabilities ciphers =>
    have henv : pkt.payload.envelope =
        some ⟨typeHello, .ofHello ⟨hostname, capabilities, ciphers, session⟩⟩ := by
      rw [hpayload]
      rfl
    exact ⟨_, handle_greeting_event henv rfl rfl hses hmark⟩
  | helloAck hostname capabilities ciphers cipher =>
    have henv : pkt.payload.envelope =
        some ⟨typeHelloAck,
          .ofHelloAck ⟨hostname, capabilities, ciphers, cipher, session⟩⟩ := by
      rw [hpayload]
      rfl
    exact ⟨_, handle_greeting_event henv rfl rfl hses hmark⟩
  | goodbye => exact absurd rfl hbye
  | keepalive | keyframeReq k | rateHint r =>
    unfold handle
    rw [hpayload]
    dsimp only [Message.outbound, controlOut, Payload.envelope]
    rw [if_neg nofun, isReplay_prune hmark]
    exact ⟨_, mem_cons_self⟩
  | stream id priority data | channel id data | board id data | drop id data => cases hctl

end ControlTask

/-- The peer, with epoch `h.session`, had its HELLO accepted; since then the
network delivered any genuine packets from any addresses, and every packet the
control task handled from the peer's address spared it. Then the next packet
of the peer, with a sequence above `hi` and under the cipher of the last
handshake accepted from its address, is decoded, and reported by the control
task when it gets there if it is for the control channel. -/
theorem decode_and_event_of_keepsPeer {psk : Bytes} {hostname peerName : String}
    {session : UInt64} {ciphers capabilities peerCiphers peerCapabilities : List String}
    {deadAfter seq peerDeadAfter peerSeq hi : Nat} {m₀ m₁ m m' p : Band} {hello : Inbound}
    {h : Hello} {ev : ControlEvent} {own : SocketAddr} {cipher : String} {msg : Message}
    (hrun₀ : GuardedRun Band.step GenuineNet
      (bindWithOptions psk hostname session ciphers capabilities deadAfter seq) m₀)
    (hhead : m₀.controlQueue.head? = some hello)
    (hhello : hello.payload.envelope = some ⟨typeHello, .ofHello h⟩)
    (hseq : hello.header.sequence ≤ hi) (htake : m₀.step .control = some m₁)
    (haccept : .event ev hello ∈ m₁.pending)
    (hrun : GuardedRun Band.step (KeepsPeer hello.source h.session hi) m₁ m)
    (hrun' : GuardedRun Band.step (KeepsPeer hello.source h.session hi) m m')
    (hregistered : ∀ key suite, .registerPeerKey hello.source key suite ∈ m.pending →
      m.transport.peerKeys.lookup hello.source = some (key, suite))
    (hpeer : GuardedRun Band.step (fun _ _ => True) (bindWithOptions psk peerName h.session
      peerCiphers peerCapabilities peerDeadAfter peerSeq) p)
    (hnext : hi < p.transport.seq) (hcipher : m.lastCipher hello.source = some cipher)
    (hsealing : (p.transport.sendKeys.lookup own).getD (p.transport.sessionKey, .chaCha20Poly1305) =
      (deriveSessionKey psk cipher h.session, suiteFor cipher))
    (hbye : msg ≠ .goodbye) :
    ∃ pkt, m.transport.decode hello.source
        (p.transport.send (msg.outbound h.session own)).2 = some pkt ∧
      (pkt.header.channelType = .control →
        ∃ ev, .event ev pkt ∈ (m'.control.handle m'.cfg m'.isLive pkt).2) := by
  have harrivals₀ := Arrivals.bind.run
    (fun _ _ h => h) hrun₀
  have hmember₀ := Member.bind.run hrun₀
  -- the peer is live from the moment its HELLO is taken
  have hlive₁ : Live hello.source h.session
      (Greeting.ofHello m₀.cfg hello.source h).committed hi m₁ := by
    obtain ⟨pkt, rest, hpend, hqueue, rfl⟩ := step_control htake
    rw [hqueue] at hhead
    cases hhead
    exact Live.welcome hpend hhello rfl rfl hseq haccept
  have harrivals₁ : Arrivals m₁ := harrivals₀.step (e := .control) trivial htake
  obtain ⟨harrivals, cipher', hlive⟩ := hlive₁.run harrivals₁ hrun
  obtain ⟨-, cipher'', hlive'⟩ := hlive.run harrivals hrun'
  obtain rfl := Option.some.inj (hlive.agreed.symm.trans hcipher)
  have hmember := (hmember₀.step htake).run hrun
  have hmemberp := (@Member.bind psk peerName h.session peerCiphers peerCapabilities peerDeadAfter
    peerSeq).run hpeer
  have hcfg : m.cfg.psk = psk := by
    rw [run_cfg hrun, step_cfg htake, run_cfg hrun₀]
    rfl
  have hcfgp : p.cfg.psk = psk := by
    rw [run_cfg hpeer]
    rfl
  have hkey : m.transport.peerKeys.lookup hello.source =
      some (deriveSessionKey psk cipher' h.session, suiteFor cipher') := by
    rw [← hcfg]
    exact hlive.key.elim id (hregistered _ _)
  refine ⟨_, Transport.decode_send ?_ ?_ ?_, ?_⟩
  · rw [hmember.bandId, hmemberp.bandId, hcfg, hcfgp]
  · rw [hmember.baseKey, hmemberp.baseKey, hcfg, hcfgp]
  · intro huse
    rw [hkey, Transport.sealingKey, if_neg (by simp [huse])]
    have hdest : (msg.outbound h.session own).dest = own := by cases msg <;> rfl
    rw [hdest, hsealing]
  · intro hctl
    refine ControlTask.handle_event rfl hctl hbye hlive'.committed ?_
    intro mark hmark
    exact lt_of_le_of_lt (hlive'.mark mark hmark) hnext

/-! ### The peer, and another member

The peer's HELLO of its second session is accepted. The network also has the
HELLO of its first session and one of another member, which started later. -/

def otherBand : Band := bindWithOptions [1] "other" 3 [] [] 15 0

/-- The HELLO the other member sent to its own peers. -/
def otherHello : Datagram :=
  (otherBand.transport.send ((Message.hello "other" [] [baselineCipher]).outbound 3 ⟨4, 7000⟩)).2

theorem otherHello_genuine : Genuine [1] otherHello :=
  ⟨3, (@Member.bind [1] "other" 3 [] [] 15 0).sentIn_send ⟨4, 7000⟩ _⟩

/-- A HELLO arrives and is taken; then the events `more` happen. -/
def afterHello (check : Band → Event → Bool) (wire : Datagram) (more : List Event) :
    Option (Band × Inbound × Band × Band) := do
  let m₀ ← play Band.step (deliversFrom [1] [wire]) ownBand ((arrive wire).map fun e _ => e)
  let hello ← m₀.controlQueue.head?
  let m₁ ← m₀.step .control
  let m ← play Band.step check m₁ (more.map fun e _ => e)
  some (m₀, hello, m₁, m)

theorem afterHello_runs {check : Band → Event → Bool} {ok : Band → Event → Prop}
    (hcheck : ∀ m e, check m e = true → ok m e) {wire : Datagram} (hwire : Genuine [1] wire)
    {more : List Event} {m₀ m₁ m : Band} {hello : Inbound}
    (h : afterHello check wire more = some (m₀, hello, m₁, m)) :
    GuardedRun Band.step GenuineNet ownBand m₀ ∧ m₀.controlQueue.head? = some hello ∧
      m₀.step .control = some m₁ ∧ GuardedRun Band.step ok m₁ m := by
  obtain ⟨m₀', h₀, hrest⟩ := bind_eq_some_iff.mp h
  obtain ⟨hello', hhead, hrest⟩ := bind_eq_some_iff.mp hrest
  obtain ⟨m₁', h₁, hrest⟩ := bind_eq_some_iff.mp hrest
  obtain ⟨m', h', hlast⟩ := bind_eq_some_iff.mp hrest
  obtain ⟨rfl, rfl, rfl, rfl⟩ : m₀' = m₀ ∧ hello' = hello ∧ m₁' = m₁ ∧ m' = m := by
    simpa using hlast
  refine ⟨guardedRun_play ?_ h₀, hhead, h₁, guardedRun_play hcheck h'⟩
  intro m e he
  refine genuineNet_of_deliversFrom ?_ he
  intro w hw
  rw [mem_singleton.mp hw]
  exact hwire

/-- Whether what the control task reports of `hello` is pending. -/
def accepts (m : Band) (hello : Inbound) : Bool :=
  m.pending.any fun effect => effect.reported = some hello

theorem event_of_accepts {hello : Inbound} (h : m.accepts hello = true) :
    ∃ ev, .event ev hello ∈ m.pending := by
  obtain ⟨effect, hmem, hreported⟩ := any_eq_true.mp h
  cases effect with
  | event ev pkt =>
    obtain rfl := Option.some.inj (of_decide_eq_true hreported)
    exact ⟨ev, hmem⟩
  | _ => cases of_decide_eq_true hreported

/-- The condition of `KeepsPeer`, checked; the keepalive loop does not run. -/
def checkKeeps (m : Band) (e : Event) : Bool :=
  deliversFrom [1] [peerHello 1 10, peerHello 2 5, otherHello] m e &&
    match e with
    | .control => ∀ pkt ∈ m.controlQueue.head?, pkt.source = peerAddr → m.SparesPeer 2 5 pkt
    | .keepalive _ => false
    | _ => true

theorem keepsPeer_of_check (m : Band) (e : Event) (h : checkKeeps m e = true) :
    KeepsPeer peerAddr 2 5 m e := by
  obtain ⟨hnet, hctl⟩ := Bool.and_eq_true_iff.mp h
  cases e with
  | recv source wire =>
    refine genuineNet_of_deliversFrom ?_ hnet
    intro wire hwire
    simp only [mem_cons, not_mem_nil, or_false] at hwire
    rcases hwire with rfl | rfl | rfl
    · exact ⟨1, peerSends_sentIn _ _ _⟩
    · exact ⟨2, peerSends_sentIn _ _ _⟩
    · exact otherHello_genuine
  | control =>
    have hall : ∀ pkt ∈ m.controlQueue.head?, pkt.source = peerAddr → m.SparesPeer 2 5 pkt :=
      of_decide_eq_true hctl
    exact hall
  | keepalive now => cases hctl
  | _ => trivial

theorem decode_and_event_of_keepsPeer_replays : ∃ m₀ hello m₁ m,
    afterHello checkKeeps (peerHello 2 5) (List.replicate 7 (.effect peerAddr) ++
      arrive (peerHello 1 10) ++ settle 0 ++ arrive (peerHello 2 5) ++ settle 0 ++
      [.recv ⟨4, 7000⟩ otherHello, .seen 0, .dispatch] ++ settle 7) = some (m₀, hello, m₁, m) ∧
      ∃ pkt, m.transport.decode hello.source (peerSends 2 6 .keepalive) = some pkt ∧
        (pkt.header.channelType = .control →
          ∃ ev, .event ev pkt ∈ (m.control.handle m.cfg m.isLive pkt).2) := by
  have hall : (afterHello checkKeeps (peerHello 2 5) (List.replicate 7 (.effect peerAddr) ++
      arrive (peerHello 1 10) ++ settle 0 ++ arrive (peerHello 2 5) ++ settle 0 ++
      [.recv ⟨4, 7000⟩ otherHello, .seen 0, .dispatch] ++ settle 7)).any
      (fun s => s.2.1.source = peerAddr ∧ s.2.1.header.sequence = 5 ∧
        s.2.1.payload.envelope =
          some ⟨typeHello, .ofHello ⟨"peer", [], [baselineCipher], 2⟩⟩ ∧
        s.2.2.1.accepts s.2.1 ∧ s.2.2.2.pending = [] ∧
        s.2.2.2.lastCipher peerAddr = some baselineCipher) = true := by
    decide +kernel
  obtain ⟨⟨m₀, hello, m₁, m⟩, hs, hsource, hseq, hhello, haccept, hidle, hcipher⟩ :=
    some_of_any hall
  obtain ⟨hrun₀, hhead, htake, hrun⟩ :=
    afterHello_runs keepsPeer_of_check ⟨2, peerSends_sentIn _ _ _⟩ hs
  obtain ⟨ev, hev⟩ := event_of_accepts haccept
  rw [← hsource] at hcipher
  have hkeeps : GuardedRun Band.step (KeepsPeer hello.source 2 5) m₁ m := hsource ▸ hrun
  have hpeer : GuardedRun Band.step (fun _ _ => True)
      (bindWithOptions [1] "peer" 2 [] [] 15 6) (peerBand 2 6) := .refl
  have hregistered : ∀ key suite, .registerPeerKey hello.source key suite ∈ m.pending →
      m.transport.peerKeys.lookup hello.source = some (key, suite) := by
    rw [hidle]
    exact fun key suite h => absurd h not_mem_nil
  have hsealing : ((peerBand 2 6).transport.sendKeys.lookup ownAddr).getD
      ((peerBand 2 6).transport.sessionKey, .chaCha20Poly1305) =
        (deriveSessionKey [1] baselineCipher 2, suiteFor baselineCipher) := rfl
  have hbye : Message.keepalive ≠ .goodbye := nofun
  have hheard := decode_and_event_of_keepsPeer hrun₀ hhead hhello (le_of_eq hseq) htake hev
    hkeeps .refl hregistered hpeer (by decide) hcipher hsealing hbye
  exact ⟨m₀, hello, m₁, m, hs, hheard⟩

/-- A HELLO of another member with a newer epoch, replayed from the peer's
address, commits that member's epoch there: the peer's packets no longer open. -/
theorem foreign_hello_wedges_peer : ∃ m₀ hello m₁ m,
    GuardedRun Band.step GenuineNet ownBand m₀ ∧ m₀.controlQueue.head? = some hello ∧
      hello.source = peerAddr ∧ hello.wire = peerHello 2 5 ∧ m₀.step .control = some m₁ ∧
      (∃ ev, .event ev hello ∈ m₁.pending) ∧
      GuardedRun Band.step (fun m e => deliversFrom [1] [otherHello] m e = true) m₁ m ∧
      Genuine [1] otherHello ∧ m.pending = [] ∧
      m.transport.decode peerAddr (peerSends 2 6 .keepalive) = none := by
  have hall : (afterHello (deliversFrom [1] [otherHello]) (peerHello 2 5)
      (List.replicate 7 (.effect peerAddr) ++ arrive otherHello ++ settle 7)).any
      (fun s => s.2.1.source = peerAddr ∧ s.2.1.wire = peerHello 2 5 ∧
        s.2.2.1.accepts s.2.1 ∧ s.2.2.2.pending = [] ∧
        s.2.2.2.transport.decode peerAddr (peerSends 2 6 .keepalive) = none) = true := by
    decide +kernel
  obtain ⟨⟨m₀, hello, m₁, m⟩, hs, hsource, hwire, haccept, hidle, hdecode⟩ := some_of_any hall
  obtain ⟨hrun₀, hhead, htake, hrun⟩ :=
    afterHello_runs (fun _ _ h => h) ⟨2, peerSends_sentIn _ _ _⟩ hs
  exact ⟨m₀, hello, m₁, m, hrun₀, hhead, hsource, hwire, htake, event_of_accepts haccept, hrun,
    otherHello_genuine, hidle, hdecode⟩

end Telesthete.Band
