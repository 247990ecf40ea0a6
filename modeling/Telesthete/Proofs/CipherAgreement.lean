import Telesthete.Band.Pair
import Telesthete.Proofs.LivePeer

/-!
# Cipher agreement

Two connected bands follow the exchange of `Exchange`: `Toward` says that what
is on its way to a band are its peer's HELLOs and answers, in order, and none
will be dropped, so that each step of a band is a step of the exchange or
none at all. `Settling` ties what a band has committed to with the keys it
registers. So two bands end with one cipher and matching keys whenever the
exchange does.

It does not when two HELLOs cross and the two preference orders select
different ciphers, or when they select an id that is on both lists but names
no suite: the responder keys its packets under that id, while the initiator
falls back to the baseline. `Negotiates` excludes these HELLOs, and that a
sequence counter wraps around.
-/

namespace Telesthete.Band

open Telesthete.Lib Telesthete.Crypto Telesthete.Wire List Option
open Telesthete.Channel (Side)

variable {pkt : Inbound} {addr : SocketAddr} {m : Band}
variable {cfg : ControlConfig} {g : Greeting} {does : Effect → Prop} {effect : Effect}
  {rest : List Effect} {done : Prop} {m' : Band} {session : UInt64} {cipher : String} {psk : Bytes}
  {wire : Datagram} {s : Pair} {x : Side}

/-! ### What is committed and what is registered -/

/-- Whatever the effect does for `addr` is done for this cipher. -/
def Effect.Commits (addr : SocketAddr) (cfg : ControlConfig) (session : UInt64)
    (cipher : String) : Effect → Prop
  | .registerPeerKey a key suite => a = addr →
      key = deriveSessionKey cfg.psk cipher session ∧ suite = suiteFor cipher
  | .registerSendKey a key suite => a = addr →
      key = deriveSessionKey cfg.psk cipher cfg.session ∧ suite = suiteFor cipher
  | .insertPeer a state => a = addr → state.cipher = cipher
  | .makeRoom a => a = addr
  | .removePeer _ => False
  | .forget _ => False
  | _ => True

theorem Greeting.welcome_ack {ack : HelloAck} (h : .sendHelloAck addr ack ∈ g.welcome cfg pkt) :
    g.isHello = true ∧
      ack = ⟨cfg.hostname, cfg.capabilities, cfg.ciphers, g.committed, cfg.session⟩ := by
  unfold welcome at h
  split at h
  · rename_i hhello
    simp only [cons_append, nil_append, mem_cons, reduceCtorEq,
      Effect.sendHelloAck.injEq, false_or, not_mem_nil, or_false] at h
    exact ⟨hhello, h.2⟩
  · simp at h

/-- Done, or one of the pending effects will do it. -/
def Due (done : Prop) (does : Effect → Prop) (pending : List Effect) : Prop :=
  done ∨ ∃ effect ∈ pending, does effect

theorem Due.performed {done done' : Prop}
    (h : Due done does (effect :: rest)) (hdoes : does effect → done')
    (hkeeps : done → done') : Due done' does rest := by
  rcases h with hdone | ⟨effect', hmem, heffect⟩
  · exact .inl (hkeeps hdone)
  · rcases mem_cons.mp hmem with rfl | hrest
    · exact .inl (hdoes heffect)
    · exact .inr ⟨effect', hrest, heffect⟩

theorem Due.of_nil (h : Due done does []) : done := by
  rcases h with hdone | ⟨effect, hmem, -⟩
  · exact hdone
  · cases hmem

/-- The keys and the registry entry of an address are those of this cipher, as
far as the control task is done. -/
structure Settling (addr : SocketAddr) (session : UInt64) (cipher : String) (m : Band) : Prop where
  recv : Due (m.transport.peerKeys.lookup addr =
      some (deriveSessionKey m.cfg.psk cipher session, suiteFor cipher))
    (fun effect => ∃ key suite, effect = .registerPeerKey addr key suite) m.pending
  send : Due (m.transport.sendKeys.lookup addr =
      some (deriveSessionKey m.cfg.psk cipher m.cfg.session, suiteFor cipher))
    (fun effect => ∃ key suite, effect = .registerSendKey addr key suite) m.pending
  registry : Due ((m.peers.lookup addr).map (·.cipher) = some cipher)
    (fun effect => ∃ state, effect = .insertPeer addr state) m.pending
  pending : ∀ effect ∈ m.pending, effect.Commits addr m.cfg session cipher

theorem Greeting.welcome_commits :
    ∀ effect ∈ g.welcome cfg pkt, effect.Commits pkt.source cfg g.session g.committed :=
  forall_welcome (fun _ => ⟨rfl, rfl⟩) (fun _ => ⟨rfl, rfl⟩) rfl (fun _ => rfl)
    (fun _ => trivial) trivial

section Perform

variable {m m' : Band} {victim addr : SocketAddr} {effect : Effect} {session : UInt64}
  {cipher : String}

theorem perform_keeps_recv (hcommits : effect.Commits addr m.cfg session cipher)
    (h : m.perform victim effect = some m')
    (hdone : m.transport.peerKeys.lookup addr =
      some (deriveSessionKey m.cfg.psk cipher session, suiteFor cipher)) :
    m'.transport.peerKeys.lookup addr =
      some (deriveSessionKey m.cfg.psk cipher session, suiteFor cipher) := by
  rcases perform_peerKeys h addr with ⟨key, suite, rfl, hkey⟩ | ⟨rfl, -⟩ | hsame
  · obtain ⟨rfl, rfl⟩ := hcommits rfl
    exact hkey
  · exact hcommits.elim
  · exact hsame.trans hdone

theorem perform_keeps_send (hcommits : effect.Commits addr m.cfg session cipher)
    (h : m.perform victim effect = some m')
    (hdone : m.transport.sendKeys.lookup addr =
      some (deriveSessionKey m.cfg.psk cipher m.cfg.session, suiteFor cipher)) :
    m'.transport.sendKeys.lookup addr =
      some (deriveSessionKey m.cfg.psk cipher m.cfg.session, suiteFor cipher) := by
  cases effect with
  | registerSendKey a key suite =>
    cases h
    by_cases ha : addr = a
    · subst ha
      obtain ⟨rfl, rfl⟩ := hcommits rfl
      exact AList.lookup_insert _
    · exact (AList.lookup_insert_ne ha).trans hdone
  | forget op => exact hcommits.elim
  | makeRoom a =>
    obtain ⟨peers, rfl⟩ := perform_makeRoom h
    exact hdone
  | _ =>
    cases h
    exact hdone

theorem perform_keeps_registry (hcommits : effect.Commits addr m.cfg session cipher)
    (h : m.perform victim effect = some m')
    (hdone : (m.peers.lookup addr).map (·.cipher) = some cipher) :
    (m'.peers.lookup addr).map (·.cipher) = some cipher := by
  cases effect with
  | insertPeer a state =>
    cases h
    by_cases ha : addr = a
    · subst ha
      rw [AList.lookup_insert]
      exact congrArg some (hcommits rfl)
    · rw [AList.lookup_insert_ne ha]
      exact hdone
  | removePeer a => exact hcommits.elim
  | makeRoom a =>
    -- no room is made for an address that is in the registry
    obtain rfl : a = addr := hcommits
    rcases makeRoom_cases h with ⟨hnone, -, -⟩ | rfl
    · rw [hnone] at hdone
      cases hdone
    · exact hdone
  | _ =>
    cases h
    exact hdone

end Perform

theorem Settling.performed {victim addr : SocketAddr}
    (hm : Settling addr session cipher m) (hpend : m.pending = effect :: rest)
    (h : { m with pending := rest }.perform victim effect = some m') :
    Settling addr session cipher m' := by
  obtain ⟨hcfg, -, hpend'⟩ := perform_frame h
  obtain ⟨hrecv, hsend, hregistry, hall⟩ := hm
  rw [hpend] at hrecv hsend hregistry hall
  have hcommits := hall effect mem_cons_self
  refine ⟨?_, ?_, ?_, ?_⟩ <;> rw [hpend']
  · rw [hcfg]
    refine hrecv.performed ?_ (perform_keeps_recv (m := { m with pending := rest }) hcommits h)
    rintro ⟨key, suite, rfl⟩
    cases h
    obtain ⟨rfl, rfl⟩ := hcommits rfl
    exact AList.lookup_insert _
  · rw [hcfg]
    refine hsend.performed ?_ (perform_keeps_send (m := { m with pending := rest }) hcommits h)
    rintro ⟨key, suite, rfl⟩
    cases h
    obtain ⟨rfl, rfl⟩ := hcommits rfl
    exact AList.lookup_insert _
  · refine hregistry.performed ?_ (perform_keeps_registry (m := { m with pending := rest }) hcommits h)
    rintro ⟨state, rfl⟩
    cases h
    rw [AList.lookup_insert]
    exact congrArg some (hcommits rfl)
  · rw [hcfg]
    exact fun effect' h' => hall effect' (mem_cons_of_mem _ h')

/-- A step that touches neither the three tables nor what is pending. -/
theorem Settling.congr
    (hm : Settling addr session cipher m) (hcfg : m'.cfg = m.cfg) (hpend : m'.pending = m.pending)
    (hrecv : m'.transport.peerKeys = m.transport.peerKeys)
    (hsend : m'.transport.sendKeys = m.transport.sendKeys) (hpeers : m'.peers = m.peers) :
    Settling addr session cipher m' := by
  refine ⟨?_, ?_, ?_, ?_⟩ <;> rw [hpend]
  · rw [hcfg, hrecv]
    exact hm.recv
  · rw [hcfg, hsend]
    exact hm.send
  · rw [hpeers]
    exact hm.registry
  · rw [hcfg]
    exact hm.pending

/-! ### The packets on their way -/

/-- A handshake packet of a member. -/
def Sealed (psk : Bytes) (wire : Datagram) (payload : Payload) : Prop :=
  ∃ (t : Transport) (out : Outbound), t.baseKey = deriveKey psk ∧ t.bandId = deriveBandId psk ∧
    out.useBaseKey = true ∧ out.channelType = .control ∧ out.plaintext = payload ∧
    wire = (t.send out).2

/-- The two payloads a band sends to a peer in a handshake. -/
def Handshakes (own peer : ControlConfig) (payload : Payload) : Prop :=
  payload = helloOf own ∨ payload = .json ⟨typeHelloAck, .ofHelloAck (ackOf own peer)⟩

theorem Sealed.decode {payload : Payload}
    (hm : Member m) (hpsk : m.cfg.psk = psk) (h : Sealed psk wire payload) (addr : SocketAddr) :
    m.transport.decode addr wire = some (.opened addr wire) ∧
      wire.header.channelType = .control ∧ wire.ciphertext.plaintext = payload := by
  obtain ⟨t, out, hbase, hband, huse, hctl, rfl, rfl⟩ := h
  refine ⟨Transport.decode_send ?_ ?_ (by simp [huse]), hctl, rfl⟩
  · rw [hband, hm.bandId, hpsk]
  · rw [hbase, hm.baseKey, hpsk]

theorem Sealed.of_send (hm : Member m) (hpsk : m.cfg.psk = psk)
    (out : Outbound) (huse : out.useBaseKey = true) (hctl : out.channelType = .control) :
    Sealed psk (m.transport.send out).2 out.plaintext :=
  ⟨m.transport, out, hpsk ▸ hm.baseKey, hpsk ▸ hm.bandId, huse, hctl, rfl, rfl⟩

/-- What holds of the packets on their way from `p`, at `addr`, to `m`, and of what
`m` has made of those before them. -/
structure Toward (psk : Bytes) (addr : SocketAddr) (own peer : ControlConfig) (m p : Band)
    (got : Nat) : Prop where
  sessions : ∀ s, m.control.sessions.lookup addr = some s → s = peer.session
  /-- The watermark, the sequences of the packets, and that of the next one. -/
  order : ((m.control.watermark.lookup addr).toList ++
    (arriving addr m p got).map (·.header.sequence) ++ [p.transport.seq]).Pairwise (· < ·)
  got_le : got ≤ p.outbox.length
  packets : ∀ pkt ∈ arriving addr m p got, pkt.source = addr ∧
    pkt.header.channelType = .control ∧ Handshakes peer own pkt.payload
  outbox : ∀ out ∈ p.outbox, ∃ payload, Sealed psk out.2 payload
  due : ∀ a ack, .sendHelloAck a ack ∈ m.pending → ack = ackOf own peer
  settling : ∀ cipher, m.lastCipher addr = some cipher → Settling addr peer.session cipher m

theorem selectCipher_of_isEmpty (init supported : List String) :
    selectCipher (if init.isEmpty then [baselineCipher] else init) supported =
      selectCipher init supported := by
  cases init with
  | nil => rfl
  | cons c init => rfl

/-- What a handshake packet of the peer is to its receiver, and to the exchange. -/
theorem Handshakes.greeting {own peer : ControlConfig} (h : Handshakes peer own pkt.payload) :
    ∃ env g, pkt.payload.envelope = some env ∧ env.isHandshake = true ∧
      env.greeting own pkt.source = some g ∧ g.session = peer.session ∧
      (g.isHello = true ∧ pkt.greet = some .hello ∧
          g.committed = selectCipher peer.ciphers own.ciphers ∨
        g.isHello = false ∧ pkt.greet = some (.ack (selectCipher own.ciphers peer.ciphers)) ∧
          g.committed = knownCipher (selectCipher own.ciphers peer.ciphers)) := by
  rcases h with h | h
  · refine ⟨_, _, by rw [h]; rfl, rfl, rfl, rfl, .inl ⟨rfl, ?_, ?_⟩⟩
    · rw [Inbound.greet, h]
      rfl
    · exact selectCipher_of_isEmpty _ _
  · refine ⟨_, _, by rw [h]; rfl, rfl, rfl, rfl, .inr ⟨rfl, ?_, rfl⟩⟩
    rw [Inbound.greet, h]
    rfl

theorem arriving_append {d : SocketAddr} {p p' : Band} {got : Nat}
    (hgot : got ≤ p.outbox.length) (hout : p'.outbox = p.outbox ++ [(d, wire)])
    (addr : SocketAddr) (m : Band) :
    arriving addr m p' got = arriving addr m p got ++ [.opened addr wire] := by
  rw [arriving, arriving, hout, drop_append_of_le_length hgot, map_append,
    append_assoc, append_assoc, append_assoc]
  rfl

namespace Toward

variable {psk : Bytes} {addr : SocketAddr} {own peer : ControlConfig} {m m' p p' : Band}
  {got got' : Nat}

/-- The peer does something but sends nothing. -/
theorem same_sender (h : Toward psk addr own peer m p got) (hout : p'.outbox = p.outbox)
    (hseq : p'.transport.seq = p.transport.seq) : Toward psk addr own peer m p' got := by
  have harr : arriving addr m p' got = arriving addr m p got := by
    rw [arriving, arriving, hout]
  exact ⟨h.sessions, by rw [harr, hseq]; exact h.order, hout ▸ h.got_le, harr ▸ h.packets,
    hout ▸ h.outbox, h.due, h.settling⟩

/-- The peer sends a handshake packet. -/
theorem sends (h : Toward psk addr own peer m p got) {d : SocketAddr} {wire : Datagram}
    {payload : Payload} (hout : p'.outbox = p.outbox ++ [(d, wire)])
    (hseq : p'.transport.seq = p.transport.seq + 1)
    (hnow : wire.header.sequence = p.transport.seq) (hsealed : Sealed psk wire payload)
    (hpayload : Handshakes peer own payload) : Toward psk addr own peer m p' got := by
  have harr := arriving_append h.got_le hout addr m
  obtain ⟨t, out, hbase, hband, huse, hctl, hplain, hwire⟩ := hsealed
  refine ⟨h.sessions, ?_, ?_, ?_, ?_, h.due, h.settling⟩
  · rw [harr, hseq, map_append, ← append_assoc, append_assoc _ _ [_ + 1]]
    have hall := (pairwise_append.mp h.order).2.2
    refine pairwise_append.mpr ⟨(pairwise_append.mp h.order).1, ?_, ?_⟩
    · simp [Inbound.opened, hnow]
    · intro a ha b hb
      have hlt := hall a ha _ mem_cons_self
      simp only [map_cons, map_nil, Inbound.opened, hnow, cons_append,
        nil_append, mem_cons, not_mem_nil, or_false] at hb
      omega
  · rw [hout, length_append]
    exact Nat.le_add_right_of_le h.got_le
  · rw [harr]
    have hopened : (Inbound.opened addr wire).payload = payload := by
      rw [hwire]
      exact hplain
    refine forall_mem_snoc h.packets ⟨rfl, ?_, hopened ▸ hpayload⟩
    rw [hwire]
    exact hctl
  · rw [hout]
    exact forall_mem_snoc h.outbox ⟨payload, t, out, hbase, hband, huse, hctl, hplain, hwire⟩

/-- The receiver does something other than taking a packet. -/
theorem receiver (h : Toward psk addr own peer m p got) (hctl : m'.control = m.control)
    (harr : arriving addr m' p got' = arriving addr m p got) (hgot : got' ≤ p.outbox.length)
    (hpend : ∀ effect ∈ m'.pending, effect ∈ m.pending)
    (hcipher : m'.lastCipher addr = m.lastCipher addr)
    (hsettling : ∀ cipher, Settling addr peer.session cipher m →
      Settling addr peer.session cipher m') :
    Toward psk addr own peer m' p got' := by
  refine ⟨hctl ▸ h.sessions, ?_, hgot, harr ▸ h.packets, h.outbox, ?_, ?_⟩
  · rw [hctl, harr]
    exact h.order
  · exact fun a ack hack => h.due a ack (hpend _ hack)
  · intro cipher hc
    exact hsettling cipher (h.settling cipher (hcipher ▸ hc))

/-- The receiver takes the next packet, and does what the message says. -/
theorem taken (h : Toward psk addr own peer m p got) (hcfg : m.cfg = own)
    (hpend : m.pending = []) {rest : List Inbound}
    (hqueue : m.controlQueue = pkt :: rest) :
    Toward psk addr own peer (m.taken pkt rest) p got ∧
      arriving addr m p got = pkt :: arriving addr (m.taken pkt rest) p got ∧
      (pkt.greet = some .hello ∧
          (m.taken pkt rest).lastCipher addr = some (selectCipher peer.ciphers own.ciphers) ∧
          (m.taken pkt rest).pending.filterMap Effect.answers =
            [selectCipher peer.ciphers own.ciphers] ∨
        pkt.greet = some (.ack (selectCipher own.ciphers peer.ciphers)) ∧
          (m.taken pkt rest).lastCipher addr =
            some (knownCipher (selectCipher own.ciphers peer.ciphers)) ∧
          (m.taken pkt rest).pending.filterMap Effect.answers = []) := by
  subst hcfg
  have harr : arriving addr m p got = pkt :: arriving addr (m.taken pkt rest) p got := by
    rw [arriving, hqueue]
    rfl
  obtain ⟨rfl, hctl, hpayload⟩ := h.packets pkt (harr ▸ mem_cons_self)
  obtain ⟨env, g, henv, hhand, hg, hsession, hkind⟩ := hpayload.greeting
  -- it is above the watermark and of the peer's epoch, so it is accepted
  have horder := h.order
  rw [harr, map_cons, append_assoc, cons_append] at horder
  obtain ⟨-, hrest, hmark⟩ := pairwise_append.mp horder
  have hevent : .event g.event pkt ∈ (m.control.handle m.cfg m.isLive pkt).2 := by
    refine ControlTask.handle_greeting_event henv hhand hg ?_ ?_
    · exact fun s hs => (h.sessions s hs).trans hsession.symm
    · intro mark hlookup
      exact hmark mark (by simp [hlookup]) _ mem_cons_self
  have hlive : Live pkt.source g.session g.committed pkt.header.sequence (m.taken pkt rest) :=
    .welcome hpend henv hhand hg (le_rfl) hevent
  obtain ⟨hses, hwm, heffects⟩ := ControlTask.handle_welcome henv hhand hg hevent
  have hpending : (m.taken pkt rest).pending = g.welcome m.cfg pkt ∨
      (m.taken pkt rest).pending = .rebase pkt.source :: g.welcome m.cfg pkt := heffects
  have hanswers : (m.taken pkt rest).pending.filterMap Effect.answers =
      if g.isHello then [g.committed] else [] := by
    rcases hpending with heq | heq <;> rw [heq] <;> unfold Greeting.welcome <;>
      cases g.isHello <;> rfl
  have hin : ∀ effect ∈ g.welcome m.cfg pkt, effect ∈ (m.taken pkt rest).pending := by
    intro effect heffect
    rcases hpending with heq | heq <;> rw [heq]
    · exact heffect
    · exact mem_cons_of_mem _ heffect
  have hfrom : ∀ effect ∈ (m.taken pkt rest).pending,
      effect = .rebase pkt.source ∨ effect ∈ g.welcome m.cfg pkt := by
    intro effect heffect
    rcases hpending with heq | heq <;> rw [heq] at heffect
    · exact .inr heffect
    · exact mem_cons.mp heffect
  refine ⟨⟨?_, ?_, h.got_le, ?_, h.outbox, ?_, ?_⟩, harr, ?_⟩
  · exact fun s hs => (hses s hs).trans hsession
  · have hwm' : (m.taken pkt rest).control.watermark.lookup pkt.source =
        some pkt.header.sequence := hwm
    rw [hwm']
    exact hrest
  · exact fun q hq => h.packets q (harr ▸ mem_cons_of_mem _ hq)
  · intro a ack hack
    obtain ⟨hhello, rfl⟩ := Greeting.welcome_ack ((hfrom _ hack).resolve_left nofun)
    rcases hkind with ⟨-, -, hc⟩ | ⟨hnot, -, -⟩
    · rw [hc]
      rfl
    · rw [hhello] at hnot
      cases hnot
  · intro cipher hc
    obtain rfl := Option.some.inj (hlive.agreed.symm.trans hc)
    rw [← hsession]
    refine ⟨.inr ⟨_, hin _ mem_cons_self, _, _, rfl⟩,
      .inr ⟨_, hin _ (mem_cons_of_mem _ mem_cons_self), _, _, rfl⟩,
      .inr ⟨_, hin _ Greeting.insertPeer_mem_welcome, _, rfl⟩, ?_⟩
    intro effect heffect
    rcases hfrom effect heffect with rfl | hwelcome
    · trivial
    · exact Greeting.welcome_commits effect hwelcome
  · rw [hlive.agreed, hanswers]
    rcases hkind with ⟨hhello, hgreet, hc⟩ | ⟨hack, hgreet, hc⟩
    · exact .inl ⟨hgreet, by rw [hc], by rw [hhello, hc]; rfl⟩
    · exact .inr ⟨hgreet, by rw [hc], by rw [hack]; rfl⟩

end Toward

/-! ### The two bands follow the exchange -/

/-- The condition on a HELLO of `x`: if none of the other side waits for an answer,
it selects an id that names a suite; if one does, both lead to one cipher. -/
def Pair.Orderly (addr : Side → SocketAddr) (s : Pair) (x : Side) : Prop :=
  if s.Answered addr x then
    (Suite.fromId (choice (fun z => (s.band z).cfg) x)).isSome = true
  else
    knownCipher (choice (fun z => (s.band z).cfg) x) =
      knownCipher (choice (fun z => (s.band z).cfg) x.other)

instance (addr : Side → SocketAddr) (s : Pair) (x : Side) : Decidable (s.Orderly addr x) :=
  inferInstanceAs (Decidable (if s.Answered addr x then _ else _))

/-- HELLOs are orderly, and no counter wraps around. -/
def Negotiates (addr : Side → SocketAddr) (s : Pair) : Move → Prop
  | .connect x => (s.band x).transport.seq + 1 < 2 ^ 64 ∧ s.Orderly addr x
  | .task x (.effect _) => (s.band x).transport.seq + 1 < 2 ^ 64
  | _ => True

instance (addr : Side → SocketAddr) (s : Pair) : DecidablePred (Negotiates addr s)
  | .connect x =>
    inferInstanceAs (Decidable ((s.band x).transport.seq + 1 < 2 ^ 64 ∧ s.Orderly addr x))
  | .task x (.effect _) => inferInstanceAs (Decidable ((s.band x).transport.seq + 1 < 2 ^ 64))
  | .task _ (.seen _) => isTrue trivial
  | .task _ .dispatch => isTrue trivial
  | .task _ .control => isTrue trivial
  | .deliver _ => isTrue trivial

/-- The exchange the two bands carry out. -/
def Pair.view (addr : Side → SocketAddr) (s : Pair) : Exchange String where
  inbox x := (s.inbound addr x).filterMap Inbound.greet
  due x := s.due x
  committed x := (s.band x).lastCipher (addr x.other)

theorem Pair.view_answered {addr : Side → SocketAddr} :
    (s.view addr).Answered x ↔ s.Answered addr x := by
  refine and_congr_right fun _ => ⟨fun h pkt hpkt hgreet => ?_, fun h hmem => ?_⟩
  · exact h (mem_filterMap.mpr ⟨pkt, hpkt, hgreet⟩)
  · obtain ⟨pkt, hpkt, hgreet⟩ := mem_filterMap.mp hmem
    exact h pkt hpkt hgreet

/-- The exchange after one band has moved. -/
theorem Pair.view_set {addr : Side → SocketAddr} {e : Exchange String} (hinbox : e.inbox x =
      (arriving (addr x.other) m (s.band x.other) (s.got x)).filterMap Inbound.greet)
    (hinbox' : e.inbox x.other =
      (arriving (addr x) (s.band x.other) m (s.got x.other)).filterMap Inbound.greet)
    (hdue : e.due x = m.pending.filterMap Effect.answers) (hdue' : e.due x.other = s.due x.other)
    (hcommitted : e.committed x = m.lastCipher (addr x.other))
    (hcommitted' : e.committed x.other = (s.band x.other).lastCipher (addr x)) :
    (s.set x m).view addr = e := by
  refine Exchange.ext_sides x ⟨?_, ?_, ?_⟩ ⟨?_, ?_, ?_⟩
  · simp [Pair.view, Pair.inbound, hinbox]
  · simp [Pair.view, Pair.due, hdue]
  · simp [Pair.view, hcommitted]
  · simp [Pair.view, Pair.inbound, hinbox']
  · simp [Pair.view, Pair.due, hdue']
  · simp [Pair.view, hcommitted']

structure PairInv (psk : Bytes) (addr : Side → SocketAddr) (cfg : Side → ControlConfig)
    (s : Pair) : Prop where
  cfg_eq : ∀ x, (s.band x).cfg = cfg x
  psk_eq : ∀ x, (cfg x).psk = psk
  member : ∀ x, Member (s.band x)
  toward : ∀ x, Toward psk (addr x.other) (cfg x) (cfg x.other) (s.band x) (s.band x.other)
    (s.got x)

namespace PairInv

variable {psk : Bytes} {addr : Side → SocketAddr} {cfg : Side → ControlConfig} {s s' : Pair}
  {x : Side} {m : Band}
variable {victim : SocketAddr}

/-- One band has moved, and the other has not. -/
theorem moved (hs : PairInv psk addr cfg s) (hx : s'.band x = m)
    (hy : s'.band x.other = s.band x.other) (hgot : s'.got x.other = s.got x.other)
    (hcfg : m.cfg = (s.band x).cfg) (hmember : Member m)
    (htoward : Toward psk (addr x.other) (cfg x) (cfg x.other) m (s.band x.other) (s'.got x))
    (hback : Toward psk (addr x) (cfg x.other) (cfg x) (s.band x.other) m (s.got x.other)) :
    PairInv psk addr cfg s' := by
  refine ⟨fun z => ?_, hs.psk_eq, fun z => ?_, fun z => ?_⟩ <;>
    rcases Side.eq_or_eq_other x z with rfl | rfl
  · rw [hx, hcfg, hs.cfg_eq]
  · rw [hy, hs.cfg_eq]
  · rw [hx]
    exact hmember
  · rw [hy]
    exact hs.member _
  · rw [hx, hy]
    exact htoward
  · rw [Side.other_other, hx, hy, hgot]
    exact hback

/-- The band that moved only carried its packets on. -/
theorem carried (hs : PairInv psk addr cfg s) (hx : s'.band x = m)
    (hy : s'.band x.other = s.band x.other) (hgot : s'.got x.other = s.got x.other)
    (hgotx : s'.got x ≤ (s.band x.other).outbox.length) (hmember : Member m)
    (hcfg : m.cfg = (s.band x).cfg) (hctl : m.control = (s.band x).control)
    (hpend : m.pending = (s.band x).pending) (hevents : m.events = (s.band x).events)
    (hpeers : m.peers = (s.band x).peers) (hout : m.outbox = (s.band x).outbox)
    (hrecv : m.transport.peerKeys = (s.band x).transport.peerKeys)
    (hsend : m.transport.sendKeys = (s.band x).transport.sendKeys)
    (hseq : m.transport.seq = (s.band x).transport.seq)
    (harr : arriving (addr x.other) m (s.band x.other) (s'.got x) = s.inbound addr x) :
    PairInv psk addr cfg s' ∧ s'.view addr = s.view addr := by
  have hcipher : ∀ a, m.lastCipher a = (s.band x).lastCipher a := by
    intro a
    rw [lastCipher, lastCipher, reported, reported, hevents, hpend, hcfg]
  have hback := hs.toward x.other
  rw [Side.other_other] at hback
  refine ⟨hs.moved hx hy hgot hcfg hmember ?_ (hback.same_sender hout hseq), ?_⟩
  · exact (hs.toward x).receiver hctl harr hgotx (fun _ h => hpend ▸ h) (hcipher _)
      (fun _ h => h.congr hcfg hpend hrecv hsend hpeers)
  · refine Exchange.ext_sides x ⟨?_, ?_, ?_⟩ ⟨?_, ?_, ?_⟩
    · simp only [Pair.view, Pair.inbound, hx, hy] at harr ⊢
      rw [harr]
    · simp only [Pair.view, Pair.due, hx, hpend]
    · simp only [Pair.view, hx, hcipher]
    · simp only [Pair.view, Pair.inbound, Side.other_other, hx, hy, hgot, arriving, hout]
    · simp only [Pair.view, Pair.due, hy]
    · simp only [Pair.view, hy]

/-- The next datagram of the other side arrives: it opens. -/
theorem delivered (hs : PairInv psk addr cfg s) (h : s.step addr (.deliver x) = some s') :
    PairInv psk addr cfg s' ∧ s'.view addr = s.view addr := by
  obtain ⟨out, hout, hrest⟩ := bind_eq_some_iff.mp h
  obtain ⟨m, hm, hs'⟩ := bind_eq_some_iff.mp hrest
  cases hs'
  obtain ⟨hlt, hget⟩ := List.getElem?_eq_some_iff.mp hout
  obtain ⟨payload, hsealed⟩ := (hs.toward x).outbox out (mem_of_getElem? hout)
  have hpsk : (s.band x).cfg.psk = psk := by rw [hs.cfg_eq, hs.psk_eq]
  obtain ⟨hdec, -, -⟩ := hsealed.decode (hs.member x) hpsk (addr x.other)
  have hmember := (hs.member x).step hm
  simp only [step] at hm
  split at hm
  · rename_i hidle
    rw [hdec] at hm
    cases hm
    refine hs.carried (x := x) (Pair.set_band s x _) (Pair.set_band_other s x _) ?_ ?_ hmember
      rfl rfl rfl rfl rfl rfl rfl rfl rfl ?_
    · simp
    · simpa using Nat.succ_le_of_lt hlt
    · simp only [Function.update_self, Pair.inbound, arriving, hidle, RecvLoop.inHand,
        append_nil]
      rw [drop_eq_getElem_cons hlt, hget]
      simp
  · cases hm

/-- The control task takes a packet: a step of the exchange. -/
theorem takes (hs : PairInv psk addr cfg s) (h : (s.band x).step .control = some m) :
    PairInv psk addr cfg (s.set x m) ∧
      Exchange.Step (choice cfg) knownCipher (s.view addr) ((s.set x m).view addr) := by
  have hmember := (hs.member x).step h
  obtain ⟨pkt, rest, hpend, hqueue, rfl⟩ := step_control h
  obtain ⟨htoward, harr, hkind⟩ := (hs.toward x).taken (hs.cfg_eq x) hpend hqueue
  have hback := hs.toward x.other
  rw [Side.other_other] at hback
  refine ⟨hs.moved (s.set_band x _) (s.set_band_other x _) rfl rfl hmember htoward
    (hback.same_sender rfl rfl), ?_⟩
  have hback' : arriving (addr x) (s.band x.other) ((s.band x).taken pkt rest) (s.got x.other) =
      arriving (addr x) (s.band x.other) (s.band x) (s.got x.other) := rfl
  have hidle : s.due x = [] := by rw [Pair.due, hpend, filterMap_nil]
  have hchoice : choice cfg x.other = selectCipher (cfg x.other).ciphers (cfg x).ciphers := by
    rw [choice, Side.other_other]
  have hinbox : ∀ msg, pkt.greet = some msg → (s.view addr).inbox x = msg ::
      (arriving (addr x.other) ((s.band x).taken pkt rest) (s.band x.other) (s.got x)).filterMap
        Inbound.greet := by
    intro msg hmsg
    simp only [Pair.view, Pair.inbound]
    rw [harr, filterMap_cons_some hmsg]
  -- the exchange takes the message that the packet is
  rcases hkind with ⟨hgreet, hcipher, hdue⟩ | ⟨hgreet, hcipher, hdue⟩
  · have hstep : Exchange.Step (choice cfg) knownCipher _ _ :=
      .takeHello _ x _ (hinbox _ hgreet)
    refine Eq.mpr (congrArg _ (Pair.view_set ?_ ?_ ?_ ?_ ?_ ?_)) hstep <;>
      simp [Pair.view, hidle, hchoice, hcipher, hdue, Pair.inbound, hback']
  · have hstep : Exchange.Step (choice cfg) knownCipher _ _ :=
      .takeAck _ x _ _ (hinbox _ hgreet)
    refine Eq.mpr (congrArg _ (Pair.view_set ?_ ?_ ?_ ?_ ?_ ?_)) hstep <;>
      simp [Pair.view, hidle, hcipher, hdue, Pair.inbound, hback']

/-- A handshake packet goes out to the other side. -/
theorem sent (hs : PairInv psk addr cfg s) (pend : List Effect) (out : Outbound)
    (huse : out.useBaseKey = true) (hctl : out.channelType = .control)
    (hpayload : Handshakes (cfg x) (cfg x.other) out.plaintext)
    (hfits : (s.band x).transport.seq + 1 < 2 ^ 64) :
    Toward psk (addr x) (cfg x.other) (cfg x) (s.band x.other)
        ({ s.band x with pending := pend }.send out) (s.got x.other) ∧
      arriving (addr x) (s.band x.other) ({ s.band x with pending := pend }.send out)
          (s.got x.other) =
        s.inbound addr x.other ++ [.opened (addr x) ((s.band x).transport.send out).2] := by
  have hback := hs.toward x.other
  have hsealed : Sealed psk ((s.band x).transport.send out).2 out.plaintext :=
    .of_send (hs.member x) (hs.cfg_eq x ▸ hs.psk_eq x) out huse hctl
  rw [Side.other_other] at hback
  refine ⟨hback.sends rfl (Nat.mod_eq_of_lt hfits) rfl hsealed hpayload, ?_⟩
  rw [Pair.inbound, Side.other_other]
  exact arriving_append hback.got_le rfl _ _

/-- An effect answers a HELLO, or sends nothing. -/
theorem perform_sends {m m' : Band} {effect : Effect} (h : m.perform victim effect = some m') :
    (∃ a ack, effect = .sendHelloAck a ack ∧
      m' = m.send (controlOut a typeHelloAck (.ofHelloAck ack) true)) ∨
    effect.answers = none ∧ m'.outbox = m.outbox ∧ m'.transport.seq = m.transport.seq := by
  cases effect with
  | sendHelloAck a ack => exact .inl ⟨a, ack, rfl, (Option.some.inj h).symm⟩
  | makeRoom a =>
    obtain ⟨peers, rfl⟩ := perform_makeRoom h
    exact .inr ⟨rfl, rfl, rfl⟩
  | forget op =>
    cases h
    cases op <;> exact .inr ⟨rfl, rfl, rfl⟩
  | _ =>
    cases h
    exact .inr ⟨rfl, rfl, rfl⟩

/-- The control task performs an effect: the exchange goes on if it is an answer. -/
theorem performs (hs : PairInv psk addr cfg s) (hfits : (s.band x).transport.seq + 1 < 2 ^ 64)
    (h : (s.band x).step (.effect victim) = some m) :
    PairInv psk addr cfg (s.set x m) ∧ ((s.set x m).view addr = s.view addr ∨
      Exchange.Step (choice cfg) knownCipher (s.view addr) ((s.set x m).view addr)) := by
  have hmember := (hs.member x).step h
  have hcfg := step_cfg h
  obtain ⟨effect, rest, hpend, hp⟩ := step_effect h
  obtain ⟨-, hctl, hpend'⟩ := perform_frame hp
  obtain ⟨hloop, hqueue, -⟩ := perform_queues hp
  have harr : arriving (addr x.other) m (s.band x.other) (s.got x) =
      arriving (addr x.other) (s.band x) (s.band x.other) (s.got x) := by
    rw [arriving, arriving, hloop, hqueue]
  have hcipher : m.lastCipher (addr x.other) = (s.band x).lastCipher (addr x.other) := by
    rw [lastCipher, lastCipher, perform_reported hpend hp, hcfg]
  have htoward : Toward psk (addr x.other) (cfg x) (cfg x.other) m (s.band x.other) (s.got x) := by
    refine (hs.toward x).receiver hctl harr (hs.toward x).got_le ?_ hcipher ?_
    · intro effect' heffect'
      rw [hpend'] at heffect'
      exact hpend ▸ mem_cons_of_mem _ heffect'
    · exact fun cipher hsettling => hsettling.performed hpend hp
  have hback := hs.toward x.other
  rw [Side.other_other] at hback
  rcases perform_sends hp with ⟨a, ack, rfl, rfl⟩ | ⟨hnone, hout, hseq⟩
  · -- the answer goes out
    have hack := (hs.toward x).due a ack (hpend ▸ mem_cons_self)
    obtain ⟨hnew, happend⟩ := hs.sent (x := x) rest
      (controlOut a typeHelloAck (.ofHelloAck ack) true) rfl rfl (.inr (by rw [hack]; rfl)) hfits
    refine ⟨hs.moved (s.set_band x _) (s.set_band_other x _) rfl hcfg hmember htoward hnew,
      .inr ?_⟩
    have hdue : (s.view addr).due x = ack.cipher :: rest.filterMap Effect.answers := by
      simp [Pair.view, Pair.due, hpend, Effect.answers]
    have hstep : Exchange.Step (choice cfg) knownCipher _ _ := .answer _ x _ _ hdue
    have hgreet : Inbound.greet (.opened (addr x) ((s.band x).transport.send
        (controlOut a typeHelloAck (.ofHelloAck ack) true)).2) = some (.ack ack.cipher) := rfl
    refine Eq.mpr (congrArg _ (Pair.view_set ?_ ?_ ?_ ?_ ?_ ?_)) hstep
    · simp [Pair.view, Pair.inbound, harr]
    · rw [happend]
      simp [Pair.view, hgreet]
    · simp [hpend']
    · simp [Pair.view]
    · exact hcipher.symm
    · simp [Pair.view]
  · refine ⟨hs.moved (s.set_band x _) (s.set_band_other x _) rfl hcfg hmember htoward
      (hback.same_sender hout hseq), .inl (Pair.view_set ?_ ?_ ?_ ?_ ?_ ?_)⟩
    · rw [harr]
      rfl
    · simp [Pair.view, Pair.inbound, arriving, hout]
    · simp [Pair.view, Pair.due, hpend, hpend', hnone]
    · rfl
    · exact hcipher.symm
    · simp [Pair.view]

/-- A HELLO is sent: a greeting of the exchange, and an orderly one. -/
theorem connects (hs : PairInv psk addr cfg s) (hok : Negotiates addr s (.connect x)) :
    PairInv psk addr cfg (s.set x ((s.band x).connectPeer (addr x.other))) ∧
      (s.view addr).Orderly (choice cfg) knownCipher x ∧
      (s.set x ((s.band x).connectPeer (addr x.other))).view addr = { s.view addr with
        inbox := Function.update (s.view addr).inbox x.other
          ((s.view addr).inbox x.other ++ [.hello]) } := by
  obtain ⟨hfits, horderly⟩ := hok
  have hcfg : (fun z => (s.band z).cfg) = cfg := funext hs.cfg_eq
  rw [Pair.Orderly, hcfg] at horderly
  have hhello : Handshakes (cfg x) (cfg x.other) (helloOf (s.band x).cfg) :=
    .inl (by rw [hs.cfg_eq])
  obtain ⟨hnew, happend⟩ := hs.sent (x := x) (s.band x).pending
    ((Message.hello (s.band x).cfg.hostname (s.band x).cfg.capabilities
      (s.band x).cfg.ciphers).outbound (s.band x).cfg.session (addr x.other)) rfl rfl hhello hfits
  have hmember : Member ((s.band x).connectPeer (addr x.other)) :=
    (hs.member x).step (e := .send (addr x.other) (.hello (s.band x).cfg.hostname
      (s.band x).cfg.capabilities (s.band x).cfg.ciphers)) rfl
  refine ⟨hs.moved (s.set_band x _) (s.set_band_other x _) rfl rfl hmember ?_ hnew, ?_,
    Pair.view_set ?_ ?_ rfl rfl rfl ?_⟩
  · exact (hs.toward x).receiver rfl rfl (hs.toward x).got_le (fun _ h => h) rfl
      (fun _ h => h.congr rfl rfl rfl rfl rfl)
  · refine ⟨fun hans => ?_, fun hans => ?_⟩
    · rw [if_pos (Pair.view_answered.mp hans)] at horderly
      exact if_pos horderly
    · rw [if_neg (mt Pair.view_answered.mpr hans)] at horderly
      exact horderly
  · simp only [ne_eq, Side.ne_other, not_false_eq_true, Function.update_of_ne]
    rfl
  · refine Eq.trans ?_ (congrArg (List.filterMap Inbound.greet) happend.symm)
    simp only [Function.update_self, filterMap_append]
    rfl
  · simp [Pair.view]

theorem tasked (hs : PairInv psk addr cfg s) {t : Task}
    (hok : Negotiates addr s (.task x t)) (h : s.step addr (.task x t) = some s') :
    PairInv psk addr cfg s' ∧ (s'.view addr = s.view addr ∨
      Exchange.Step (choice cfg) knownCipher (s.view addr) (s'.view addr)) := by
  obtain ⟨m, hm, rfl⟩ := map_eq_some_iff.mp h
  have hmember := (hs.member x).step hm
  have hgot := (hs.toward x).got_le
  cases t with
  | seen now =>
    cases step_happens hm with
    | seen hloop =>
      obtain ⟨hinv, hview⟩ := hs.carried (x := x) (Pair.set_band s x _)
        (Pair.set_band_other s x _) rfl hgot hmember rfl rfl rfl rfl rfl rfl rfl rfl rfl
        (by simp [Pair.inbound, arriving, hloop, RecvLoop.inHand])
      exact ⟨hinv, .inl hview⟩
  | dispatch =>
    cases step_happens hm with
    | @dispatch pkt hloop =>
      have hpkt : pkt ∈ arriving (addr x.other) (s.band x) (s.band x.other) (s.got x) := by
        simp [arriving, hloop, RecvLoop.inHand]
      have hctl := ((hs.toward x).packets pkt hpkt).2.1
      simp only [route, hctl] at hmember ⊢
      obtain ⟨hinv, hview⟩ := hs.carried (x := x) (Pair.set_band s x _)
        (Pair.set_band_other s x _) rfl hgot hmember rfl rfl rfl rfl rfl rfl rfl rfl rfl
        (by simp [Pair.inbound, arriving, hloop, RecvLoop.inHand])
      exact ⟨hinv, .inl hview⟩
  | control =>
    obtain ⟨hinv, hstep⟩ := hs.takes hm
    exact ⟨hinv, .inr hstep⟩
  | effect victim => exact hs.performs hok hm

/-- Whoever sends something but a HELLO owes an answer. -/
theorem step_outbox {mv : Move} (h : s.step addr mv = some s') :
    (∃ x, mv = .connect x) ∨ (∀ z, (s'.band z).outbox = (s.band z).outbox) ∨
      ∃ x, s.due x ≠ [] := by
  have hset : ∀ x m got, m.outbox = (s.band x).outbox →
      ∀ z, (({ s.set x m with got := got } : Pair).band z).outbox = (s.band z).outbox := by
    intro x m got hm z
    rcases Side.eq_or_eq_other x z with rfl | rfl
    · exact (congrArg Band.outbox (s.set_band z m)).trans hm
    · exact congrArg Band.outbox (s.set_band_other x m)
  cases mv with
  | connect x => exact .inl ⟨x, rfl⟩
  | deliver x =>
    obtain ⟨out, -, hrest⟩ := bind_eq_some_iff.mp h
    obtain ⟨m, hm, hs'⟩ := bind_eq_some_iff.mp hrest
    cases hs'
    refine .inr (.inl (hset x m _ ?_))
    cases step_happens hm <;> rfl
  | task x t =>
    obtain ⟨m, hm, rfl⟩ := map_eq_some_iff.mp h
    cases t with
    | seen now =>
      cases step_happens hm with
      | seen _ => exact .inr (.inl (hset x _ _ rfl))
    | dispatch =>
      cases step_happens hm with
      | dispatch _ =>
        refine .inr (.inl (hset x _ _ ?_))
        obtain ⟨_, _, _, _, hframe⟩ := route_frame _
        rw [hframe]
    | control =>
      obtain ⟨pkt, rest, -, -, rfl⟩ := step_control hm
      exact .inr (.inl (hset x _ _ rfl))
    | effect victim =>
      obtain ⟨effect, rest, hpend, hp⟩ := step_effect hm
      rcases perform_sends hp with ⟨a, ack, rfl, -⟩ | ⟨-, hout, -⟩
      · refine .inr (.inr ⟨x, ?_⟩)
        simp [Pair.due, hpend, Effect.answers]
      · exact .inr (.inl (hset x m _ hout))

end PairInv

/-- What every state of an orderly run has. -/
structure Agreeing (psk : Bytes) (addr : Side → SocketAddr) (cfg : Side → ControlConfig)
    (s : Pair) : Prop extends PairInv psk addr cfg s where
  exchange : Exchange.Inv (choice cfg) knownCipher (s.view addr)
  /-- Once something was sent, both sides will commit. -/
  greeted : (∃ z, (s.band z).outbox ≠ []) →
    ∀ z, (Exchange.final (choice cfg) knownCipher (s.view addr) z).isSome = true

namespace Agreeing

variable {psk : Bytes} {addr : Side → SocketAddr} {cfg : Side → ControlConfig} {s s' : Pair}
variable {mv : Move}

theorem greeted_step (hs : Agreeing psk addr cfg s) (h : s.step addr mv = some s')
    (hmv : ∀ x, mv ≠ .connect x)
    (hview : s'.view addr = s.view addr ∨
      Exchange.Step (choice cfg) knownCipher (s.view addr) (s'.view addr))
    (hsent : ∃ z, (s'.band z).outbox ≠ []) (z : Side) :
    (Exchange.final (choice cfg) knownCipher (s'.view addr) z).isSome = true := by
  have hbefore : (Exchange.final (choice cfg) knownCipher (s.view addr) z).isSome = true := by
    rcases PairInv.step_outbox h with ⟨x, rfl⟩ | hsame | ⟨x, hdue⟩
    · exact absurd rfl (hmv x)
    · obtain ⟨y, hy⟩ := hsent
      exact hs.greeted ⟨y, hsame y ▸ hy⟩ z
    · exact hs.exchange.final_isSome (x := x) hdue z
  rcases hview with hview | hstep
  · rw [hview]
    exact hbefore
  · rcases Exchange.final_step hs.exchange.toFaithful hstep with hsame | ⟨c, hc⟩
    · rw [hsame z]
      exact hbefore
    · rw [hc z]
      rfl

theorem step (hs : Agreeing psk addr cfg s) (hok : Negotiates addr s mv)
    (h : s.step addr mv = some s') : Agreeing psk addr cfg s' := by
  cases mv with
  | connect x =>
    cases h
    obtain ⟨hinv, horderly, hview⟩ := hs.toPairInv.connects hok
    refine ⟨hinv, ?_, fun _ z => ?_⟩ <;> rw [hview]
    · exact hs.exchange.step (.hello _ x horderly)
    · rw [Exchange.final_hello hs.exchange.toFaithful horderly z]
      rfl
  | deliver x =>
    obtain ⟨hinv, hview⟩ := hs.toPairInv.delivered h
    exact ⟨hinv, hview ▸ hs.exchange, hs.greeted_step h nofun (.inl hview)⟩
  | task x t =>
    obtain ⟨hinv, hview⟩ := hs.toPairInv.tasked hok h
    refine ⟨hinv, ?_, hs.greeted_step h nofun hview⟩
    rcases hview with hview | hstep
    · exact hview ▸ hs.exchange
    · exact hs.exchange.step hstep

theorem bind (psk : Bytes) (addr : Side → SocketAddr) (o : Side → Options) :
    Agreeing psk addr (fun x => ((o x).bind psk).cfg) (Pair.bind psk o) where
  cfg_eq := fun x => rfl
  psk_eq := fun x => rfl
  member := fun x => .bind
  toward := fun x => by
    refine ⟨?_, ?_, Nat.zero_le _, ?_, ?_, ?_, ?_⟩
    · exact fun _ h => absurd h.symm (Option.some_ne_none _)
    · exact pairwise_singleton _ _
    · exact fun pkt h => absurd h not_mem_nil
    · exact fun out h => absurd h not_mem_nil
    · exact fun a ack h => absurd h not_mem_nil
    · intro cipher h
      have hnone : (none : Option String) = some cipher := h
      cases hnone
  exchange := .start
  greeted := fun ⟨z, hz⟩ => absurd rfl hz

theorem run (hs : Agreeing psk addr cfg s) (h : GuardedRun (Pair.step addr) (Negotiates addr) s s') :
    Agreeing psk addr cfg s' :=
  h.invariant hs fun _ _ _ hs hok hstep => hs.step hok hstep

/-- In an idle state each side has committed, and registered keys accordingly. -/
theorem committed (hs : Agreeing psk addr cfg s) (hidle : s.Idle addr) (x : Side) :
    (s.band x).lastCipher (addr x.other) = (s.band x.other).lastCipher (addr x) ∧
      ∀ c, (s.band x).lastCipher (addr x.other) = some c →
        ((s.band x).peers.lookup (addr x.other)).map (·.cipher) = some c ∧
        (s.band x).transport.peerKeys.lookup (addr x.other) =
          some (deriveSessionKey psk c (cfg x.other).session, suiteFor c) ∧
        (s.band x).transport.sendKeys.lookup (addr x.other) =
          some (deriveSessionKey psk c (cfg x).session, suiteFor c) := by
  have hview : ∀ z, Exchange.final (choice cfg) knownCipher (s.view addr) z =
      (s.band z).lastCipher (addr z.other) := by
    refine Exchange.final_of_idle ?_ ?_
    · intro z
      simp [Pair.view, (hidle z).1]
    · intro z
      simp [Pair.view, Pair.due, (hidle z).2]
  refine ⟨?_, ?_⟩
  · have hmeet := hs.exchange.meet x
    rw [hview x, hview x.other, Side.other_other] at hmeet
    exact hmeet
  · intro c hc
    obtain ⟨hrecv, hsend, hregistry, -⟩ := (hs.toward x).settling c hc
    rw [(hidle x).2] at hrecv hsend hregistry
    have hpsk : (s.band x).cfg.psk = psk := by rw [hs.cfg_eq, hs.psk_eq]
    rw [hpsk] at hrecv hsend
    rw [hs.cfg_eq x] at hsend
    exact ⟨hregistry.of_nil, hrecv.of_nil, hsend.of_nil⟩

/-- A cipher that was committed is the baseline or on both lists. -/
theorem shared {o : Side → Options} (hs : Agreeing psk addr (fun x => ((o x).bind psk).cfg) s)
    {x : Side} {c : String} (hc : (s.band x).lastCipher (addr x.other) = some c) :
    c = baselineCipher ∨ ∀ z, c ∈ (o z).ciphers := by
  obtain ⟨y, hy⟩ := hs.exchange.committed x c hc
  have hchoice := selectCipher_mem (withBaseline (o y).ciphers) (withBaseline (o y.other).ciphers)
  have hmem : c = baselineCipher ∨ c ∈ withBaseline (o y).ciphers ∧
      c ∈ withBaseline (o y.other).ciphers := by
    rcases hy with rfl | rfl
    · exact hchoice
    · unfold knownCipher
      split
      · exact hchoice
      · exact .inl rfl
  rcases hmem with hbase | ⟨hown, hother⟩
  · exact .inl hbase
  · rcases mem_withBaseline hown with hbase | hown
    · exact .inl hbase
    · rcases mem_withBaseline hother with hbase | hother
      · exact .inl hbase
      · refine .inr fun z => ?_
        rcases Side.eq_or_eq_other y z with rfl | rfl
        · exact hown
        · exact hother

end Agreeing

/-- Two bands with one PSK connect to each other; nothing is lost or reordered.
In every run in which each HELLO selects a known suite and none crosses one
that selects another, once something was sent and nothing is on its way: both
have committed one cipher, the baseline or one of both lists, and what each
sends with is what the other expects. -/
theorem same_cipher_and_keys_of_idle {psk : Bytes} {addr : Side → SocketAddr} {o : Side → Options}
    {s : Pair} (h : GuardedRun (Pair.step addr) (Negotiates addr) (Pair.bind psk o) s)
    (hsent : ∃ x, (s.band x).outbox ≠ []) (hidle : s.Idle addr) :
    ∃ cipher, (cipher = baselineCipher ∨ ∀ x, cipher ∈ (o x).ciphers) ∧
      ∀ x, ((s.band x).peers.lookup (addr x.other)).map (·.cipher) = some cipher ∧
        ∃ key, (s.band x).transport.sendKeys.lookup (addr x.other) = some key ∧
          (s.band x.other).transport.peerKeys.lookup (addr x) = some key := by
  have hs := (Agreeing.bind psk addr o).run h
  have hsome := hs.greeted hsent .a
  rw [Exchange.final_of_idle (fun z => by simp [Pair.view, (hidle z).1])
    (fun z => by simp [Pair.view, Pair.due, (hidle z).2])] at hsome
  obtain ⟨c, hc⟩ := isSome_iff_exists.mp hsome
  have hall : ∀ x, (s.band x).lastCipher (addr x.other) = some c := by
    intro x
    rcases Side.eq_or_eq_other .a x with rfl | rfl
    · exact hc
    · exact (hs.committed hidle .a).1.symm.trans hc
  refine ⟨c, hs.shared hc, fun x => ?_⟩
  obtain ⟨hregistry, -, hsend⟩ := (hs.committed hidle x).2 c (hall x)
  obtain ⟨-, hrecv, -⟩ := (hs.committed hidle x.other).2 c (hall x.other)
  rw [Side.other_other] at hrecv
  exact ⟨hregistry, _, hsend, hrecv⟩

/-! ### Two bands that prefer different ciphers -/

def sideAddr : Side → SocketAddr
  | .a => ⟨1, 7000⟩
  | .b => ⟨2, 7000⟩

def sideOptions : Side → Options
  | .a => ⟨"a", 5, ["aes256-gcm"], [], 15, 10⟩
  | .b => ⟨"b", 3, [baselineCipher, "aes256-gcm"], [], 15, 70⟩

/-- The next packet for `x` arrives and is handled, in `n` effects. -/
def handled (x : Side) (n : Nat) : List Move :=
  [.deliver x, .task x (.seen 0), .task x .dispatch, .task x .control] ++
    List.replicate n (.task x (.effect ⟨0, 0⟩))

theorem same_cipher_and_keys_of_idle_in_turn : ∃ s,
    play (Pair.step sideAddr) (fun s mv => Negotiates sideAddr s mv) (Pair.bind [1] sideOptions)
      ((.connect .a :: handled .b 7 ++ handled .a 6 ++
        .connect .b :: handled .a 6 ++ handled .b 5).map fun mv _ => mv) = some s ∧
    ∃ cipher, (cipher = baselineCipher ∨ ∀ x, cipher ∈ (sideOptions x).ciphers) ∧
      ∀ x, ((s.band x).peers.lookup (sideAddr x.other)).map (·.cipher) = some cipher ∧
        ∃ key, (s.band x).transport.sendKeys.lookup (sideAddr x.other) = some key ∧
          (s.band x.other).transport.peerKeys.lookup (sideAddr x) = some key := by
  refine exists_some (fun s => (s.band .a).outbox ≠ [] ∧ s.Idle sideAddr) (by decide +kernel) ?_
  rintro s hs ⟨hsent, hidle⟩
  have hrun : GuardedRun (Pair.step sideAddr) (Negotiates sideAddr) _ s :=
    guardedRun_play (fun _ _ h => of_decide_eq_true h) hs
  exact same_cipher_and_keys_of_idle hrun ⟨.a, hsent⟩ hidle

/-- Two HELLOs cross. Each side commits what the other's HELLO selects, answers
with it, and then commits the answer to its own: the ciphers are exchanged. -/
theorem crossing_hellos_disagree : ∃ s,
    GuardedRun (Pair.step sideAddr) (fun _ _ => True) (Pair.bind [1] sideOptions) s ∧
      s.Idle sideAddr ∧
      ((s.band .a).peers.lookup (sideAddr .b)).map (·.cipher) = some "aes256-gcm" ∧
      ((s.band .b).peers.lookup (sideAddr .a)).map (·.cipher) = some "chacha20-poly1305" ∧
      (s.band .a).transport.sendKeys.lookup (sideAddr .b) ≠
        (s.band .b).transport.peerKeys.lookup (sideAddr .a) :=
  exists_guardedRun (fun _ _ => true) ((.connect .a :: .connect .b :: handled .b 7 ++
    handled .a 7 ++ handled .b 5 ++ handled .a 5).map fun mv _ => mv)
    (by decide +kernel) fun _ _ _ => trivial

end Telesthete.Band
