import Telesthete.Band.Steps

/-!
# Packets of band members

`SentIn psk wire session` says that a member of the band sealed `wire` while
running with that session epoch: a HELLO or HELLO_ACK that carries the epoch,
under the base key, or anything else under a session key of that epoch. The
network of the results about bands delivers such packets and no others, from
any address, in any order and any number of times; `Band.outbox_sentIn` is
why these are the packets bands send.

The epoch is a function of the packet, `epochOf`: a handshake carries it and
a session key names it.
-/

namespace Telesthete.Band

open Telesthete.Lib Telesthete.Crypto Telesthete.Wire

variable {psk : Bytes} {wire : Datagram} {session session' : UInt64}
variable {m m' : Band} {e : Event} {env : ControlEnvelope} {cfg : ControlConfig}

/-- The envelope of a HELLO or HELLO_ACK that carries an epoch. -/
inductive Handshake : ControlEnvelope → UInt64 → Prop
  | hello (h : Hello) : Handshake ⟨typeHello, .ofHello h⟩ h.session
  | helloAck (a : HelloAck) : Handshake ⟨typeHelloAck, .ofHelloAck a⟩ a.session

inductive SentIn (psk : Bytes) : Datagram → UInt64 → Prop
  | handshake {env : ControlEnvelope} {session : UInt64} (header : Header)
      (hctl : header.channelType = .control) (henv : Handshake env session) :
      SentIn psk (encodePacketSuite .chaCha20Poly1305 (deriveKey psk) header (.json env)) session
  | data (cipher : String) (session : UInt64) (header : Header) (payload : Payload)
      (hother : ∀ env, payload = .json env → env.isHandshake = false) :
      SentIn psk (encodePacketSuite (suiteFor cipher) (deriveSessionKey psk cipher session)
        header payload) session

/-- A packet some member sent. -/
def Genuine (psk : Bytes) (wire : Datagram) : Prop := ∃ session, SentIn psk wire session

/-- The network delivers genuine packets only. -/
def GenuineNet (m : Band) : Event → Prop
  | .recv _ wire => Genuine m.cfg.psk wire
  | _ => True

/-- Whether what is delivered is among the packets `sent` of the band. -/
def deliversFrom (psk : Bytes) (sent : List Datagram) (m : Band) : Event → Bool
  | .recv _ wire => m.cfg.psk = psk ∧ wire ∈ sent
  | _ => true

theorem genuineNet_of_deliversFrom {sent : List Datagram}
    (hsent : ∀ wire ∈ sent, Genuine psk wire)
    (h : deliversFrom psk sent m e = true) : GenuineNet m e := by
  cases e with
  | recv source wire =>
    obtain ⟨hpsk, hmem⟩ := of_decide_eq_true h
    show Genuine m.cfg.psk wire
    rw [hpsk]
    exact hsent wire hmem
  | _ => trivial

theorem Handshake.isHandshake (h : Handshake env session) :
    env.isHandshake = true := by
  cases h with
  | hello h => rfl
  | helloAck a => rfl

/-- A handshake always has a good body, and the body has its epoch. -/
theorem Handshake.greeting (h : Handshake env session) (cfg : ControlConfig) (source : SocketAddr) :
    ∃ g, env.greeting cfg source = some g ∧ g.session = session := by
  cases h with
  | hello h => exact ⟨.ofHello cfg source h, rfl, rfl⟩
  | helloAck a => exact ⟨.ofHelloAck source a, rfl, rfl⟩

theorem ControlEnvelope.epoch_greeting
    {source : SocketAddr} {g : Greeting} (h : env.greeting cfg source = some g) :
    env.epoch = g.session := by
  unfold greeting at h
  unfold epoch
  split at h
  · rename_i htype
    obtain ⟨b, hb, rfl⟩ := Option.map_eq_some_iff.mp h
    rw [if_pos htype, hb]
    rfl
  · rename_i htype
    obtain ⟨b, hb, rfl⟩ := Option.map_eq_some_iff.mp h
    rw [if_neg htype, hb]
    rfl

/-- The epoch its sender ran with. -/
def epochOf (wire : Datagram) : UInt64 :=
  match wire.ciphertext.plaintext with
  | .json env => if env.isHandshake then env.epoch else wire.ciphertext.key.epoch
  | .bytes _ => wire.ciphertext.key.epoch

namespace SentIn

/-- The two kinds of packets, told apart by the key they were sealed with. -/
theorem cases_key (h : SentIn psk wire session) :
    (wire.ciphertext.key = deriveKey psk ∧ wire.header.channelType = .control ∧
      ∃ env, wire.ciphertext.plaintext = .json env ∧ Handshake env session) ∨
    (∃ cipher, wire.ciphertext.key = deriveSessionKey psk cipher session) ∧
      ∀ env, wire.ciphertext.plaintext = .json env → env.isHandshake = false := by
  cases h with
  | handshake header hctl henv => exact .inl ⟨rfl, hctl, _, rfl, henv⟩
  | data cipher _ header payload hother => exact .inr ⟨⟨cipher, rfl⟩, hother⟩

theorem epochOf_eq (h : SentIn psk wire session) : epochOf wire = session := by
  cases h with
  | @handshake env _ header hctl henv =>
    obtain ⟨g, hg, rfl⟩ := henv.greeting ⟨[], 0, "", [], []⟩ ⟨0, 0⟩
    have hepoch : epochOf (encodePacketSuite .chaCha20Poly1305 (deriveKey psk) header
        (.json env)) = if env.isHandshake then env.epoch else (deriveKey psk).epoch := rfl
    rw [hepoch, if_pos henv.isHandshake, ControlEnvelope.epoch_greeting hg]
  | data cipher _ header payload hother =>
    cases payload with
    | json env =>
      have hepoch : epochOf (encodePacketSuite (suiteFor cipher)
          (deriveSessionKey psk cipher session) header (.json env)) =
          if env.isHandshake then env.epoch
          else (deriveSessionKey psk cipher session).epoch := rfl
      rw [hepoch, if_neg (by simp [hother env rfl]), epoch_deriveSessionKey]
    | bytes bs => exact epoch_deriveSessionKey psk cipher session

end SentIn

/-! ### Bands send genuine packets -/

/-- The keys an effect registers are session keys, ours when they are to send
with, and an answer carries our epoch. -/
def Effect.Keyed (cfg : ControlConfig) : Effect → Prop
  | .registerPeerKey _ key suite =>
    ∃ cipher session, key = deriveSessionKey cfg.psk cipher session ∧ suite = suiteFor cipher
  | .registerSendKey _ key suite =>
    ∃ cipher, key = deriveSessionKey cfg.psk cipher cfg.session ∧ suite = suiteFor cipher
  | .sendHelloAck _ ack => ack.session = cfg.session
  | _ => True

theorem ControlTask.handle_keyed {live : SocketAddr → Bool} {t : ControlTask} {pkt : Inbound} :
    ∀ effect ∈ (t.handle cfg live pkt).2, effect.Keyed cfg := by
  refine (handle_handled cfg live t pkt).forall_effects trivial (fun g => ?_) trivial
    (fun _ _ => trivial) fun _ => trivial
  exact Greeting.forall_welcome ⟨_, _, rfl, rfl⟩ ⟨_, rfl, rfl⟩ trivial trivial (fun _ => rfl) trivial

/-- The key tables of a band, and what it has sent. -/
structure Member (m : Band) : Prop where
  baseKey : m.transport.baseKey = deriveKey m.cfg.psk
  bandId : m.transport.bandId = deriveBandId m.cfg.psk
  sessionKey : m.transport.sessionKey = deriveSessionKey m.cfg.psk baselineCipher m.cfg.session
  peerKeys : ∀ addr key suite, m.transport.peerKeys.lookup addr = some (key, suite) →
    ∃ cipher session, key = deriveSessionKey m.cfg.psk cipher session ∧ suite = suiteFor cipher
  sendKeys : ∀ addr key suite, m.transport.sendKeys.lookup addr = some (key, suite) →
    ∃ cipher, key = deriveSessionKey m.cfg.psk cipher m.cfg.session ∧ suite = suiteFor cipher
  pending : ∀ effect ∈ m.pending, effect.Keyed m.cfg
  outbox : ∀ out ∈ m.outbox, SentIn m.cfg.psk out.2 m.cfg.session

namespace Member

variable {m m' : Band}
variable {out : Outbound}

theorem sentIn_handshake (hm : Member m) {env : ControlEnvelope}
    (hbase : out.useBaseKey = true) (hctl : out.channelType = .control)
    (hplain : out.plaintext = .json env) (henv : Handshake env m.cfg.session) :
    SentIn m.cfg.psk (m.transport.send out).2 m.cfg.session := by
  have hsend : (m.transport.send out).2 =
      encodePacketSuite .chaCha20Poly1305 (deriveKey m.cfg.psk)
        ⟨m.transport.bandId, out.channelType, out.channelId, m.transport.seq⟩ (.json env) := by
    rw [Transport.send, Transport.sealingKey, if_pos hbase, hm.baseKey, hplain]
  rw [hsend]
  exact .handshake _ hctl henv

theorem sentIn_data (hm : Member m) (hbase : out.useBaseKey = false)
    (hother : ∀ env, out.plaintext = .json env → env.isHandshake = false) :
    SentIn m.cfg.psk (m.transport.send out).2 m.cfg.session := by
  have hkey : ∃ cipher, m.transport.sealingKey out =
      (deriveSessionKey m.cfg.psk cipher m.cfg.session, suiteFor cipher) := by
    rw [Transport.sealingKey, if_neg (by simp [hbase])]
    cases hlookup : m.transport.sendKeys.lookup out.dest with
    | none => exact ⟨baselineCipher, by rw [Option.getD_none, hm.sessionKey]; rfl⟩
    | some key =>
      obtain ⟨cipher, hk, hs⟩ := hm.sendKeys out.dest key.1 key.2 hlookup
      exact ⟨cipher, Prod.ext hk hs⟩
  obtain ⟨cipher, hkey⟩ := hkey
  rw [Transport.send, hkey]
  exact .data cipher _ _ _ hother

theorem sentIn_send (hm : Member m) (dest : SocketAddr) (msg : Message) :
    SentIn m.cfg.psk (m.transport.send (msg.outbound m.cfg.session dest)).2 m.cfg.session := by
  cases msg with
  | hello hostname capabilities ciphers =>
    exact hm.sentIn_handshake rfl rfl rfl (.hello ⟨hostname, capabilities, ciphers, _⟩)
  | helloAck hostname capabilities ciphers cipher =>
    exact hm.sentIn_handshake rfl rfl rfl (.helloAck ⟨hostname, capabilities, ciphers, cipher, _⟩)
  | keepalive | goodbye | keyframeReq k | rateHint r =>
    refine hm.sentIn_data rfl ?_
    rintro env h
    obtain rfl := Payload.json.inj h
    rfl
  | stream id priority data | channel id data | board id data | drop id data =>
    exact hm.sentIn_data rfl nofun

/-- An effect keeps the tables keyed and sends nothing but an answer. -/
theorem perform (hm : Member m) {victim : SocketAddr} {effect : Effect}
    (hkeyed : effect.Keyed m.cfg) (h : m.perform victim effect = some m') : Member m' := by
  cases effect with
  | registerPeerKey addr key suite =>
    cases h
    refine { hm with peerKeys := ?_ }
    intro a k s hk
    rw [Transport.registerPeerKey, lookup_insert_ite] at hk
    split at hk
    · obtain ⟨rfl, rfl⟩ := Prod.mk.inj (Option.some.inj hk)
      exact hkeyed
    · exact hm.peerKeys a k s hk
  | registerSendKey addr key suite =>
    cases h
    refine { hm with sendKeys := ?_ }
    intro a k s hk
    rw [Transport.registerSendKey, lookup_insert_ite] at hk
    split at hk
    · obtain ⟨rfl, rfl⟩ := Prod.mk.inj (Option.some.inj hk)
      exact hkeyed
    · exact hm.sendKeys a k s hk
  | makeRoom addr =>
    obtain ⟨peers, rfl⟩ := Band.perform_makeRoom h
    exact { hm with }
  | sendHelloAck addr ack =>
    cases h
    have hack : Handshake ⟨typeHelloAck, .ofHelloAck ack⟩ m.cfg.session :=
      (show ack.session = m.cfg.session from hkeyed) ▸ .helloAck ack
    exact { hm with outbox := forall_mem_snoc hm.outbox (hm.sentIn_handshake rfl rfl rfl hack) }
  | forget op =>
    cases h
    obtain ⟨hb, hs, hid, hp, hsend⟩ := Transport.sub_forget (t := m.transport) op
    exact { hm with
      baseKey := hb.trans hm.baseKey
      bandId := hid.trans hm.bandId
      sessionKey := hs.trans hm.sessionKey
      peerKeys := fun a k s hk => hm.peerKeys a k s (hp a _ hk)
      sendKeys := fun a k s hk => hm.sendKeys a k s (hsend a _ hk) }
  | _ =>
    cases h
    exact { hm with }

theorem step {e : Event} (hm : Member m) (h : m.step e = some m') : Member m' := by
  rcases step_cases h with ⟨pkt, rest, -, -, -, rfl⟩ | ⟨victim, effect, rest, -, hpend, hp⟩ | hq
  · exact { hm with pending := ControlTask.handle_keyed }
  · have hrest : Member { m with pending := rest } :=
      { hm with pending := fun effect' h => hm.pending effect' (hpend ▸ List.mem_cons_of_mem _ h) }
    exact hrest.perform (hm.pending effect (hpend ▸ List.mem_cons_self)) hp
  · have ht := hq.sub
    obtain ⟨hcfg, -, hpend, -, -, -, hout⟩ := hq
    refine ⟨?_, ?_, ?_, ?_, ?_, ?_, ?_⟩
    · rw [ht.baseKey, hcfg, hm.baseKey]
    · rw [ht.bandId, hcfg, hm.bandId]
    · rw [ht.sessionKey, hcfg, hm.sessionKey]
    · intro a k s hk
      rw [hcfg]
      exact hm.peerKeys a k s (ht.peerKeys a _ hk)
    · intro a k s hk
      rw [hcfg]
      exact hm.sendKeys a k s (ht.sendKeys a _ hk)
    · rw [hpend, hcfg]
      exact hm.pending
    · rw [hcfg]
      intro out ho
      rcases hout out ho with hold | ⟨dest, msg, rfl⟩
      · exact hm.outbox out hold
      · exact hm.sentIn_send dest msg

theorem bind {psk : Bytes} {hostname : String} {session : UInt64}
    {ciphers capabilities : List String} {deadAfter seq : Nat} :
    Member (bindWithOptions psk hostname session ciphers capabilities deadAfter seq) where
  baseKey := rfl
  bandId := rfl
  sessionKey := rfl
  peerKeys := fun _ _ _ h => absurd h.symm (Option.some_ne_none _)
  sendKeys := fun _ _ _ h => absurd h.symm (Option.some_ne_none _)
  pending := fun _ h => absurd h List.not_mem_nil
  outbox := fun _ h => absurd h List.not_mem_nil

/-- A band stays one, whatever happens to it. -/
theorem run {ok : Band → Event → Prop} (hm : Member m) (h : GuardedRun Band.step ok m m') :
    Member m' :=
  h.invariant hm fun _ _ _ hm _ hstep => hm.step hstep

end Member

/-! ### What is in a band's queues came from genuine packets -/

/-- Decoded from a genuine packet. -/
structure Inbound.Arrived (psk : Bytes) (pkt : Inbound) : Prop where
  genuine : Genuine psk pkt.wire
  header : pkt.header = pkt.wire.header
  payload : pkt.payload = pkt.wire.ciphertext.plaintext

structure Arrivals (m : Band) : Prop where
  transit : ∀ pkt ∈ m.inTransit, pkt.Arrived m.cfg.psk
  control : ∀ pkt ∈ m.controlQueue, pkt.Arrived m.cfg.psk

theorem Arrivals.step (hm : Arrivals m) (hnet : GenuineNet m e)
    (h : m.step e = some m') : Arrivals m' := by
  have hcfg := step_cfg h
  refine ⟨?_, ?_⟩ <;> rw [hcfg]
  · intro pkt hpkt
    rcases step_inTransit h hpkt with hold | ⟨source, wire, rfl, hdec⟩
    · exact hm.transit pkt hold
    · obtain ⟨rfl, -⟩ := Transport.decode_eq_some hdec
      exact ⟨hnet, rfl, rfl⟩
  · intro pkt hpkt
    rcases step_controlQueue h hpkt with hold | htransit
    · exact hm.control pkt hold
    · exact hm.transit pkt htransit

theorem Arrivals.bind {psk : Bytes} {hostname : String} {session : UInt64}
    {ciphers capabilities : List String} {deadAfter seq : Nat} :
    Arrivals (bindWithOptions psk hostname session ciphers capabilities deadAfter seq) :=
  ⟨fun _ h => absurd h List.not_mem_nil, fun _ h => absurd h List.not_mem_nil⟩

theorem Arrivals.run {ok : Band → Event → Prop} (hok : ∀ m e, ok m e → GenuineNet m e)
    (hm : Arrivals m) (h : GuardedRun Band.step ok m m') : Arrivals m' :=
  h.invariant hm fun m e _ hm he hstep => hm.step (hok m e he) hstep

end Telesthete.Band
