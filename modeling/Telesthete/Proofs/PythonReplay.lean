import Telesthete.Lib.SessionLog
import Telesthete.Proofs.ControlReplay
import Telesthete.Python.Band

/-!
# What a Python band accepts

Per address, the control channel remembers the newest epoch a handshake had,
and keeps it when the peer is removed. A newer one resets the watermark of the
address in the control channel and in every open endpoint, and before the next
packet is looked at the data key of the address is that of the newer epoch. So
each of them accepts packets in order of epoch and sequence, which is what
`SessionLog.Guarded` needs.
-/

namespace Telesthete.Python

open Telesthete.Lib Telesthete.Crypto Telesthete.Wire Telesthete.Band Option

instance isStrictOrderUInt64 : IsStrictOrder UInt64 (· < ·) where
  irrefl := UInt64.lt_irrefl
  trans _ _ _ := UInt64.lt_trans

/-- The epoch of the peer at an address. -/
def Band.epoch (b : Band) (addr : SocketAddr) : Option UInt64 :=
  (b.peers.lookup addr).bind (·.sessionEpoch)

/-- The epoch of the key `recv_crypto` uses for an address. -/
def Band.recvEpoch (b : Band) (addr : SocketAddr) : Option UInt64 :=
  match b.recvCrypto addr with
  | .ok (some c) => some c.key.epoch
  | _ => none

/-- The log of a receiver that accepts by session and sequence. -/
abbrev Accepts (sessions : AList fun _ : SocketAddr => UInt64)
    (marks : AList fun _ : SocketAddr => Nat) (accepted : List (SocketAddr × Datagram)) : Prop :=
  SessionLog.Guarded epochOf (·.header.sequence) sessions marks accepted

namespace Band

variable {b b' b'' : Band} {addr : SocketAddr} {wire : Datagram}
variable {env : ControlEnvelope} {now : Nat} {victim : SocketAddr}
variable {c : BandCrypto}

theorem recvCrypto_eq_ok (h : b.recvCrypto addr = .ok (some c)) :
    ∃ e, b.epoch addr = some e ∧ c.key = deriveSessionKey b.psk (b.peerCipher addr) e := by
  unfold recvCrypto at h
  split at h
  · cases Except.ok.inj h
  · rename_i e hepoch
    split at h
    · cases h
    · rename_i c' hnew
      obtain rfl := Option.some.inj (Except.ok.inj h)
      refine ⟨e, hepoch, ?_⟩
      unfold BandCrypto.new at hnew
      split at hnew
      · cases hnew
      · rw [← Except.ok.inj hnew]

theorem epoch_of_recvEpoch {e : UInt64} (h : b.recvEpoch addr = some e) :
    b.epoch addr = some e := by
  unfold recvEpoch at h
  split at h
  · rename_i c hcrypto
    obtain ⟨e', hepoch, hkey⟩ := recvCrypto_eq_ok hcrypto
    rw [hkey, epoch_deriveSessionKey] at h
    rw [hepoch, h]
  · cases h

/-- A genuine packet that the data key of its address opens is of its epoch. -/
theorem epoch_of_key (hgenuine : Genuine b.psk wire)
    (hcrypto : b.recvCrypto addr = .ok (some c)) (hkey : wire.ciphertext.key = c.key) :
    b.epoch addr = some (epochOf wire) ∧
      ∀ env, wire.ciphertext.plaintext = .json env → env.isHandshake = false := by
  obtain ⟨e, hepoch, hc⟩ := recvCrypto_eq_ok hcrypto
  obtain ⟨session, hsent⟩ := hgenuine
  rcases hsent.cases_key with ⟨hbase, -, -⟩ | ⟨⟨cipher, hcipher⟩, hother⟩
  · rw [hkey, hc] at hbase
    exact absurd hbase deriveSessionKey_ne_deriveKey
  · rw [hkey, hc] at hcipher
    obtain ⟨-, -, rfl⟩ := deriveSessionKey_inj hcipher
    rw [hsent.epochOf_eq]
    exact ⟨hepoch, hother⟩

/-- Nothing changes that bears on what is accepted next, up to peers that are
gone and endpoints that are new. -/
structure Same (b b' : Band) : Prop where
  psk : b'.psk = b.psk
  sessions : b'.control.peerSession = b.control.peerSession
  marks : b'.control.recvWatermark = b.control.recvWatermark
  accepted : b'.control.accepted = b.control.accepted
  epochs : ∀ addr e, b'.epoch addr = some e → b.epoch addr = some e
  objects : ∀ o' ∈ b'.objects, o'.accepted = [] ∨
    ∃ o ∈ b.objects, o'.recvWatermark = o.recvWatermark ∧ o'.accepted = o.accepted

namespace Same

variable {hostname : String}

theorem of_eq (hpsk : b'.psk = b.psk) (hcontrol : b'.control = b.control)
    (hpeers : b'.peers = b.peers) (hobjects : b'.objects = b.objects) : Same b b' where
  psk := hpsk
  sessions := by rw [hcontrol]
  marks := by rw [hcontrol]
  accepted := by rw [hcontrol]
  epochs addr e h := by rwa [epoch, hpeers] at h
  objects o' h := .inr ⟨o', hobjects ▸ h, rfl, rfl⟩

theorem refl : Same b b := .of_eq rfl rfl rfl rfl

theorem trans (h : Same b b') (h' : Same b' b'') : Same b b'' where
  psk := h'.psk.trans h.psk
  sessions := h'.sessions.trans h.sessions
  marks := h'.marks.trans h.marks
  accepted := h'.accepted.trans h.accepted
  epochs addr e he := h.epochs addr e (h'.epochs addr e he)
  objects o'' ho'' := by
    rcases h'.objects o'' ho'' with hnew | ⟨o', ho', hmarks', hacc'⟩
    · exact .inl hnew
    · rw [hmarks', hacc']
      exact h.objects o' ho'

theorem touch (now : Nat) : Same b (b.touch addr now) := by
  unfold Band.touch
  split
  · exact .refl
  · rename_i peer hpeer
    refine ⟨rfl, rfl, rfl, rfl, fun a e h => ?_, fun o' h => .inr ⟨o', h, rfl, rfl⟩⟩
    rw [epoch, lookup_insert_ite] at h
    rw [epoch]
    split at h
    · rename_i ha
      rw [ha, hpeer]
      exact h
    · exact h

theorem removePeer : Same b (b.removePeer addr) := by
  unfold Band.removePeer
  split
  · refine ⟨rfl, rfl, rfl, rfl, fun a e h => ?_, fun o' ho' => .inr ?_⟩
    · rw [epoch, lookup_erase_ite] at h
      split at h
      · cases h
      · exact h
    · obtain ⟨o, ho, rfl⟩ := List.mem_map.mp ho'
      refine ⟨o, ho, ?_⟩
      split <;> exact ⟨rfl, rfl⟩
  · exact .refl

theorem addPeer : Same b (b.addPeer addr hostname now) := by
  refine ⟨rfl, rfl, rfl, rfl, fun a e h => ?_, fun o' ho' => .inr ?_⟩
  · rw [epoch, Band.addPeer, lookup_insert_ite] at h
    split at h
    · cases h
    · exact h
  · obtain ⟨o, ho, rfl⟩ := List.mem_map.mp ho'
    refine ⟨o, ho, ?_⟩
    unfold Endpoint.addDestination
    split
    · split <;> exact ⟨rfl, rfl⟩
    · exact ⟨rfl, rfl⟩

theorem ensurePeer (h : b.ensurePeer addr hostname now victim = some b') : Same b b' := by
  unfold Band.ensurePeer at h
  split at h
  · cases h
    exact .refl
  · split at h
    · obtain ⟨-, hroom⟩ := ite_none_right_eq_some.mp h
      cases hroom
      exact removePeer.trans addPeer
    · cases h
      exact addPeer

theorem sendMessage (env : ControlEnvelope) (dest : Option SocketAddr) (baseline : Bool) :
    Same b (b.sendMessage env dest baseline).1 := .of_eq rfl rfl rfl rfl

theorem advertise (capability : String) : Same b (b.advertise capability) := by
  unfold Band.advertise
  split
  · exact .refl
  · exact .of_eq rfl rfl rfl rfl

/-- A new endpoint has accepted nothing. -/
theorem opened {o : Endpoint} (ho : o.accepted = []) (hpsk : b'.psk = b.psk)
    (hcontrol : b'.control = b.control) (hpeers : b'.peers = b.peers)
    (hobjects : b'.objects = b.objects ++ [o]) : Same b b' where
  psk := hpsk
  sessions := by rw [hcontrol]
  marks := by rw [hcontrol]
  accepted := by rw [hcontrol]
  epochs addr e h := by rwa [epoch, hpeers] at h
  objects := by
    rw [hobjects]
    exact forall_mem_snoc (fun o' h => .inr ⟨o', h, rfl, rfl⟩) (.inl ho)

theorem openStream (streamId : Option Nat) : Same b (b.openStream streamId) := by
  unfold Band.openStream
  dsimp only
  have hnext : Same b (if streamId.isNone then { b with nextStreamId := b.nextStreamId + 1 }
      else b) := by
    split <;> exact .of_eq rfl rfl rfl rfl
  generalize (if streamId.isNone then { b with nextStreamId := b.nextStreamId + 1 } else b) = c
    at hnext ⊢
  split
  · exact hnext
  · exact hnext.trans (.opened rfl rfl rfl rfl rfl)

theorem openChannel (channelId : Nat) (peerAddr : SocketAddr) :
    Same b (b.openChannel channelId peerAddr) := by
  unfold Band.openChannel
  split
  · exact .refl
  · exact .opened rfl rfl rfl rfl rfl

theorem openBoard (boardId : Nat) : Same b (b.openBoard boardId) := by
  unfold Band.openBoard
  split
  · exact .refl
  · refine Same.trans ?_ (advertise _)
    exact .opened rfl rfl rfl rfl rfl

theorem openDrop (dropId : Nat) : Same b (b.openDrop dropId) := by
  unfold Band.openDrop
  refine Same.trans ?_ (advertise _)
  exact .opened rfl rfl rfl rfl rfl

theorem sendKeepalive (now : Nat) : Same b (b.sendKeepalive now).1 := by
  unfold Band.sendKeepalive
  split
  · dsimp only
    split <;> exact ⟨rfl, rfl, rfl, rfl, fun _ _ h => h, fun o' h => .inr ⟨o', h, rfl, rfl⟩⟩
  · exact .refl

theorem foldl_removePeer (entries : List (Sigma fun _ : SocketAddr => Peer)) :
    Same b (entries.foldl (fun b entry => b.removePeer entry.1) b) := by
  induction entries generalizing b with
  | nil => exact .refl
  | cons entry rest ih => exact removePeer.trans ih

theorem keepaliveRound (now : Nat) : Same b (b.keepaliveRound now) := by
  unfold Band.keepaliveRound
  dsimp only
  split
  · exact (sendKeepalive now).trans (foldl_removePeer _)
  · exact sendKeepalive now

end Same

/-- The logs of the control channel and of all endpoint objects. -/
structure Logs (b : Band) : Prop where
  control : Accepts b.control.peerSession b.control.recvWatermark b.control.accepted
  objects : ∀ o ∈ b.objects, Accepts b.control.peerSession o.recvWatermark o.accepted

theorem Logs.same (hb : Logs b) (h : Same b b') : Logs b' := by
  refine ⟨?_, fun o' ho' => ?_⟩
  · rw [h.sessions, h.marks, h.accepted]
    exact hb.control
  · rw [h.sessions]
    rcases h.objects o' ho' with hnew | ⟨o, ho, hmarks, hacc⟩
    · rw [hnew]
      exact .nil
    · rw [hmarks, hacc]
      exact hb.objects o ho

/-- What holds between packets: a peer's epoch is the one the control channel
has for its address. -/
structure ReplayInv (b : Band) : Prop where
  logs : Logs b
  epochs : ∀ addr e, b.epoch addr = some e → b.control.peerSession.lookup addr = some e

theorem ReplayInv.same (hb : ReplayInv b) (h : Same b b') : ReplayInv b' := by
  refine ⟨hb.logs.same h, fun addr e he => ?_⟩
  rw [h.sessions]
  exact hb.epochs addr e (h.epochs addr e he)

/-- What holds while a handshake is being handled: the peer's own epoch may
still be an older one. -/
structure Committing (addr : SocketAddr) (session : UInt64) (b : Band) : Prop where
  logs : Logs b
  committed : b.control.peerSession.lookup addr = some session
  others : ∀ a e, a ≠ addr → b.epoch a = some e → b.control.peerSession.lookup a = some e
  below : ∀ e, b.epoch addr = some e → e ≤ session

theorem commitPeer_control (capabilities : List String) (cipher : String) (session : UInt64)
    (now : Nat) : (b.commitPeer addr capabilities cipher session now).control = b.control := by
  unfold commitPeer
  split <;> rfl

namespace Committing

variable {session : UInt64}
variable {payload : Value}

theorem same (hb : Committing addr session b) (h : Same b b') : Committing addr session b' := by
  refine ⟨hb.logs.same h, ?_, fun a e ha he => ?_, fun e he => hb.below e (h.epochs addr e he)⟩
  · rw [h.sessions]
    exact hb.committed
  · rw [h.sessions]
    exact hb.others a e ha (h.epochs a e he)

theorem not_stale (hb : Committing addr session b) : b.isStaleEpoch addr session = false := by
  unfold isStaleEpoch
  cases hepoch : (b.peers.lookup addr).bind (·.sessionEpoch) with
  | none => rfl
  | some e => exact decide_eq_false (UInt64.not_lt.mpr (hb.below e hepoch))

theorem commit (hb : Committing addr session b) (capabilities : List String) (cipher : String)
    (now : Nat) : ReplayInv (b.commitPeer addr capabilities cipher session now) := by
  unfold commitPeer
  split
  · rename_i hnone
    refine ⟨hb.logs, fun a e he => ?_⟩
    by_cases ha : a = addr
    · subst ha
      rw [epoch, hnone] at he
      cases he
    · exact hb.others a e ha he
  · rename_i peer hpeer
    refine ⟨⟨hb.logs.control, hb.logs.objects⟩, fun a e he => ?_⟩
    rw [epoch, lookup_insert_ite] at he
    split at he
    · rename_i ha
      rw [ha, ← he]
      exact hb.committed
    · rename_i ha
      exact hb.others a e ha he

theorem onHello
    (hb : Committing addr session b) (hsession : (readHello addr payload).session = session)
    (h : b.onHello addr payload now victim = some b') :
    ReplayInv b' ∧ b'.control.peerSession = b.control.peerSession := by
  obtain ⟨c, hc, rfl⟩ := map_eq_some_iff.mp h
  have hsame := Same.ensurePeer hc
  have hcommitting := hb.same hsame
  rw [hsession, hcommitting.not_stale]
  have hcommit := hcommitting.commit (readHello addr payload).capabilities
    (selectCipher (readHello addr payload).ciphers b.ciphers) now
  refine ⟨hcommit.same (.sendMessage _ _ _), ?_⟩
  rw [← hsame.sessions]
  show (c.commitPeer addr _ _ session now).control.peerSession = _
  rw [commitPeer_control]

theorem onHelloAck
    (hb : Committing addr session b) (hsession : (readHelloAck addr payload).session = session)
    (h : b.onHelloAck addr payload now victim = some b') :
    ReplayInv b' ∧ b'.control.peerSession = b.control.peerSession := by
  obtain ⟨c, hc, rfl⟩ := map_eq_some_iff.mp h
  have hsame := Same.ensurePeer hc
  have hcommitting := hb.same hsame
  rw [hsession, hcommitting.not_stale]
  refine ⟨hcommitting.commit _ _ now, ?_⟩
  rw [← hsame.sessions]
  show (c.commitPeer addr _ _ session now).control.peerSession = _
  rw [commitPeer_control]

end Committing

/-- A message that is no handshake. -/
theorem Same.dispatch
    (hhand : env.isHandshake = false) (h : b.dispatch addr env now victim = some b') :
    Same b b' := by
  have hne : ¬ (env.type = typeHello ∨ env.type = typeHelloAck) := of_decide_eq_false hhand
  rw [not_or] at hne
  rw [Band.dispatch, if_neg hne.1, if_neg hne.2] at h
  split at h
  · cases h
    exact .touch now
  · split at h <;> cases h
    · exact .removePeer
    · exact .refl

/-- A handshake whose epoch the control channel has. -/
theorem Committing.dispatch (hb : Committing addr env.epoch b) (hhand : env.isHandshake = true)
    (h : b.dispatch addr env now victim = some b') :
    ReplayInv b' ∧ b'.control.peerSession = b.control.peerSession := by
  unfold Band.dispatch at h
  split at h
  · rename_i htype
    refine hb.onHello ?_ h
    rw [readHello, ControlEnvelope.epoch, if_pos htype]
    cases env.payload.hello <;> rfl
  · rename_i htype
    have hack : env.type = typeHelloAck := (of_decide_eq_true hhand).resolve_left htype
    rw [if_pos hack] at h
    refine hb.onHelloAck ?_ h
    rw [readHelloAck, ControlEnvelope.epoch, if_neg htype]
    cases env.payload.helloAck <;> rfl

/-- No epoch the control channel has goes away or back. -/
def SessionsGrow (b b' : Band) : Prop :=
  ∀ addr s, b.control.peerSession.lookup addr = some s →
    ∃ s', b'.control.peerSession.lookup addr = some s' ∧ s ≤ s'

theorem SessionsGrow.of_eq (h : b'.control.peerSession = b.control.peerSession) :
    SessionsGrow b b' := by
  intro addr s hs
  rw [h]
  exact ⟨s, hs, UInt64.le_refl s⟩

theorem onNewSession_objects {o' : Endpoint} (ho' : o' ∈ (b.onNewSession addr).objects) :
    ∃ o ∈ b.objects, o'.accepted = o.accepted ∧
      ∀ a, a ≠ addr → o'.recvWatermark.lookup a = o.recvWatermark.lookup a := by
  obtain ⟨i, hi, rfl⟩ := List.mem_mapIdx.mp ho'
  refine ⟨b.objects[i], List.getElem_mem hi, ?_⟩
  split
  · exact ⟨rfl, fun a ha => AList.lookup_erase_ne ha⟩
  · exact ⟨rfl, fun _ _ => rfl⟩

/-- The first packet of a newer session. -/
theorem ReplayInv.startSession (hb : ReplayInv b)
    (hnewer : ∀ t, b.control.peerSession.lookup addr = some t → t < epochOf wire) :
    Committing addr (epochOf wire) (b.startSession addr wire (epochOf wire)) := by
  refine ⟨⟨hb.logs.control.start hnewer, fun o' ho' => ?_⟩, AList.lookup_insert _,
    fun a e ha he => ?_, fun e he => ?_⟩
  · obtain ⟨o, ho, hacc, hmarks⟩ := onNewSession_objects ho'
    rw [hacc]
    exact (hb.logs.objects o ho).restart hnewer hmarks
  · exact (AList.lookup_insert_ne ha).trans (hb.epochs a e he)
  · exact UInt64.le_of_lt (hnewer e (hb.epochs addr e he))

theorem sessionsGrow_startSession
    (hnewer : ∀ t, b.control.peerSession.lookup addr = some t → t < epochOf wire) :
    SessionsGrow b (b.startSession addr wire (epochOf wire)) := by
  intro a s hs
  by_cases ha : a = addr
  · subst ha
    exact ⟨epochOf wire, AList.lookup_insert _, UInt64.le_of_lt (hnewer s hs)⟩
  · exact ⟨s, (AList.lookup_insert_ne ha).trans hs, UInt64.le_refl s⟩

/-- A packet of the current session that the watermark lets pass. -/
theorem ReplayInv.acceptControl {marks : AList fun _ : SocketAddr => Nat} (hb : ReplayInv b)
    (hsession : b.control.peerSession.lookup addr = some (epochOf wire))
    (hraise : HighWater.raise b.control.recvWatermark addr wire.header.sequence = some marks) :
    ReplayInv (b.acceptControl addr wire marks) :=
  ⟨⟨hb.logs.control.raise hsession hraise, hb.logs.objects⟩, hb.epochs⟩

theorem ReplayInv.committing (hb : ReplayInv b) {session : UInt64}
    (hsession : b.control.peerSession.lookup addr = some session) :
    Committing addr session b := by
  refine ⟨hb.logs, hsession, fun a e _ he => hb.epochs a e he, fun e he => ?_⟩
  obtain rfl := Option.some.inj ((hb.epochs addr e he).symm.trans hsession)
  exact UInt64.le_refl e

theorem ReplayInv.dispatchFresh
    (hb : ReplayInv b) (hsession : b.control.peerSession.lookup addr = some (epochOf wire))
    (hepoch : env.isHandshake = true → env.epoch = epochOf wire)
    (h : b.dispatchFresh addr wire env now victim = some b') :
    ReplayInv b' ∧ SessionsGrow b b' := by
  unfold Band.dispatchFresh at h
  split at h
  · cases h
    exact ⟨hb, .of_eq rfl⟩
  · rename_i marks hraise
    have haccept := hb.acceptControl hsession hraise
    cases hhand : env.isHandshake with
    | false =>
      have hsame := Same.dispatch hhand h
      exact ⟨haccept.same hsame, .of_eq hsame.sessions⟩
    | true =>
      have hcommitting : Committing addr env.epoch _ :=
        haccept.committing (by rw [hepoch hhand]; exact hsession)
      obtain ⟨hinv, hsessions⟩ := hcommitting.dispatch hhand h
      exact ⟨hinv, .of_eq hsessions⟩

theorem ReplayInv.handleMessage
    (hb : ReplayInv b) (hepoch : env.isHandshake = true → env.epoch = epochOf wire)
    (hdata : env.isHandshake = false → b.epoch addr = some (epochOf wire))
    (h : b.handleMessage addr wire env now victim = some b') :
    ReplayInv b' ∧ SessionsGrow b b' := by
  unfold Band.handleMessage at h
  split at h
  · cases h
    exact ⟨hb, .of_eq rfl⟩
  · cases hhand : env.isHandshake with
    | false =>
      rw [hhand] at h
      refine hb.dispatchFresh (hb.epochs addr _ (hdata hhand)) hepoch h
    | true =>
      rw [hhand, if_pos rfl] at h
      have henv := hepoch hhand
      dsimp only at h
      split at h
      · cases h
        exact ⟨hb, .of_eq rfl⟩
      · rename_i hstale
        split at h
        · rename_i hall
          have hnewer : ∀ t, b.control.peerSession.lookup addr = some t → t < epochOf wire := by
            intro t ht
            rw [ht] at hall
            rw [← henv]
            exact of_decide_eq_true hall
          rw [henv] at h
          have hstart := hb.startSession hnewer
          rw [← henv] at hstart h
          obtain ⟨hinv, hsessions⟩ := hstart.dispatch hhand h
          refine ⟨hinv, fun a s hs => ?_⟩
          rw [hsessions, henv]
          exact sessionsGrow_startSession hnewer a s hs
        · rename_i hall
          refine hb.dispatchFresh ?_ hepoch h
          rw [← henv]
          exact ControlTask.lookup_of_not_stale (t := ⟨∅, b.control.peerSession⟩)
            (Bool.eq_false_iff.mpr hstale) (Bool.eq_false_iff.mpr hall)

/-- What opens on the control channel. -/
theorem decryptControl_eq_ok {data : Payload} (hgenuine : Genuine b.psk wire)
    (h : b.decryptControl addr wire = .ok data) :
    wire.ciphertext.plaintext = data ∧
      ∀ env, data = .json env → env.isHandshake = false → b.epoch addr = some (epochOf wire) := by
  unfold decryptControl at h
  cases hcrypto : b.recvCrypto addr with
  | error e =>
    rw [hcrypto] at h
    cases h
  | ok rc =>
    rw [hcrypto] at h
    dsimp only [bind, Except.bind] at h
    split at h
    · rename_i data' hopen
      obtain rfl := Except.ok.inj h
      obtain ⟨c, rfl, hdec⟩ := bind_eq_some_iff.mp hopen
      have hok : c.decrypt wire.header.sequence wire.ciphertext controlAad = .ok data' := by
        cases hres : c.decrypt wire.header.sequence wire.ciphertext controlAad with
        | error e =>
          rw [hres] at hdec
          cases hdec
        | ok data =>
          rw [hres] at hdec
          exact congrArg _ (Option.some.inj hdec)
      obtain ⟨hkey, hplain⟩ := BandCrypto.decrypt_eq_ok hok
      exact ⟨hplain, fun _ _ _ => (epoch_of_key hgenuine hcrypto hkey).1⟩
    · -- the base key opens handshakes only
      have hbase : b.baseCrypto = .ok ⟨.chaCha20Poly1305, deriveKey b.psk⟩ := rfl
      rw [hbase] at h
      obtain ⟨hkey, hplain⟩ := BandCrypto.decrypt_eq_ok h
      refine ⟨hplain, fun env henv hhand => ?_⟩
      obtain ⟨session, hsent⟩ := hgenuine
      rcases hsent.cases_key with ⟨-, -, env', hplain', hshake⟩ | ⟨⟨cipher, hcipher⟩, -⟩
      · rw [hplain, henv] at hplain'
        obtain rfl := Payload.json.inj hplain'
        rw [hshake.isHandshake] at hhand
        cases hhand
      · rw [hkey] at hcipher
        exact absurd hcipher.symm deriveSessionKey_ne_deriveKey

theorem ReplayInv.handleControl (hb : ReplayInv b)
    (hgenuine : Genuine b.psk wire) (h : b.handleControl addr wire now victim = some b') :
    ReplayInv b' ∧ SessionsGrow b b' := by
  unfold Band.handleControl at h
  split at h
  · cases h
    exact ⟨hb, .of_eq rfl⟩
  · rename_i data hdec
    obtain ⟨hplain, hdata⟩ := decryptControl_eq_ok hgenuine hdec
    split at h
    · cases h
      exact ⟨hb, .of_eq rfl⟩
    · rename_i env henv
      have hjson : data = .json env := by
        cases data with
        | json env' => exact congrArg _ (Option.some.inj henv)
        | bytes bs => cases henv
      refine hb.handleMessage (fun hhand => ?_) (fun hhand => hdata env hjson hhand) h
      rw [epochOf, hplain, hjson]
      exact (if_pos hhand).symm

theorem ReplayInv.handleEndpoint {table : AList fun _ : Nat => Nat} (hb : ReplayInv b)
    (hgenuine : Genuine b.psk wire) :
    ReplayInv (b.handleEndpoint table addr wire) ∧
      SessionsGrow b (b.handleEndpoint table addr wire) := by
  unfold Band.handleEndpoint
  split
  · exact ⟨hb, .of_eq rfl⟩
  · rename_i i hi
    refine ⟨⟨⟨hb.logs.control, fun o' ho' => ?_⟩, hb.epochs⟩, .of_eq rfl⟩
    obtain ⟨j, hj⟩ := List.mem_iff_getElem?.mp ho'
    rw [List.getElem?_modify] at hj
    obtain ⟨o, ho, heq⟩ := map_eq_some_iff.mp hj
    have hold := hb.logs.objects o (List.mem_of_getElem? ho)
    split at heq
    · split at heq
      · subst heq
        exact hold
      · rcases o.handlePacket_cases b.recvCrypto addr wire with
          hsame | ⟨marks, c, -, hraise, hcrypto, hkey, hnew⟩
        · rw [hsame] at heq
          subst heq
          exact hold
        · rw [hnew] at heq
          subst heq
          have hepoch := (epoch_of_key hgenuine hcrypto hkey).1
          exact hold.raise (hb.epochs addr _ hepoch) hraise
    · subst heq
      exact hold

theorem ReplayInv.receive (hb : ReplayInv b)
    (hgenuine : Genuine b.psk wire) (h : b.receive addr wire now victim = some b') :
    ReplayInv b' ∧ SessionsGrow b b' := by
  have htouch : Same b (b.touch addr now) := .touch now
  have hgenuine' : Genuine (b.touch addr now).psk wire := by
    rw [htouch.psk]
    exact hgenuine
  have hgrow : ∀ {c : Band}, SessionsGrow (b.touch addr now) c → SessionsGrow b c := by
    intro c hc a s hs
    exact hc a s (htouch.sessions ▸ hs)
  have hendpoint : ∀ table, (b.touch addr now).handleEndpoint table addr wire = b' →
      ReplayInv b' ∧ SessionsGrow b b' := by
    rintro table rfl
    obtain ⟨hinv, hsessions⟩ := (hb.same htouch).handleEndpoint hgenuine'
    exact ⟨hinv, hgrow hsessions⟩
  unfold Band.receive at h
  split at h
  · obtain ⟨hinv, hsessions⟩ := (hb.same htouch).handleControl hgenuine' h
    exact ⟨hinv, hgrow hsessions⟩
  · exact hendpoint _ (Option.some.inj h)
  · split at h
    · cases h
      exact ⟨hb, .of_eq rfl⟩
    · exact hendpoint _ (Option.some.inj h)
  · split at h
    · cases h
      exact ⟨hb, .of_eq rfl⟩
    · exact hendpoint _ (Option.some.inj h)
  · split at h
    · cases h
      exact ⟨hb, .of_eq rfl⟩
    · exact hendpoint _ (Option.some.inj h)
  · cases h
    exact ⟨hb, .of_eq rfl⟩
  · cases h
    exact ⟨hb, .of_eq rfl⟩

/-- The network delivers copies of genuine packets only. -/
def GenuineNet (b : Band) : Event → Prop
  | .recv _ wire _ _ => Genuine b.psk wire
  | _ => True

theorem ReplayInv.step {e : Event} (hb : ReplayInv b) (hnet : b.GenuineNet e)
    (h : b.step e = some b') : ReplayInv b' ∧ SessionsGrow b b' := by
  have hsame : Same b b' → ReplayInv b' ∧ SessionsGrow b b' :=
    fun hsame => ⟨hb.same hsame, .of_eq hsame.sessions⟩
  cases e with
  | recv addr wire now victim => exact hb.receive hnet h
  | keepalive now => exact hsame (Option.some.inj h ▸ .keepaliveRound now)
  | openStream streamId => exact hsame (Option.some.inj h ▸ .openStream streamId)
  | openChannel channelId peerAddr =>
    exact hsame (Option.some.inj h ▸ .openChannel channelId peerAddr)
  | openBoard boardId => exact hsame (Option.some.inj h ▸ .openBoard boardId)
  | openDrop dropId => exact hsame (Option.some.inj h ▸ .openDrop dropId)
  | connectPeer dest => exact hsame (Option.some.inj h ▸ .sendMessage _ _ _)
  | send msg dest => exact hsame (Option.some.inj h ▸ .sendMessage _ _ _)

theorem ReplayInv.new (psk : Bytes) (hostname : String) (capabilities ciphers : List String)
    (sessionEpoch : UInt64) (start : Nat) :
    ReplayInv (Band.new psk hostname capabilities ciphers sessionEpoch start) := by
  refine ⟨⟨.nil, fun o ho => absurd ho List.not_mem_nil⟩, fun addr e h => ?_⟩
  have hempty : ((∅ : AList fun _ : SocketAddr => Peer).lookup addr).bind (·.sessionEpoch) =
    some e := h
  cases hempty

theorem ReplayInv.run (hb : ReplayInv b) (h : GuardedRun Band.step GenuineNet b b') :
    ReplayInv b' ∧ SessionsGrow b b' := by
  refine h.invariant (P := fun c => ReplayInv c ∧ SessionsGrow b c)
    ⟨hb, SessionsGrow.of_eq rfl⟩ ?_
  rintro c e c' ⟨hc, hgrow⟩ hnet hstep
  obtain ⟨hc', hgrow'⟩ := hc.step hnet hstep
  refine ⟨hc', fun addr s hs => ?_⟩
  obtain ⟨s', hs', hle⟩ := hgrow addr s hs
  obtain ⟨s'', hs'', hle'⟩ := hgrow' addr s' hs'
  exact ⟨s'', hs'', UInt64.le_trans hle hle'⟩

end Band

/-- In every run in which the network delivers genuine packets, the epoch of the
key `recv_crypto` uses for an address never decreases, and neither the control
channel nor any endpoint object accepts a packet twice from an address. -/
theorem recvEpoch_le_and_accepted_nodup {psk : Bytes} {hostname : String}
    {capabilities ciphers : List String} {sessionEpoch : UInt64} {start : Nat} {b b' : Band}
    (h : GuardedRun Band.step Band.GenuineNet
      (Band.new psk hostname capabilities ciphers sessionEpoch start) b)
    (h' : GuardedRun Band.step Band.GenuineNet b b') :
    (∀ addr e e', b.recvEpoch addr = some e → b'.recvEpoch addr = some e' → e ≤ e') ∧
      b'.control.accepted.Nodup ∧ ∀ o ∈ b'.objects, o.accepted.Nodup := by
  obtain ⟨hb, -⟩ := (Band.ReplayInv.new psk hostname capabilities ciphers sessionEpoch start).run h
  obtain ⟨hb', hgrow⟩ := hb.run h'
  refine ⟨fun addr e e' he he' => ?_, hb'.logs.control.nodup,
    fun o ho => (hb'.logs.objects o ho).nodup⟩
  have hsession := hb.epochs addr e (Band.epoch_of_recvEpoch he)
  have hsession' := hb'.epochs addr e' (Band.epoch_of_recvEpoch he')
  obtain ⟨s', hs', hle⟩ := hgrow addr e hsession
  obtain rfl := Option.some.inj (hs'.symm.trans hsession')
  exact hle

/-! ### A peer that restarts and leaves

The peer sends on stream 3 in two sessions and says goodbye in the second;
everything is replayed. -/

def ownBand : Band := .new [1] "own" [] [] 9 0

def streamSent : List Datagram :=
  [peerHello 1 10, peerSends 1 11 (.stream 3 0 [7]), peerHello 2 5,
    peerSends 2 6 (.stream 3 0 [8]), peerSends 2 7 .goodbye]

theorem streamSent_genuine : ∀ wire ∈ streamSent, Genuine [1] wire := by
  intro wire hwire
  simp only [streamSent, peerHello, List.mem_cons, List.not_mem_nil, or_false] at hwire
  rcases hwire with rfl | rfl | rfl | rfl | rfl <;> exact ⟨_, peerSends_sentIn _ _ _⟩

def delivers (b : Band) : Event → Bool
  | .recv _ wire _ _ => decide (b.psk = [1]) && streamSent.contains wire
  | _ => true

theorem genuineNet_of_delivers (b : Band) (e : Event) (h : delivers b e = true) :
    b.GenuineNet e := by
  cases e with
  | recv addr wire now victim =>
    obtain ⟨hpsk, hmem⟩ := (Bool.and_eq_true _ _).mp h
    show Genuine b.psk wire
    rw [of_decide_eq_true hpsk]
    exact streamSent_genuine wire (List.contains_iff_mem.mp hmem)
  | _ => trivial

def arrives (wire : Datagram) : Event := .recv peerAddr wire 0 peerAddr

/-- Packets of the peer's arrive, and then more of them. -/
def receives (wires more : List Datagram) : Option (Band × Band) := do
  let b ← play Band.step delivers (ownBand.openStream (some 3))
    ((wires.map arrives).map fun e _ => e)
  let b' ← play Band.step delivers b ((more.map arrives).map fun e _ => e)
  some (b, b')

theorem receives_runs {wires more : List Datagram} {b b' : Band}
    (h : receives wires more = some (b, b')) :
    GuardedRun Band.step Band.GenuineNet ownBand b ∧
      GuardedRun Band.step Band.GenuineNet b b' := by
  obtain ⟨b₁, h₁, hrest⟩ := bind_eq_some_iff.mp h
  obtain ⟨b₂, h₂, hlast⟩ := bind_eq_some_iff.mp hrest
  obtain ⟨rfl, rfl⟩ : b₁ = b ∧ b₂ = b' := by simpa using hlast
  exact ⟨.head ⟨.openStream (some 3), trivial, rfl⟩ (guardedRun_play genuineNet_of_delivers h₁),
    guardedRun_play genuineNet_of_delivers h₂⟩

theorem recvEpoch_le_and_accepted_nodup_restart : ∃ b b',
    receives (streamSent.take 2) (streamSent ++ streamSent) = some (b, b') ∧
      b.recvEpoch peerAddr = some 1 ∧
      b'.control.accepted.map (·.2) =
        [peerHello 1 10, peerHello 2 5, peerSends 2 7 .goodbye] ∧
      b'.objects.map (fun o => o.accepted.map (·.2)) =
        [[peerSends 1 11 (.stream 3 0 [7]), peerSends 2 6 (.stream 3 0 [8])]] ∧
      b'.control.accepted.Nodup ∧ ∀ o ∈ b'.objects, o.accepted.Nodup := by
  have hall : (receives (streamSent.take 2) (streamSent ++ streamSent)).any (fun s =>
      s.1.recvEpoch peerAddr = some 1 ∧
      s.2.control.accepted.map (·.2) =
        [peerHello 1 10, peerHello 2 5, peerSends 2 7 .goodbye] ∧
      s.2.objects.map (fun o => o.accepted.map (·.2)) =
        [[peerSends 1 11 (.stream 3 0 [7]), peerSends 2 6 (.stream 3 0 [8])]]) = true := by
    decide +kernel
  obtain ⟨⟨b, b'⟩, hs, hepoch, hcontrol, hobjects⟩ := some_of_any hall
  obtain ⟨hrun, hrun'⟩ := receives_runs hs
  exact ⟨b, b', hs, hepoch, hcontrol, hobjects, (recvEpoch_le_and_accepted_nodup hrun hrun').2⟩

end Telesthete.Python
