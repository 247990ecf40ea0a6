import Telesthete.Lib.NumberedLog
import Telesthete.Lib.Run
import Telesthete.Proofs.PythonReplay
import Telesthete.Python.Send

/-!
# No sequence is used for two messages

All senders of a Python band draw from one counter. Some of them use what they
drew for many destinations, some for one packet; either way a sequence belongs
to one message, that is to one text under one piece of associated data. The
invariant `NonceInv` says so for everything that was encrypted and for every
call that has drawn its sequence and is not done with it. Which key a packet
is encrypted under plays no part in it, so the ciphers may change at any time.
-/

namespace Telesthete.Python

open Telesthete.Lib Telesthete.Crypto Telesthete.Wire Telesthete.Band Option

namespace Band

variable {b b' b'' : Band} {addr : SocketAddr}
variable {env : ControlEnvelope} {now : Nat} {victim : SocketAddr} {wire : Datagram}

/-- Nothing is drawn and nothing is sent. -/
def Silent (b b' : Band) : Prop := b'.seqSource = b.seqSource ∧ b'.sent = b.sent

/-- One sequence is drawn, and sent to any number of peers with one message. -/
def Sends (b b' : Band) : Prop :=
  b'.seqSource = (b.seqSource + 1) % 2 ^ 64 ∧
    ∃ env packets, b'.sent = b.sent ++ packets ∧
      ∀ p ∈ packets, p.2.header.sequence = b.seqSource ∧ p.2.ciphertext.aad = controlAad ∧
        p.2.ciphertext.plaintext = .json env

theorem Silent.refl (b : Band) : Silent b b := ⟨rfl, rfl⟩

theorem Silent.trans (h : Silent b b') (h' : Silent b' b'') : Silent b b'' :=
  ⟨h'.1.trans h.1, h'.2.trans h.2⟩

theorem Silent.then_sends (h : Silent b b') (h' : Sends b' b'') : Sends b b'' := by
  obtain ⟨hsource, env, packets, hsent, hall⟩ := h'
  rw [h.1] at hsource hall
  exact ⟨hsource, env, packets, by rw [hsent, h.2], hall⟩

theorem Sends.then_silent (h : Sends b b') (h' : Silent b' b'') : Sends b b'' := by
  obtain ⟨hsource, env, packets, hsent, hall⟩ := h
  exact ⟨h'.1.trans hsource, env, packets, by rw [h'.2, hsent], hall⟩

theorem sealFor_packets {baseline : Bool} {dests : List SocketAddr} :
    ∀ p ∈ (b.sealFor env baseline dests).1, p.2.header.sequence = b.seqSource ∧
      p.2.ciphertext.aad = controlAad ∧ p.2.ciphertext.plaintext = .json env := by
  induction dests with
  | nil =>
    intro p hp
    cases hp
  | cons dest rest ih =>
    intro p hp
    simp only [sealFor] at hp
    split at hp
    · cases hp
    · rcases List.mem_cons.mp hp with rfl | hp
      · exact ⟨rfl, rfl, rfl⟩
      · exact ih p hp

theorem sends_sendMessage (env : ControlEnvelope) (dest : Option SocketAddr) (baseline : Bool) :
    Sends b (b.sendMessage env dest baseline).1 :=
  ⟨rfl, env, _, rfl, sealFor_packets⟩

/-! ### What the band's own steps send -/

theorem silent_touch (now : Nat) : Silent b (b.touch addr now) := by
  unfold touch
  split <;> exact ⟨rfl, rfl⟩

theorem silent_removePeer : Silent b (b.removePeer addr) := by
  unfold removePeer
  split <;> exact ⟨rfl, rfl⟩

theorem silent_ensurePeer {hostname : String}
    (h : b.ensurePeer addr hostname now victim = some b') : Silent b b' := by
  unfold ensurePeer at h
  split at h
  · cases h
    exact .refl b
  · split at h
    · obtain ⟨-, hroom⟩ := ite_none_right_eq_some.mp h
      cases hroom
      exact silent_removePeer.trans ⟨rfl, rfl⟩
    · cases h
      exact ⟨rfl, rfl⟩

theorem silent_commitPeer {capabilities : List String} {cipher : String} {epoch : UInt64}
    : Silent b (b.commitPeer addr capabilities cipher epoch now) := by
  unfold commitPeer
  split <;> exact ⟨rfl, rfl⟩

theorem silent_advertise (capability : String) : Silent b (b.advertise capability) := by
  unfold advertise
  split <;> exact ⟨rfl, rfl⟩

theorem silent_handleEndpoint {table : AList fun _ : Nat => Nat} :
    Silent b (b.handleEndpoint table addr wire) := by
  unfold handleEndpoint
  split <;> exact ⟨rfl, rfl⟩

theorem silent_foldl_removePeer (entries : List (Sigma fun _ : SocketAddr => Peer)) :
    Silent b (entries.foldl (fun b entry => b.removePeer entry.1) b) := by
  induction entries generalizing b with
  | nil => exact .refl b
  | cons entry rest ih => exact silent_removePeer.trans ih

/-- Of the handlers only that of HELLO sends. -/
theorem dispatch_sends
    (h : b.dispatch addr env now victim = some b') : Silent b b' ∨ Sends b b' := by
  unfold dispatch at h
  split at h
  · obtain ⟨c, hc, rfl⟩ := map_eq_some_iff.mp h
    have hsilent := silent_ensurePeer hc
    split
    · exact .inl hsilent
    · exact .inr ((hsilent.trans silent_commitPeer).then_sends (sends_sendMessage _ _ _))
  · split at h
    · obtain ⟨c, hc, rfl⟩ := map_eq_some_iff.mp h
      have hsilent := silent_ensurePeer hc
      split
      · exact .inl hsilent
      · exact .inl (hsilent.trans silent_commitPeer)
    · split at h
      · cases h
        exact .inl (silent_touch now)
      · split at h
        · cases h
          exact .inl silent_removePeer
        · cases h
          exact .inl (.refl b)

/-- A band that did nothing yet, and then sends or does not. -/
theorem Silent.then (h : Silent b b') (h' : Silent b' b'' ∨ Sends b' b'') :
    Silent b b'' ∨ Sends b b'' :=
  h'.imp h.trans h.then_sends

theorem dispatchFresh_sends (h : b.dispatchFresh addr wire env now victim = some b') :
    Silent b b' ∨ Sends b b' := by
  unfold dispatchFresh at h
  split at h
  · cases h
    exact .inl (.refl b)
  · rename_i marks _
    have haccept : Silent b (b.acceptControl addr wire marks) := ⟨rfl, rfl⟩
    exact haccept.then (dispatch_sends h)

theorem handleMessage_sends (h : b.handleMessage addr wire env now victim = some b') :
    Silent b b' ∨ Sends b b' := by
  unfold handleMessage at h
  split at h
  · cases h
    exact .inl (.refl b)
  · split at h
    · dsimp only at h
      split at h
      · cases h
        exact .inl (.refl b)
      · split at h
        · have hstart : Silent b (b.startSession addr wire env.epoch) := ⟨rfl, rfl⟩
          exact hstart.then (dispatch_sends h)
        · exact dispatchFresh_sends h
    · exact dispatchFresh_sends h

theorem receive_sends
    (h : b.receive addr wire now victim = some b') : Silent b b' ∨ Sends b b' := by
  have htouch : Silent b (b.touch addr now) := silent_touch now
  have hendpoint : ∀ table : AList fun _ : Nat => Nat,
      Silent b ((b.touch addr now).handleEndpoint table addr wire) :=
    fun table => htouch.trans silent_handleEndpoint
  unfold receive at h
  split at h
  · refine htouch.then ?_
    unfold handleControl at h
    split at h
    · cases h
      exact .inl (.refl _)
    · split at h
      · cases h
        exact .inl (.refl _)
      · exact handleMessage_sends h
  · cases h
    exact .inl (hendpoint _)
  all_goals try
    split at h
    · cases h
      exact .inl (.refl b)
    · cases h
      exact .inl (hendpoint _)
  all_goals
    cases h
    exact .inl (.refl b)

theorem keepaliveRound_sends (now : Nat) :
    Silent b (b.keepaliveRound now) ∨ Sends b (b.keepaliveRound now) := by
  have hkeepalive : Silent b (b.sendKeepalive now).1 ∨ Sends b (b.sendKeepalive now).1 := by
    unfold sendKeepalive
    split
    · have hsend : Sends b (b.sendMessage ⟨typeKeepalive, .empty⟩ none false).1 :=
        sends_sendMessage _ _ _
      dsimp only
      split
      · exact .inr (hsend.then_silent ⟨rfl, rfl⟩)
      · exact .inr hsend
    · exact .inl (.refl b)
  unfold keepaliveRound
  dsimp only
  split
  · exact hkeepalive.imp (·.trans (silent_foldl_removePeer _))
      (·.then_silent (silent_foldl_removePeer _))
  · exact hkeepalive

/-- A step of the band sends one control message, or nothing. -/
theorem step_sends {e : Event} (h : b.step e = some b') : Silent b b' ∨ Sends b b' := by
  cases e with
  | recv addr wire now victim => exact receive_sends h
  | keepalive now => exact Option.some.inj h ▸ keepaliveRound_sends now
  | openStream streamId =>
    cases h
    refine .inl ?_
    unfold openStream
    dsimp only
    split <;> split <;> exact ⟨rfl, rfl⟩
  | openChannel channelId peerAddr =>
    cases h
    refine .inl ?_
    unfold openChannel
    split <;> exact ⟨rfl, rfl⟩
  | openBoard boardId =>
    cases h
    refine .inl ?_
    unfold openBoard
    split
    · exact .refl b
    · exact Silent.trans ⟨rfl, rfl⟩ (silent_advertise _)
  | openDrop dropId =>
    cases h
    exact .inl (Silent.trans ⟨rfl, rfl⟩ (silent_advertise _))
  | connectPeer dest => exact .inr (Option.some.inj h ▸ sends_sendMessage _ _ _)
  | send msg dest => exact .inr (Option.some.inj h ▸ sends_sendMessage _ _ _)

end Band

/-- What a sequence is drawn for: the associated data, the text, and the time in
the text of a control message. -/
abbrev Message := Bytes × Payload × Option Nat

def Sealing.message (s : Sealing) : Message :=
  (s.wire.ciphertext.aad, s.wire.ciphertext.plaintext, s.timestamp)

def Job.message (job : Job) : Message := (job.aad, job.plaintext, job.timestamp)

namespace Node

variable {start : Nat} {of : Nat → Message} {n n' : Node}

/-- The `i`-th sequence was drawn for the message `of i`, and is used for no
other one. -/
structure NonceInv (start : Nat) (of : Nat → Message) (n : Node) : Prop where
  source : n.band.seqSource = (start + n.drawn) % 2 ^ 64
  log : ∀ s ∈ n.log, Issued (2 ^ 64) start n.drawn of s.wire.header.sequence s.message
  jobs : ∀ job ∈ n.jobs, ∀ seq, job.sequence = some seq →
    Issued (2 ^ 64) start n.drawn of seq job.message

namespace NonceInv

theorem draw (hn : NonceInv start of n) (m : Message) :
    NonceInv start (Function.update of n.drawn m) n.draw ∧
      Issued (2 ^ 64) start n.draw.drawn (Function.update of n.drawn m) n.band.seqSource m := by
  refine ⟨⟨?_, fun s hs => (hn.log s hs).next m, fun job hjob seq hseq =>
    (hn.jobs job hjob seq hseq).next m⟩, ?_⟩
  · show (n.band.seqSource + 1) % 2 ^ 64 = (start + (n.drawn + 1)) % 2 ^ 64
    rw [hn.source, Nat.mod_add_mod, Nat.add_assoc]
  · rw [hn.source]
    exact issued_next _ _ _ _ _

theorem eraseIdx (hn : NonceInv start of n) (j : Nat) :
    NonceInv start of { n with jobs := n.jobs.eraseIdx j } :=
  ⟨hn.source, hn.log, fun job hjob => hn.jobs job (List.mem_of_mem_eraseIdx hjob)⟩

/-- A call that draws first keeps its sequence until it is done. -/
theorem begin {channelType : ChannelType} {channelId : Nat} {plaintext : Payload}
    {timestamp : Option Nat} {targets : Targets} (hn : NonceInv start of n) :
    ∃ of, NonceInv start of (n.begin channelType channelId plaintext timestamp targets) := by
  obtain ⟨hdraw, hissued⟩ := hn.draw
    (buildAad channelType.toU8 (UInt16.ofNat channelId), plaintext, timestamp)
  refine ⟨_, hdraw.source, hdraw.log, forall_mem_snoc hdraw.jobs fun seq hseq => ?_⟩
  cases hseq
  exact hissued

theorem beginFresh {channelType : ChannelType} {channelId : Nat} {plaintext : Payload}
    {dests : List SocketAddr} (hn : NonceInv start of n) :
    NonceInv start of (n.beginFresh channelType channelId plaintext dests) := by
  refine ⟨hn.source, hn.log, forall_mem_snoc hn.jobs fun seq hseq => ?_⟩
  cases hseq

/-- A packet under a sequence that was drawn for its message. -/
theorem transmit {job : Job} {c : BandCrypto} {sequence : Nat} {dest : SocketAddr}
    (hn : NonceInv start of n)
    (hissued : Issued (2 ^ 64) start n.drawn of sequence job.message) :
    NonceInv start of (n.transmit job c sequence dest) :=
  ⟨hn.source, forall_mem_snoc hn.log hissued, hn.jobs⟩

/-- The call goes on with the message it began with. -/
theorem set {job job' : Job} {j : Nat} (hn : NonceInv start of n) (hjob : job ∈ n.jobs)
    (hseq : job'.sequence = job.sequence) (hmessage : job'.message = job.message) :
    NonceInv start of { n with jobs := n.jobs.set j job' } := by
  refine ⟨hn.source, hn.log, fun k hk seq hkseq => ?_⟩
  rcases List.mem_or_eq_of_mem_set hk with hold | rfl
  · exact hn.jobs k hold seq hkseq
  · rw [hmessage]
    exact hn.jobs job hjob seq (hseq ▸ hkseq)

end NonceInv

theorem Job.next_eq_some {b : Band} {job job' : Job} {dest : SocketAddr}
    (h : job.next b = some (dest, job')) :
    job'.sequence = job.sequence ∧ job'.message = job.message := by
  unfold Job.next at h
  split at h
  · cases h
  · obtain ⟨-, rfl⟩ := Prod.mk.inj (Option.some.inj h)
    exact ⟨rfl, rfl⟩
  · split at h
    · cases h
    · obtain ⟨-, rfl⟩ := Prod.mk.inj (Option.some.inj h)
      exact ⟨rfl, rfl⟩

theorem NonceInv.resume {j : Nat} (hn : NonceInv start of n) (h : n.resume j = some n') :
    ∃ of, NonceInv start of n' := by
  unfold Node.resume at h
  split at h
  · cases h
  · rename_i job hget
    have hjob : job ∈ n.jobs := List.mem_of_getElem? hget
    split at h
    · cases h
      exact ⟨of, hn.eraseIdx j⟩
    · rename_i dest job' hnext
      obtain ⟨hseq, hmessage⟩ := Job.next_eq_some hnext
      split at h
      · cases h
        exact ⟨of, hn.eraseIdx j⟩
      · -- the sequence is the one of the call, or drawn here
        have hdrawn : ∃ of, NonceInv start of (if job.sequence.isSome then n else n.draw) ∧
            Issued (2 ^ 64) start (if job.sequence.isSome then n else n.draw).drawn of
              (job.sequence.getD n.band.seqSource) job.message := by
          cases hsome : job.sequence with
          | some seq => exact ⟨of, hn, hn.jobs job hjob seq hsome⟩
          | none => exact ⟨_, hn.draw job.message⟩
        have hmem : job ∈ (if job.sequence.isSome then n else n.draw).jobs := by
          split <;> exact hjob
        obtain ⟨of', hinv, hissued⟩ := hdrawn
        refine ⟨of', ?_⟩
        generalize (if job.sequence.isSome then n else n.draw) = m at h hinv hissued hmem
        split at h
        · cases h
          exact hinv.eraseIdx j
        · cases h
          exact (hinv.transmit hissued).set hmem hseq hmessage

theorem NonceInv.stepBand {e : Python.Event} {clock : Nat} (hn : NonceInv start of n)
    (h : n.stepBand e clock = some n') : ∃ of, NonceInv start of n' := by
  obtain ⟨b, hb, rfl⟩ := map_eq_some_iff.mp h
  rcases Band.step_sends hb with ⟨hsource, hsent⟩ | ⟨hsource, env, packets, hsent, hall⟩
  · refine ⟨of, ?_, ?_, ?_⟩
    · simp only [hsource, if_true]
      exact hn.source
    · simpa only [hsource, hsent, List.drop_length, List.map_nil, List.append_nil, if_true]
        using hn.log
    · simpa only [hsource, if_true] using hn.jobs
  · have hne : b.seqSource ≠ n.band.seqSource := by
      rw [hsource, hn.source]
      omega
    obtain ⟨hdraw, hissued⟩ := hn.draw (Band.controlAad, .json env, some clock)
    refine ⟨Function.update of n.drawn (Band.controlAad, .json env, some clock), ?_, ?_, ?_⟩
    · simp only [hne, if_false]
      exact hsource.trans hdraw.source
    · intro s hs
      simp only [hne, if_false]
      rw [hsent, List.drop_left] at hs
      rcases List.mem_append.mp hs with hold | hnew
      · exact hdraw.log s hold
      · obtain ⟨p, hp, rfl⟩ := List.mem_map.mp hnew
        obtain ⟨hseq, haad, hplain⟩ := hall p hp
        rw [hseq, Sealing.message, haad, hplain]
        exact hissued
    · simp only [hne, if_false]
      exact hdraw.jobs

theorem NonceInv.step {e : Node.Event} (hn : NonceInv start of n) (h : n.step e = some n') :
    ∃ of, NonceInv start of n' := by
  cases e with
  | band e clock => exact hn.stepBand h
  | controlSend msg dest clock =>
    cases h
    exact hn.begin
  | streamSend i priority data =>
    obtain ⟨o, -, rfl⟩ := map_eq_some_iff.mp h
    exact hn.begin
  | channelTransmit i frame =>
    obtain ⟨o, -, ho⟩ := bind_eq_some_iff.mp h
    split at ho
    · cases ho
      exact hn.begin
    · cases ho
  | boardSendRaw i plaintext dest =>
    obtain ⟨o, -, rfl⟩ := map_eq_some_iff.mp h
    exact ⟨of, hn.beginFresh⟩
  | dropSendFrame i dest frame =>
    obtain ⟨o, -, rfl⟩ := map_eq_some_iff.mp h
    exact ⟨of, hn.beginFresh⟩
  | resume j => exact hn.resume h

theorem nonceInv_new (psk : Bytes) (hostname : String) (capabilities ciphers : List String)
    (sessionEpoch : UInt64) (start : Nat) (of : Nat → Message) :
    NonceInv start of
      (.new (.new psk hostname capabilities ciphers sessionEpoch start)) where
  source := rfl
  log := fun _ hs => absurd hs List.not_mem_nil
  jobs := fun _ hjob => absurd hjob List.not_mem_nil

end Node

/-- In every run that draws fewer than `2 ^ 63` sequences, two encryptions under
one key and one sequence have the same associated data and the same text. -/
theorem aad_eq_and_plaintext_eq {psk : Bytes} {hostname : String}
    {capabilities ciphers : List String} {sessionEpoch : UInt64} {start : Nat} {n : Node}
    (h : GuardedRun Node.step (fun _ _ => True)
      (.new (.new psk hostname capabilities ciphers sessionEpoch start)) n)
    (hfew : n.drawn < 2 ^ 63) :
    ∀ s ∈ n.log, ∀ t ∈ n.log, s.wire.ciphertext.key = t.wire.ciphertext.key →
      s.wire.header.sequence = t.wire.header.sequence →
        s.wire.ciphertext.aad = t.wire.ciphertext.aad ∧
          s.wire.ciphertext.plaintext = t.wire.ciphertext.plaintext ∧
          s.timestamp = t.timestamp := by
  obtain ⟨of, hn⟩ : ∃ of, Node.NonceInv start of n := by
    refine h.invariant (P := fun n => ∃ of, Node.NonceInv start of n)
      ⟨fun _ => ([], .bytes [], none), Node.nonceInv_new ..⟩ ?_
    rintro n e n' ⟨of, hn⟩ - hstep
    exact hn.step hstep
  intro s hs t ht _ hseq
  have hmessage : s.message = t.message :=
    (hn.log s hs).unique (hseq ▸ hn.log t ht) (by omega)
  obtain ⟨haad, hrest⟩ := Prod.mk.inj hmessage
  obtain ⟨hplain, htime⟩ := Prod.mk.inj hrest
  exact ⟨haad, hplain, htime⟩

/-- A stream with two destinations and a board: one sequence for both packets of
the stream, one for each of the board. -/
def sendsToTwo : List Node.Event :=
  [.band (.openStream (some 3)) 0, .band (.openBoard 4) 0,
    .band (arrives (peerHello 1 10)) 1, .band (.recv ⟨3, 7000⟩ (peerHello 1 10) 0 peerAddr) 2,
    .streamSend 0 5 [8], .resume 0, .boardSendRaw 1 [9] none, .resume 1, .resume 0, .resume 1]

theorem aad_eq_and_plaintext_eq_two : ∃ n s t,
    play Node.step (fun _ _ => true) (.new ownBand) (sendsToTwo.map fun e _ => e) = some n ∧
      n.drawn = 5 ∧ n.log.map (·.wire.header.sequence) = [0, 1, 2, 3, 2, 4] ∧
      n.log[2]? = some s ∧ n.log[4]? = some t ∧
      s.wire.ciphertext.key = t.wire.ciphertext.key ∧
      s.wire.ciphertext.aad = t.wire.ciphertext.aad ∧
      s.wire.ciphertext.plaintext = t.wire.ciphertext.plaintext ∧ s.timestamp = t.timestamp := by
  have hall : (play Node.step (fun _ _ => true) (.new ownBand)
      (sendsToTwo.map fun e _ => e)).any (fun n => n.drawn = 5 ∧
        n.log.map (·.wire.header.sequence) = [0, 1, 2, 3, 2, 4] ∧
        n.log[2]?.any fun s => n.log[4]?.any fun t =>
          s.wire.ciphertext.key = t.wire.ciphertext.key ∧
            s.wire.header.sequence = t.wire.header.sequence) = true := by
    decide +kernel
  obtain ⟨n, hplay, hdrawn, hseqs, hlog⟩ := some_of_any hall
  obtain ⟨s, hs, hlog⟩ := (Option.any_eq_true _ _).mp hlog
  obtain ⟨t, ht, hkey, hseq⟩ := some_of_any hlog
  have hsame := aad_eq_and_plaintext_eq
    (guardedRun_play (fun _ _ _ => trivial) hplay) (by omega)
    s (List.mem_of_getElem? hs) t (List.mem_of_getElem? ht) hkey hseq
  exact ⟨n, s, t, hplay, hdrawn, hseqs, hs, ht, hkey, hsame⟩

end Telesthete.Python
