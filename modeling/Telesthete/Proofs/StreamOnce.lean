import Telesthete.Proofs.Epochs

/-!
# What the Stream hub hands over

A packet the hub handed over cannot be handed over again as long as the mark
of its peer and stream stands. The mark is removed by a rebase signal, and
then the key has to keep the copies out: those still on their way must be
newer than the packet, and the key of its session must be gone. The signal is
sent before the new key is registered and taken whenever the hub gets to it,
so neither is certain; `StreamSafe` asks for both when the signal is taken.
-/

namespace Telesthete.Band

open Telesthete.Lib Telesthete.Crypto Telesthete.Wire List

/-- Packets of one session and stream of a peer. -/
def SameFlow (p q : Inbound) : Prop :=
  p.source = q.source ∧ epochOf p.wire = epochOf q.wire ∧
    p.header.channelId = q.header.channelId

instance (p q : Inbound) : Decidable (SameFlow p q) := inferInstanceAs (Decidable (_ ∧ _ ∧ _))

/-- What a task handed to its endpoints, in order. -/
def Subscriber.delivered (s : Subscriber) : List Inbound := s.handed.map (·.2)

/-- The packets that were decoded already and that a task may still get. -/
def waiting (m : Band) (s : Subscriber) : List Inbound := s.queue ++ m.dataTransit

/-- The peer a task is about to take a rebase signal for. -/
def nextRebase (m : Band) (s : Subscriber) : Option SocketAddr :=
  (rebaseRecv m.rebases s.next).bind (·.1)

/-- Of the sessions in which the task handed over packets from `addr`, none is
the one whose key is registered, and the packets still waiting are newer. -/
def ClearsSafely (m : Band) (s : Subscriber) (addr : SocketAddr) : Prop :=
  ∀ p ∈ s.delivered, p.source = addr →
    m.registeredEpoch addr ≠ some (epochOf p.wire) ∧
      ∀ q ∈ m.waiting s, SameFlow p q → p.header.sequence < q.header.sequence

instance (m : Band) (s : Subscriber) (addr : SocketAddr) : Decidable (m.ClearsSafely s addr) :=
  inferInstanceAs (Decidable (∀ p ∈ s.delivered, _ → _))

/-- Nobody is forgotten, no packet comes from a second address after it was
handed over, and the hub takes rebase signals when that is safe. -/
def StreamSafe (m : Band) (e : Event) : Prop :=
  Undisturbed m e ∧
    match e with
    | .packet 0 => ∀ hub ∈ m.subscribers[0]?, ∀ q ∈ hub.queue.head?, ∀ p ∈ hub.delivered,
        p.wire = q.wire → p.source = q.source
    | .rebase 0 => ∀ hub ∈ m.subscribers[0]?, ∀ addr ∈ m.nextRebase hub, m.ClearsSafely hub addr
    | _ => True

/-- The key of the packet's session is gone, and nothing of its stream that was
decoded under it is left at or below its sequence. -/
def Outdated (m : Band) (s : Subscriber) (p : Inbound) : Prop :=
  (∃ r, m.registeredEpoch p.source = some r ∧ epochOf p.wire < r) ∧
    ∀ q ∈ m.waiting s, SameFlow p q → p.header.sequence < q.header.sequence

section Waiting

variable {m m' : Band} {e : Event} {s s' : Subscriber}

/-- A packet that is new to a task was decoded under a key that is registered. -/
theorem step_waiting (hmember : Member m) (hnet : GenuineNet m e) (h : m.step e = some m')
    (hqueue : ∀ q ∈ s'.queue, q ∈ m.waiting s) :
    ∀ q ∈ m'.waiting s',
      q ∈ m.waiting s ∨ m.registeredEpoch q.source = some (epochOf q.wire) := by
  intro q hq
  rcases mem_append.mp hq with hq | hq
  · exact .inl (hqueue q hq)
  · rcases step_dataTransit h hq with hold | ⟨hdata, source, wire, rfl, hdec⟩
    · exact .inl (mem_append_right _ hold)
    · have hreg := registeredEpoch_of_decode hmember hnet hdec hdata
      obtain ⟨rfl, -⟩ := Transport.decode_eq_some hdec
      exact .inr hreg

theorem Outdated.step {p : Inbound} (hp : m.Outdated s p) (hm : EpochInv m) (hmember : Member m)
    (hok : Undisturbed m e) (h : m.step e = some m')
    (hqueue : ∀ q ∈ s'.queue, q ∈ m.waiting s) : m'.Outdated s' p := by
  obtain ⟨⟨r, hreg, hlt⟩, hwait⟩ := hp
  obtain ⟨r', hreg', hle⟩ := hm.registeredEpoch_mono hok h hreg
  refine ⟨⟨r', hreg', UInt64.lt_of_lt_of_le hlt hle⟩, fun q hq hflow => ?_⟩
  rcases step_waiting hmember hok.genuineNet h hqueue q hq with hold | hnew
  · exact hwait q hold hflow
  · -- what is decoded now is of the registered session, so not of this one
    obtain ⟨hsource, hepoch, -⟩ := hflow
    rw [← hsource, hreg, ← hepoch] at hnew
    cases hnew
    exact absurd hlt (UInt64.lt_irrefl _)

end Waiting

/-- No copy of a delivered packet can be delivered: the mark covers it, or its
session is over. -/
def Covered (m : Band) (s : Subscriber) (p : Inbound) : Prop :=
  HighWater.Covers s.marks (p.source, some p.header.channelId) p.header.sequence ∨ m.Outdated s p

/-- What holds of the Stream hub. -/
structure HubInv (m : Band) (hub : Subscriber) : Prop where
  kind : hub.kind = .streamHub
  order : hub.delivered.Pairwise fun p q =>
    SameFlow p q → p.header.sequence < q.header.sequence
  distinct : hub.delivered.Pairwise fun p q => p.wire ≠ q.wire
  known : ∀ p ∈ hub.delivered, p.header = p.wire.header ∧ m.Bounded p
  covered : ∀ p ∈ hub.delivered, m.Covered hub p

/-- What holds of the band as far as the Stream hub is concerned. -/
structure StreamInv (m : Band) : Prop where
  epochs : EpochInv m
  member : Member m
  data : m.AllData fun p => p.header = p.wire.header ∧ m.Bounded p
  hub : ∃ hub, m.subscribers[0]? = some hub ∧ HubInv m hub

namespace HubInv

variable {m m' : Band} {e : Event} {hub hub' : Subscriber}

/-- A covered packet is older than an admitted one of its flow. -/
theorem lt_of_raise {p q : Inbound} {marks : Marks} (hp : m.Covered hub p)
    (hq : q ∈ hub.queue) (hflow : SameFlow p q)
    (hraise : raiseMark hub.marks (q.source, some q.header.channelId) q.header.sequence =
      some marks) : p.header.sequence < q.header.sequence := by
  rcases hp with hcovers | ⟨-, hwait⟩
  · obtain ⟨hsource, -, hid⟩ := hflow
    rw [hsource, hid] at hcovers
    exact hcovers.lt_of_raise hraise
  · exact hwait q (mem_append_left _ hq) hflow

/-- A step by which nothing is handed over. -/
theorem keep (hhub : HubInv m hub) (hm : EpochInv m) (hmember : Member m) (hok : Undisturbed m e)
    (h : m.step e = some m') (hkind : hub'.kind = hub.kind) (hhanded : hub'.handed = hub.handed)
    (hqueue : ∀ q ∈ hub'.queue, q ∈ m.waiting hub)
    (hmarks : ∀ p ∈ hub.delivered,
      HighWater.Covers hub.marks (p.source, some p.header.channelId) p.header.sequence →
        m'.Covered hub' p) : HubInv m' hub' := by
  have hdelivered : hub'.delivered = hub.delivered := by rw [Subscriber.delivered, hhanded]; rfl
  refine ⟨hkind.trans hhub.kind, ?_, ?_, ?_, ?_⟩ <;> rw [hdelivered]
  · exact hhub.order
  · exact hhub.distinct
  · intro p hp
    obtain ⟨hheader, hbound⟩ := hhub.known p hp
    exact ⟨hheader, hbound.step hm hok h⟩
  · intro p hp
    rcases hhub.covered p hp with hcovers | hout
    · exact hmarks p hp hcovers
    · exact .inr (hout.step hm hmember hok h hqueue)

/-- The hub hands over a packet it admitted. -/
theorem handOver {q : Inbound} {i : Nat} {marks : Marks} (hhub : HubInv m hub) (hm : EpochInv m)
    (hmember : Member m) (hok : Undisturbed m e) (h : m.step e = some m')
    (hq : q ∈ hub.queue) (hknown : q.header = q.wire.header ∧ m.Bounded q)
    (hhome : ∀ p ∈ hub.delivered, p.wire = q.wire → p.source = q.source)
    (hraise : raiseMark hub.marks (q.source, some q.header.channelId) q.header.sequence =
      some marks)
    (hkind : hub'.kind = hub.kind) (hhanded : hub'.handed = hub.handed ++ [(i, q)])
    (hqueue : ∀ q ∈ hub'.queue, q ∈ m.waiting hub) (hmarks : hub'.marks = marks) :
    HubInv m' hub' := by
  have hdelivered : hub'.delivered = hub.delivered ++ [q] := by
    rw [Subscriber.delivered, hhanded, map_append]
    rfl
  have hlt : ∀ p ∈ hub.delivered, SameFlow p q → p.header.sequence < q.header.sequence :=
    fun p hp hflow => lt_of_raise (hhub.covered p hp) hq hflow hraise
  have happend : ∀ {R : Inbound → Inbound → Prop}, hub.delivered.Pairwise R →
      (∀ p ∈ hub.delivered, R p q) → (hub.delivered ++ [q]).Pairwise R := by
    intro R hpair hlast
    refine pairwise_append.mpr ⟨hpair, pairwise_singleton R q, fun p hp r hr => ?_⟩
    rw [mem_singleton.mp hr]
    exact hlast p hp
  refine ⟨hkind.trans hhub.kind, ?_, ?_, ?_, ?_⟩ <;> rw [hdelivered]
  · exact happend hhub.order hlt
  · refine happend hhub.distinct fun p hp hwire => ?_
    -- a copy would be of the same flow and have the same sequence
    have hheader : p.header = q.header := by rw [(hhub.known p hp).1, hknown.1, hwire]
    have hflow : SameFlow p q := ⟨hhome p hp hwire, by rw [hwire], by rw [hheader]⟩
    have hself := hlt p hp hflow
    rw [hheader] at hself
    exact absurd hself (lt_irrefl _)
  · refine forall_mem_snoc (fun p hp => ?_) ⟨hknown.1, hknown.2.step hm hok h⟩
    obtain ⟨hheader, hbound⟩ := hhub.known p hp
    exact ⟨hheader, hbound.step hm hok h⟩
  · intro p hp
    unfold Covered
    rw [hmarks]
    rcases mem_append.mp hp with hold | hlast
    · rcases hhub.covered p hold with hcovers | hout
      · exact .inl (hcovers.raise hraise)
      · exact .inr (hout.step hm hmember hok h hqueue)
    · rw [mem_singleton.mp hlast]
      exact .inl (HighWater.covers_of_raise hraise)

end HubInv

namespace StreamInv

variable {m m' : Band} {e : Event} {hub hub' : Subscriber}

theorem packet (hm : StreamInv m) (hok : StreamSafe m (.packet 0))
    (h : m.step (.packet 0) = some m') (hs : m.subscribers[0]? = some hub) (hhub : HubInv m hub)
    (hstep : hub.onPacket = some hub') : HubInv m' hub' := by
  obtain ⟨q, hqueue, hhandle⟩ := Subscriber.onPacket_eq_some hstep
  have hq : q ∈ hub.queue := hqueue ▸ mem_cons_self
  have hrest : ∀ p ∈ hub'.queue, p ∈ m.waiting hub := by
    intro p hp
    exact mem_append_left _ (hqueue ▸ mem_cons_of_mem q hp)
  rcases Subscriber.handle_cases { hub with queue := hub'.queue } q with heq | ⟨marks, hadm, heq⟩
  · rw [heq] at hhandle
    refine hhub.keep hm.epochs hm.member hok.1 h (by rw [hhandle]) (by rw [hhandle]) hrest ?_
    intro p hp hcovers
    refine .inl ?_
    rw [hhandle]
    exact hcovers
  · have hraise : raiseMark hub.marks (q.source, some q.header.channelId) q.header.sequence =
        some marks := by
      have hraise := TaskKind.raiseMark_of_raise hadm
      rw [show ({ hub with queue := hub'.queue } : Subscriber).kind = .streamHub from hhub.kind]
        at hraise
      exact hraise
    rw [heq] at hhandle
    cases houtlet : hub.outlet q with
    | none =>
      have hout : ({ hub with queue := hub'.queue } : Subscriber).outlet q = none := houtlet
      rw [hout] at hhandle
      refine hhub.keep hm.epochs hm.member hok.1 h (by rw [hhandle])
        (by rw [hhandle]; exact append_nil _) hrest ?_
      intro p hp hcovers
      refine .inl ?_
      rw [hhandle]
      exact hcovers.raise hraise
    | some i =>
      have hout : ({ hub with queue := hub'.queue } : Subscriber).outlet q = some i := houtlet
      rw [hout] at hhandle
      exact hhub.handOver hm.epochs hm.member hok.1 h hq (hm.data.queued 0 hub hs q hq)
        (hok.2 hub hs q (by rw [hqueue]; rfl)) hraise (by rw [hhandle]) (by rw [hhandle]; rfl)
        hrest (by rw [hhandle])

theorem rebase (hm : StreamInv m) (hok : StreamSafe m (.rebase 0))
    (h : m.step (.rebase 0) = some m') (hs : m.subscribers[0]? = some hub) (hhub : HubInv m hub)
    (hstep : hub.onRebase m.rebases = some hub') : HubInv m' hub' := by
  obtain ⟨hqueue, hkind, -, hhanded, hmarks⟩ := Subscriber.onRebase_eq_some hstep
  have hrest : ∀ p ∈ hub'.queue, p ∈ m.waiting hub := by
    intro p hp
    exact mem_append_left _ (hqueue ▸ hp)
  refine hhub.keep hm.epochs hm.member hok.1 h hkind hhanded hrest fun p hp hcovers => ?_
  rcases hmarks with ⟨-, hmarks⟩ | ⟨addr, hrecv, hmarks⟩
  · refine .inl ?_
    rw [hmarks]
    exact hcovers
  · by_cases hsource : p.source = addr
    · -- the mark goes, so the session must be over
      have hnext : addr ∈ m.nextRebase hub := by
        rw [nextRebase, hrecv]
        rfl
      obtain ⟨hne, hwait⟩ := hok.2 hub hs addr hnext p hp hsource
      obtain ⟨r, hreg, hle⟩ := (hhub.known p hp).2
      rw [← hsource, hreg] at hne
      have hlt : epochOf p.wire < r :=
        UInt64.lt_of_le_of_ne hle fun heq => hne (congrArg some heq.symm)
      have hout : m.Outdated hub p := ⟨⟨r, hreg, hlt⟩, hwait⟩
      exact .inr (hout.step hm.epochs hm.member hok.1 h hrest)
    · refine .inl ?_
      rw [hmarks]
      exact hcovers.retain (by simpa using hsource)

theorem step (hm : StreamInv m) (hok : StreamSafe m e) (h : m.step e = some m') :
    StreamInv m' := by
  obtain ⟨hub, hs, hhub⟩ := hm.hub
  have hlength : 0 < m'.subscribers.length :=
    lt_of_lt_of_le (List.getElem?_eq_some_iff.mp hs).1 (step_subscribers_length h)
  refine ⟨hm.epochs.step hok.1 h, hm.member.step h, ?_, m'.subscribers[0],
    getElem?_eq_getElem hlength, ?_⟩
  · refine hm.data.step h (fun p ⟨hheader, hbound⟩ => ⟨hheader, hbound.step hm.epochs hok.1 h⟩) ?_
    rintro source wire pkt rfl hdec hdata
    have hreg := registeredEpoch_of_decode hm.member hok.1.genuineNet hdec hdata
    obtain ⟨rfl, -⟩ := Transport.decode_eq_some hdec
    have hbound : m.Bounded ⟨source, wire.header, wire.ciphertext.plaintext, wire⟩ :=
      ⟨epochOf wire, hreg, UInt64.le_refl _⟩
    exact ⟨rfl, hbound.step hm.epochs hok.1 h⟩
  · rcases step_subscriber h (getElem?_eq_getElem hlength) with
      ⟨s, hs', hsame, hqueue⟩ | ⟨s, rfl, hs', hstep⟩ | ⟨s, rfl, hs', hstep⟩ | ⟨kind, hnone, -⟩
    · obtain rfl := Option.some.inj (hs.symm.trans hs')
      refine hhub.keep hm.epochs hm.member hok.1 h hsame.kind hsame.handed ?_ ?_
      · intro q hq
        rcases hqueue with hqueue | ⟨pkt, hpkt, hqueue⟩ <;> rw [hqueue] at hq
        · exact mem_append_left _ hq
        · rcases mem_append.mp hq with hold | hlast
          · exact mem_append_left _ hold
          · rw [mem_singleton.mp hlast]
            exact mem_append_right _ hpkt
      · intro p hp hcovers
        refine .inl ?_
        rw [hsame.marks]
        exact hcovers
    · obtain rfl := Option.some.inj (hs.symm.trans hs')
      exact hm.packet hok h hs hhub hstep
    · obtain rfl := Option.some.inj (hs.symm.trans hs')
      exact hm.rebase hok h hs hhub hstep
    · rw [hs] at hnone
      cases hnone

theorem bind {psk : Bytes} {hostname : String} {session : UInt64}
    {ciphers capabilities : List String} {deadAfter seq : Nat} :
    StreamInv (bindWithOptions psk hostname session ciphers capabilities deadAfter seq) where
  epochs := .bind
  member := .bind
  data := .bind
  hub := ⟨.new .streamHub 0, rfl, rfl, .nil, .nil, fun _ hp => absurd hp not_mem_nil,
    fun _ hp => absurd hp not_mem_nil⟩

end StreamInv

/-- In every run in which nobody is forgotten and the hub takes rebase signals
safely, the Stream hub hands each packet over at most once, and the packets
of one session and stream of a peer with strictly increasing sequences. -/
theorem delivered_once_in_order {psk : Bytes} {hostname : String} {session : UInt64}
    {ciphers capabilities : List String} {deadAfter seq : Nat} {m : Band}
    (h : GuardedRun Band.step StreamSafe
      (bindWithOptions psk hostname session ciphers capabilities deadAfter seq) m) :
    ∃ hub, m.subscribers[0]? = some hub ∧ (hub.delivered.map (·.wire)).Nodup ∧
      hub.delivered.Pairwise fun p q => SameFlow p q → p.header.sequence < q.header.sequence := by
  have hm : StreamInv m :=
    h.invariant .bind
      fun _ _ _ hm hok hstep => hm.step hok hstep
  obtain ⟨hub, hs, hhub⟩ := hm.hub
  exact ⟨hub, hs, pairwise_map.mpr hhub.distinct, hhub.order⟩

/-! ### A peer with a stream

The peer sends on stream 3 in two sessions; every packet may be replayed. -/

def streamData (session : UInt64) (seq : Nat) : Datagram :=
  peerSends session seq (.stream 3 0 [7])

def streamSent : List Datagram :=
  [peerHello 1 10, streamData 1 11, streamData 1 12, peerHello 2 5, streamData 2 6]

theorem streamSent_genuine : ∀ wire ∈ streamSent, Genuine [1] wire := by
  intro wire hwire
  simp only [streamSent, streamData, peerHello, mem_cons, not_mem_nil, or_false] at hwire
  rcases hwire with rfl | rfl | rfl | rfl | rfl <;> exact ⟨_, peerSends_sentIn _ _ _⟩

/-- The condition of `Undisturbed`, checked for runs without the keepalive loop. -/
def checkUndisturbed (m : Band) (e : Event) : Bool :=
  deliversFrom [1] streamSent m e &&
    match e with
    | .control => ∀ pkt ∈ m.controlQueue.head?, ∀ env ∈ pkt.payload.envelope,
        env.type ≠ typeGoodbye
    | .effect _ => m.peers.entries.length < peerMapSoftCap
    | .keepalive _ => false
    | _ => true

theorem undisturbed_of_check (m : Band) (e : Event) (h : checkUndisturbed m e = true) :
    Undisturbed m e := by
  obtain ⟨hnet, hrest⟩ := Bool.and_eq_true_iff.mp h
  have hgenuine := genuineNet_of_deliversFrom streamSent_genuine hnet
  cases e with
  | recv source wire => exact hgenuine
  | control =>
    have hbye : ∀ pkt ∈ m.controlQueue.head?, ∀ env ∈ pkt.payload.envelope,
        env.type ≠ typeGoodbye := of_decide_eq_true hrest
    exact hbye
  | effect victim => exact fun _ _ _ => of_decide_eq_true hrest
  | keepalive now => cases hrest
  | _ => trivial

/-- The condition of `StreamSafe`, checked. -/
def checkStream (m : Band) (e : Event) : Bool :=
  checkUndisturbed m e &&
    match e with
    | .packet 0 => ∀ hub ∈ m.subscribers[0]?, ∀ q ∈ hub.queue.head?, ∀ p ∈ hub.delivered,
        p.wire = q.wire → p.source = q.source
    | .rebase 0 => ∀ hub ∈ m.subscribers[0]?, ∀ addr ∈ m.nextRebase hub, m.ClearsSafely hub addr
    | _ => true

theorem streamSafe_of_check (m : Band) (e : Event) (h : checkStream m e = true) :
    StreamSafe m e := by
  obtain ⟨hund, hrest⟩ := Bool.and_eq_true_iff.mp h
  refine ⟨undisturbed_of_check m e hund, ?_⟩
  split
  · exact of_decide_eq_true hrest
  · exact of_decide_eq_true hrest
  · trivial

/-- The peer's stream packet arrives and the hub handles it. -/
def streamed (session : UInt64) (seq : Nat) : List Event :=
  arrive (streamData session seq) ++ [.packet 0]

/-- The packets are sent on in order although they are replayed, within the
session and across the restart. -/
theorem delivered_once_in_order_restart : ∃ m hub,
    play Band.step checkStream ownBand ((.openStream 3 :: (arrive (peerHello 1 10) ++ settle 7 ++
      [.rebase 0] ++ streamed 1 11 ++ streamed 1 12 ++ streamed 1 11 ++
      arrive (peerHello 2 5) ++ settle 7 ++ [.recv peerAddr (streamData 1 12), .rebase 0] ++
      streamed 2 6 ++ streamed 2 6)).map fun e _ => e) = some m ∧
      m.subscribers[0]? = some hub ∧
      hub.delivered.map (·.wire) = [streamData 1 11, streamData 1 12, streamData 2 6] ∧
      (hub.delivered.map (·.wire)).Nodup := by
  have hall : (play Band.step checkStream ownBand ((.openStream 3 :: (arrive (peerHello 1 10) ++
      settle 7 ++ [.rebase 0] ++ streamed 1 11 ++ streamed 1 12 ++ streamed 1 11 ++
      arrive (peerHello 2 5) ++ settle 7 ++ [.recv peerAddr (streamData 1 12), .rebase 0] ++
      streamed 2 6 ++ streamed 2 6)).map fun e _ => e)).any
      (fun m => m.subscribers[0]?.any fun hub =>
        hub.delivered.map (·.wire) = [streamData 1 11, streamData 1 12, streamData 2 6]) =
      true := by
    decide +kernel
  obtain ⟨m, hs, htask⟩ := (Option.any_eq_true _ _).mp hall
  obtain ⟨hub, hhub, hwires⟩ := some_of_any htask
  obtain ⟨hub', hhub', hnodup, -⟩ :=
    delivered_once_in_order (guardedRun_play streamSafe_of_check hs)
  obtain rfl := Option.some.inj (hhub.symm.trans hhub')
  exact ⟨m, hub, hs, hhub, hwires, hnodup⟩

/-- The hub hands over a packet of the peer's before it takes the signal that
the peer's HELLO caused. The signal removes the mark of the session it
announces, and a copy of the packet is handed over again. -/
theorem late_rebase_delivers_twice : ∃ m hub,
    GuardedRun Band.step Undisturbed ownBand m ∧ m.subscribers[0]? = some hub ∧
      hub.delivered.map (·.wire) = [streamData 1 11, streamData 1 11] ∧
      ¬ (hub.delivered.map (·.wire)).Nodup ∧
      ¬ hub.delivered.Pairwise fun p q =>
        SameFlow p q → p.header.sequence < q.header.sequence := by
  have hall : (play Band.step checkUndisturbed ownBand ((.openStream 3 ::
      (arrive (peerHello 1 10) ++ settle 7 ++ streamed 1 11 ++ [.rebase 0] ++
      streamed 1 11)).map fun e _ => e)).any
      (fun m => m.subscribers[0]?.any fun hub =>
        hub.delivered.map (·.wire) = [streamData 1 11, streamData 1 11] ∧
        ¬ (hub.delivered.map (·.wire)).Nodup ∧
        ¬ hub.delivered.Pairwise fun p q =>
          SameFlow p q → p.header.sequence < q.header.sequence) = true := by
    decide +kernel
  obtain ⟨m, hs, htask⟩ := (Option.any_eq_true _ _).mp hall
  obtain ⟨hub, hhub, hbad⟩ := some_of_any htask
  exact ⟨m, hub, guardedRun_play undisturbed_of_check hs, hhub, hbad⟩

end Telesthete.Band
