import Telesthete.Proofs.LivePeer
import Telesthete.Proofs.StreamOnce

/-!
# Restarted peers are heard again

When the control task commits a newer epoch for an address it broadcasts the
address, and each task with replay marks drops those it has for the address
when it takes the signal. Once everything is drained, a mark left for the
address should be one of the committed session, so that the first packet of
the session is accepted whatever its sequence.

Two things can go wrong: a task that is 64 signals behind loses the oldest one,
and a packet of an earlier session that a task takes after the signal, from
its own queue, sets the mark again. `Readmitting` is the condition that neither
happens where it matters.
-/

namespace Telesthete.Band

open Telesthete.Lib Telesthete.Crypto Telesthete.Wire List Option

/-- The epoch of a handshake. -/
def Inbound.greetedEpoch (cfg : ControlConfig) (pkt : Inbound) : Option UInt64 :=
  pkt.payload.envelope.bind fun env =>
    if env.isHandshake then (env.greeting cfg pkt.source).map (·.session) else none

/-- The epoch of the last handshake accepted from an address: the one the
control task committed last, whether or not it has forgotten it since. -/
def lastEpoch (m : Band) (addr : SocketAddr) : Option UInt64 :=
  m.reported.reverse.findSome? fun pkt =>
    if pkt.source = addr then pkt.greetedEpoch m.cfg else none

/-- A signal for `addr` that the task has yet to take is broadcast, or will be. -/
def RebaseDue (m : Band) (s : Subscriber) (addr : SocketAddr) : Prop :=
  addr ∈ Broadcast.untaken rebaseCapacity m.rebases s.next ∨ .rebase addr ∈ m.pending

instance (m : Band) (s : Subscriber) (addr : SocketAddr) : Decidable (m.RebaseDue s addr) :=
  inferInstanceAs (Decidable (_ ∨ _))

/-- A signal for `addr` takes no other signal from the task that it needs: if it
overwrites one, the task has no marks to drop on it, or gets it again. -/
def SendsSafely (m : Band) (addr : SocketAddr) (s : Subscriber) : Prop :=
  ∀ lost ∈ Broadcast.overwritten rebaseCapacity m.rebases s.next,
    (∃ key ∈ s.marks.keys, key.1 = lost) →
      lost ∈ Broadcast.untaken rebaseCapacity (m.rebases ++ [addr]) s.next

instance (m : Band) (addr : SocketAddr) (s : Subscriber) : Decidable (m.SendsSafely addr s) :=
  inferInstanceAs (Decidable (∀ lost ∈ Broadcast.overwritten _ _ _, _ → _))

/-- A packet the task would accept is of the session committed last for its
source, or the task has yet to take a signal for it. -/
def HandlesCurrent (m : Band) (s : Subscriber) (pkt : Inbound) : Prop :=
  (s.kind.raise s.marks pkt).isSome = true → ∀ epoch ∈ m.lastEpoch pkt.source,
    epochOf pkt.wire = epoch ∨ m.RebaseDue s pkt.source

-- Checked on the one epoch there may be: the instance for every `UInt64` would try them all.
instance (m : Band) (s : Subscriber) (pkt : Inbound) : Decidable (m.HandlesCurrent s pkt) :=
  decidable_of_iff ((s.kind.raise s.marks pkt).isSome = true →
    (m.lastEpoch pkt.source).all fun epoch =>
      epochOf pkt.wire = epoch ∨ m.RebaseDue s pkt.source)
    (by simp [HandlesCurrent, Option.all_eq_true])

/-- No needed signal is overwritten, and no task falls back into an earlier
session after it took the signal for the new one. -/
def Readmitting (m : Band) : Event → Prop
  | .effect _ => ∀ addr, m.pending.head? = some (.rebase addr) →
      ∀ s ∈ m.subscribers, m.SendsSafely addr s
  | .packet i => ∀ s ∈ m.subscribers[i]?, ∀ pkt ∈ s.queue.head?, m.HandlesCurrent s pkt
  | _ => True

/-- The mark was set by a packet of the session. -/
def Subscriber.Stems (s : Subscriber) (key : MarkKey) (mark : Nat) (epoch : UInt64) : Prop :=
  ∃ p ∈ s.accepted, s.kind.markKey p = key ∧ p.header.sequence = mark ∧ epochOf p.wire = epoch

/-- What the control task has committed is what it committed last. -/
def Committed (m : Band) : Prop :=
  ∀ addr s, m.control.sessions.lookup addr = some s → m.lastEpoch addr = some s

section Commit

variable {m m' : Band} {pkt : Inbound}
variable {env : ControlEnvelope}

theorem greetedEpoch_of_greeting {cfg : ControlConfig} {g : Greeting}
    (henv : pkt.payload.envelope = some env) (hhand : env.isHandshake = true)
    (hg : env.greeting cfg pkt.source = some g) : pkt.greetedEpoch cfg = some g.session := by
  rw [Inbound.greetedEpoch, henv, Option.bind_some, if_pos hhand, hg]
  rfl

theorem receive_reported {t : ControlTask} {p : Inbound}
    (hp : p ∈ (t.receive pkt env).2.filterMap Effect.reported) : p = pkt := by
  rcases ControlTask.receive_cases t pkt env with ⟨-, hr⟩ | ⟨-, hr | ⟨ev, hr⟩⟩ <;> rw [hr] at hp
  · exact mem_singleton.mp hp
  · cases hp
  · exact mem_singleton.mp hp

/-- What the control task takes is reported after all before it. -/
theorem taken_lastEpoch (pkt : Inbound) (rest : List Inbound) (hpend : m.pending = [])
    (addr : SocketAddr) :
    (m.taken pkt rest).lastEpoch addr =
      (((m.control.handle m.cfg m.isLive pkt).2.filterMap Effect.reported).reverse.findSome?
        fun pkt => if pkt.source = addr then pkt.greetedEpoch m.cfg else none).or
        (m.lastEpoch addr) := by
  rw [lastEpoch, taken_reported hpend, reverse_append, findSome?_append]
  rfl

/-- A newer epoch is committed together with the signal. -/
theorem taken_committed (hm : m.Committed) (hpend : m.pending = []) (pkt : Inbound)
    (rest : List Inbound) :
    (m.taken pkt rest).Committed ∧ ∀ addr, (m.taken pkt rest).lastEpoch addr = m.lastEpoch addr ∨
      .rebase addr ∈ (m.taken pkt rest).pending := by
  have hhandled := ControlTask.handle_handled m.cfg m.isLive m.control pkt
  have hlast := taken_lastEpoch pkt rest hpend
  have hpruned : ∀ addr s, (m.control.prune m.isLive).sessions.lookup addr = some s →
      m.lastEpoch addr = some s :=
    fun addr s hs => hm addr s ((m.control.prune_lookup m.isLive addr).1 s hs)
  suffices hr : ∀ r, ControlTask.Handled m.cfg (m.control.prune m.isLive) pkt r →
      ∀ last : SocketAddr → Option UInt64,
        (∀ addr, last addr = ((r.2.filterMap Effect.reported).reverse.findSome?
          fun pkt => if pkt.source = addr then pkt.greetedEpoch m.cfg else none).or
          (m.lastEpoch addr)) →
        (∀ addr s, r.1.sessions.lookup addr = some s → last addr = some s) ∧
          ∀ addr, last addr = m.lastEpoch addr ∨ .rebase addr ∈ r.2 from
    hr _ hhandled _ hlast
  intro r hr last hlast
  cases hr with
  | drop =>
    have hsame : ∀ addr, last addr = m.lastEpoch addr := hlast
    exact ⟨fun addr s hs => (hsame addr).trans (hpruned addr s hs), fun addr => .inl (hsame addr)⟩
  | @restart env g henv hhand hg hnewer =>
    have hgreeted := greetedEpoch_of_greeting henv hhand hg
    have hlast' : ∀ addr, last addr =
        if pkt.source = addr then some g.session else m.lastEpoch addr := by
      intro addr
      rw [hlast, filterMap_cons_none rfl, Greeting.welcome_reported]
      split <;> simp_all
    refine ⟨fun addr s hs => ?_, fun addr => ?_⟩
    · simp only [ControlTask.advance, ControlTask.restart, lookup_insert_ite] at hs
      rw [hlast']
      split at hs
      · rename_i haddr
        rw [if_pos haddr.symm]
        exact hs
      · rename_i haddr
        rw [if_neg (Ne.symm haddr)]
        exact hpruned addr s hs
    · rw [hlast']
      split
      · rename_i haddr
        subst haddr
        exact .inr mem_cons_self
      · exact .inl rfl
  | @refresh env g henv hhand hg hsession hfresh =>
    have hgreeted := greetedEpoch_of_greeting henv hhand hg
    have hsame : ∀ addr, last addr = m.lastEpoch addr := by
      intro addr
      rw [hlast, Greeting.welcome_reported]
      by_cases haddr : pkt.source = addr
      · subst haddr
        rw [hpruned _ _ hsession]
        simp [hgreeted]
      · simp [haddr]
    exact ⟨fun addr s hs => (hsame addr).trans (hpruned addr s hs), fun addr => .inl (hsame addr)⟩
  | @other env henv hhand hfresh =>
    have hgreeted : pkt.greetedEpoch m.cfg = none := by
      rw [Inbound.greetedEpoch, henv, Option.bind_some, hhand]
      rfl
    have hsame : ∀ addr, last addr = m.lastEpoch addr := by
      intro addr
      rw [hlast, findSome?_eq_none_iff.mpr, Option.none_or]
      intro p hp
      rw [receive_reported (mem_reverse.mp hp), hgreeted]
      exact ite_self none
    refine ⟨fun addr s hs => (hsame addr).trans (hpruned addr s ?_), fun addr => .inl (hsame addr)⟩
    rcases ControlTask.receive_cases
      ((m.control.prune m.isLive).advance pkt.source pkt.header.sequence) pkt env with
      ⟨-, hr⟩ | ⟨-, hr | ⟨ev, hr⟩⟩ <;> rw [hr] at hs
    · simp only [ControlTask.forget, ControlTask.advance, lookup_erase_ite] at hs
      exact (ite_none_left_eq_some.mp hs).2
    · exact hs
    · exact hs

end Commit

/-- An effect broadcasts an address or leaves the channel. -/
theorem perform_rebases {m m' : Band} {victim : SocketAddr} {effect : Effect}
    (h : m.perform victim effect = some m') :
    (∃ addr, effect = .rebase addr ∧ m'.rebases = m.rebases ++ [addr]) ∨
      (∀ addr, effect ≠ .rebase addr) ∧ m'.rebases = m.rebases := by
  cases effect with
  | rebase addr =>
    cases h
    exact .inl ⟨addr, rfl, rfl⟩
  | makeRoom addr =>
    refine .inr ⟨by rintro _ ⟨⟩, ?_⟩
    obtain ⟨peers, rfl⟩ := perform_makeRoom h
    rfl
  | _ =>
    cases h
    exact .inr ⟨by rintro _ ⟨⟩, rfl⟩

/-- What holds of the marks of every task. -/
structure ReadmitInv (m : Band) : Prop where
  committed : m.Committed
  passed : ∀ (i : Nat) (s : Subscriber), m.subscribers[i]? = some s → s.next ≤ m.rebases.length
  marks : ∀ (i : Nat) (s : Subscriber), m.subscribers[i]? = some s → ∀ key mark,
    s.marks.lookup key = some mark → ∀ epoch, m.lastEpoch key.1 = some epoch →
      s.Stems key mark epoch ∨ m.RebaseDue s key.1

namespace ReadmitInv

variable {m m' : Band} {e : Event}
variable {victim : SocketAddr} {effect : Effect} {rest : List Effect} {i : Nat} {s s' : Subscriber}

theorem taken (hm : ReadmitInv m) (hpend : m.pending = []) (pkt : Inbound)
    (rest : List Inbound) : ReadmitInv (m.taken pkt rest) := by
  obtain ⟨hcommitted, hlast⟩ := taken_committed hm.committed hpend pkt rest
  refine ⟨hcommitted, hm.passed, fun i s hs key mark hmark epoch hepoch => ?_⟩
  rcases hlast key.1 with hsame | hdue
  · rw [hsame] at hepoch
    rcases hm.marks i s hs key mark hmark epoch hepoch with hstems | huntaken | hpending
    · exact .inl hstems
    · exact .inr (.inl huntaken)
    · rw [hpend] at hpending
      cases hpending
  · exact .inr (.inr hdue)

/-- A signal that a task needs is not lost when an effect is performed. -/
theorem due_performed {key : MarkKey} {mark : Nat} (hm : ReadmitInv m)
    (hpend : m.pending = effect :: rest)
    (hok : ∀ addr, effect = .rebase addr → ∀ s ∈ m.subscribers, m.SendsSafely addr s)
    (h : { m with pending := rest }.perform victim effect = some m')
    (hs : m.subscribers[i]? = some s) (hmark : s.marks.lookup key = some mark)
    (hdue : m.RebaseDue s key.1) : m'.RebaseDue s key.1 := by
  obtain ⟨-, -, hpend'⟩ := perform_frame h
  rcases perform_rebases h with ⟨addr, rfl, hsent⟩ | ⟨hne, hsent⟩ <;>
    rw [RebaseDue, hsent, hpend']
  · rcases hdue with huntaken | hpending
    · refine .inl ?_
      rcases Broadcast.mem_untaken_append (b := addr) huntaken with hkept | hlost
      · exact hkept
      · exact hok addr rfl s (mem_of_getElem? hs) key.1 hlost
          ⟨key, AList.lookup_isSome.mp (by rw [hmark]; rfl), rfl⟩
    · rw [hpend] at hpending
      rcases mem_cons.mp hpending with heq | hrest
      · obtain rfl := Effect.rebase.inj heq
        exact .inl (Broadcast.mem_untaken_self (by decide) (hm.passed i s hs))
      · exact .inr hrest
  · refine hdue.imp_right fun hpending => ?_
    rw [hpend] at hpending
    exact (mem_cons.mp hpending).resolve_left (Ne.symm (hne key.1))

theorem performed (hm : ReadmitInv m) (hpend : m.pending = effect :: rest)
    (hok : ∀ addr, effect = .rebase addr → ∀ s ∈ m.subscribers, m.SendsSafely addr s)
    (h : { m with pending := rest }.perform victim effect = some m') : ReadmitInv m' := by
  obtain ⟨hcfg, hctl, -⟩ := perform_frame h
  have hsubs : m'.subscribers = m.subscribers := (perform_queues h).2.2.2.2
  have hlast : ∀ addr, m'.lastEpoch addr = m.lastEpoch addr := by
    intro addr
    rw [lastEpoch, lastEpoch, perform_reported hpend h, hcfg]
  refine ⟨fun addr s hs => ?_, fun i s hs => ?_, fun i s hs key mark hmark epoch hepoch => ?_⟩
  · rw [hlast]
    rw [hctl] at hs
    exact hm.committed addr s hs
  · rw [hsubs] at hs
    have hpassed := hm.passed i s hs
    rcases perform_rebases h with ⟨addr, -, hsent⟩ | ⟨-, hsent⟩ <;> rw [hsent]
    · rw [length_append]
      exact Nat.le_add_right_of_le hpassed
    · exact hpassed
  · rw [hsubs] at hs
    rw [hlast] at hepoch
    exact (hm.marks i s hs key mark hmark epoch hepoch).imp_right
      (hm.due_performed hpend hok h hs hmark)

/-- A task handles a packet: the mark it sets is of the current session. -/
theorem task_packet (hm : ReadmitInv m)
    (hs : m.subscribers[i]? = some s) (hok : ∀ pkt ∈ s.queue.head?, m.HandlesCurrent s pkt)
    (hstep : s.onPacket = some s') :
    s'.next = s.next ∧ ∀ key mark, s'.marks.lookup key = some mark → ∀ epoch,
      m.lastEpoch key.1 = some epoch → s'.Stems key mark epoch ∨ m.RebaseDue s key.1 := by
  obtain ⟨pkt, hqueue, hhandle⟩ := Subscriber.onPacket_eq_some hstep
  rcases Subscriber.handle_cases { s with queue := s'.queue } pkt with
    heq | ⟨marks, hadm, heq⟩ <;> rw [heq] at hhandle <;> rw [hhandle]
  · exact ⟨rfl, hm.marks i s hs⟩
  · refine ⟨rfl, fun key mark hmark epoch hepoch => ?_⟩
    have hcurrent := hok pkt (by rw [hqueue]; rfl)
      (isSome_iff_exists.mpr ⟨marks, hadm⟩)
    obtain ⟨-, rfl⟩ := HighWater.raise_eq_some.mp (TaskKind.raiseMark_of_raise hadm)
    rw [lookup_insert_ite] at hmark
    split at hmark
    · -- the mark this packet sets
      rename_i hkey
      subst hkey
      rw [TaskKind.markKey_fst] at hepoch ⊢
      refine (hcurrent epoch hepoch).imp_left fun hwire => ?_
      exact ⟨pkt, mem_append_right _ (mem_singleton_self pkt), rfl,
        Option.some.inj hmark, hwire⟩
    · refine (hm.marks i s hs key mark hmark epoch hepoch).imp_left ?_
      rintro ⟨p, hp, hstems⟩
      exact ⟨p, mem_append_left _ hp, hstems⟩

/-- A task takes a signal: the marks it was for are gone. -/
theorem task_rebase (hm : ReadmitInv m)
    (hs : m.subscribers[i]? = some s) (hstep : s.onRebase m.rebases = some s') :
    s'.next ≤ m.rebases.length ∧ ∀ key mark, s'.marks.lookup key = some mark → ∀ epoch,
      m.lastEpoch key.1 = some epoch → s'.Stems key mark epoch ∨ m.RebaseDue s' key.1 := by
  obtain ⟨-, hkind, haccepted, -, hmarks⟩ := Subscriber.onRebase_eq_some hstep
  have hstems : ∀ key mark epoch, s.Stems key mark epoch → s'.Stems key mark epoch := by
    intro key mark epoch h
    rw [Subscriber.Stems, haccepted, hkind]
    exact h
  rcases hmarks with ⟨hrecv, hmarks⟩ | ⟨addr, hrecv, hmarks⟩
  · refine ⟨Broadcast.recv_le hrecv, fun key mark hmark epoch hepoch => ?_⟩
    rw [hmarks] at hmark
    refine (hm.marks i s hs key mark hmark epoch hepoch).imp (hstems key mark epoch) ?_
    rw [RebaseDue, RebaseDue, Broadcast.untaken_of_lag hrecv]
    exact id
  · refine ⟨Broadcast.recv_le hrecv, fun key mark hmark epoch hepoch => ?_⟩
    rw [hmarks, lookup_retain] at hmark
    obtain ⟨hkey, hmark⟩ := ite_none_right_eq_some.mp hmark
    refine (hm.marks i s hs key mark hmark epoch hepoch).imp (hstems key mark epoch) ?_
    refine Or.imp_left fun huntaken => ?_
    rw [rebaseRecv] at hrecv
    rw [Broadcast.untaken_of_value hrecv] at huntaken
    exact (mem_cons.mp huntaken).resolve_left (of_decide_eq_true hkey)

theorem quiet (hm : ReadmitInv m) (hok : Readmitting m e) (h : m.step e = some m')
    (hq : Quiet m e m') : ReadmitInv m' := by
  have hlast : ∀ addr, m'.lastEpoch addr = m.lastEpoch addr := by
    intro addr
    rw [lastEpoch, lastEpoch, reported, reported, hq.events, hq.pending, hq.cfg]
  have hdue : ∀ s addr, m'.RebaseDue s addr = m.RebaseDue s addr := by
    intro s addr
    rw [RebaseDue, RebaseDue, hq.rebases, hq.pending]
  have htask : ∀ (i : Nat) (s' : Subscriber), m'.subscribers[i]? = some s' →
      s'.next ≤ m.rebases.length ∧ ∀ key mark, s'.marks.lookup key = some mark → ∀ epoch,
        m.lastEpoch key.1 = some epoch → s'.Stems key mark epoch ∨ m.RebaseDue s' key.1 := by
    intro i s' hs'
    rcases step_subscriber h hs' with ⟨s, hs, hsame, -⟩ | ⟨s, rfl, hs, hstep⟩ |
      ⟨s, rfl, hs, hstep⟩ | ⟨kind, -, rfl⟩
    · have hmarks := hm.marks i s hs
      simp only [Subscriber.Stems, RebaseDue, hsame.marks, hsame.accepted, hsame.kind, hsame.next]
        at hmarks ⊢
      exact ⟨hm.passed i s hs, hmarks⟩
    · obtain ⟨hnext, hmarks⟩ := hm.task_packet hs (hok s hs) hstep
      simp only [RebaseDue, hnext] at hmarks ⊢
      exact ⟨hm.passed i s hs, hmarks⟩
    · exact hm.task_rebase hs hstep
    · exact ⟨le_rfl, fun _ _ hmark => absurd hmark.symm (Option.some_ne_none _)⟩
  refine ⟨fun addr s hs => ?_, fun i s hs => ?_, fun i s hs key mark hmark epoch hepoch => ?_⟩
  · rw [hlast]
    rw [hq.control] at hs
    exact hm.committed addr s hs
  · rw [hq.rebases]
    exact (htask i s hs).1
  · rw [hdue]
    rw [hlast] at hepoch
    exact (htask i s hs).2 key mark hmark epoch hepoch

theorem step (hm : ReadmitInv m) (hok : Readmitting m e) (h : m.step e = some m') :
    ReadmitInv m' := by
  rcases step_cases h with
    ⟨pkt, rest, rfl, hpend, -, rfl⟩ | ⟨victim, effect, rest, rfl, hpend, hp⟩ | hq
  · exact hm.taken hpend pkt rest
  · refine hm.performed hpend ?_ hp
    rintro addr rfl
    exact hok addr (by rw [hpend]; rfl)
  · exact hm.quiet hok h hq

theorem bind {psk : Bytes} {hostname : String} {session : UInt64}
    {ciphers capabilities : List String} {deadAfter seq : Nat} :
    ReadmitInv (bindWithOptions psk hostname session ciphers capabilities deadAfter seq) := by
  have hnew : ∀ (i : Nat) (s : Subscriber), (bindWithOptions psk hostname session ciphers
      capabilities deadAfter seq).subscribers[i]? = some s → s.next = 0 ∧ s.marks = ∅ := by
    intro i s hs
    have hmem : s ∈ [Subscriber.new .streamHub 0, .new .channelHub 0] := mem_of_getElem? hs
    rcases mem_pair.mp hmem with rfl | rfl <;> exact ⟨rfl, rfl⟩
  refine ⟨fun _ _ hs => absurd hs.symm (Option.some_ne_none _), fun i s hs => ?_,
    fun i s hs key mark hmark => ?_⟩
  · exact le_of_eq (hnew i s hs).1
  · rw [(hnew i s hs).2] at hmark
    cases hmark

end ReadmitInv

/-- Nothing is on its way in the band, and every task has taken all its packets
and all its signals. -/
def Drained (m : Band) : Prop :=
  m.inTransit = [] ∧ m.controlQueue = [] ∧ m.pending = [] ∧
    ∀ s ∈ m.subscribers, s.queue = [] ∧ rebaseRecv m.rebases s.next = none

instance (m : Band) : Decidable m.Drained :=
  inferInstanceAs (Decidable (_ ∧ _ ∧ _ ∧ ∀ s ∈ m.subscribers, _))

/-- In every run in which no needed signal is overwritten and no task falls back
into an earlier session, once everything is drained every mark a task has for
an address is of the session committed last, and the first packet of that
session is accepted whatever its sequence. -/
theorem readmitted_of_drained {psk : Bytes} {hostname : String} {session : UInt64}
    {ciphers capabilities : List String} {deadAfter seq : Nat} {m : Band} {addr : SocketAddr}
    {epoch : UInt64}
    (h : GuardedRun Band.step Readmitting
      (bindWithOptions psk hostname session ciphers capabilities deadAfter seq) m)
    (hdrained : m.Drained) (hepoch : m.lastEpoch addr = some epoch) :
    ∀ s ∈ m.subscribers,
      (∀ key mark, s.marks.lookup key = some mark → key.1 = addr → ∃ p ∈ s.accepted,
        s.kind.markKey p = key ∧ p.header.sequence = mark ∧ epochOf p.wire = epoch) ∧
      ∀ q : Inbound, q.source = addr → (s.kind = .streamHub → q.payload.isEmpty = false) →
        (∀ p ∈ s.accepted, s.kind.markKey p = s.kind.markKey q → epochOf p.wire ≠ epoch) →
        (s.handle q).accepted = s.accepted ++ [q] := by
  have hm : ReadmitInv m :=
    h.invariant .bind
      fun _ _ _ hm hok hstep => hm.step hok hstep
  obtain ⟨-, -, hpend, htasks⟩ := hdrained
  intro s hs
  obtain ⟨i, hi⟩ := mem_iff_getElem?.mp hs
  have hmarks : ∀ key mark, s.marks.lookup key = some mark → key.1 = addr →
      s.Stems key mark epoch := by
    rintro key mark hmark rfl
    rcases hm.marks i s hi key mark hmark epoch hepoch with hstems | huntaken | hpending
    · exact hstems
    · rw [Broadcast.untaken_of_none (htasks s hs).2] at huntaken
      cases huntaken
    · rw [hpend] at hpending
      cases hpending
  refine ⟨hmarks, fun q hsource hpayload hfirst => ?_⟩
  have hnone : s.marks.lookup (s.kind.markKey q) = none := by
    refine eq_none_iff_forall_ne_some.mpr fun mark hmark => ?_
    obtain ⟨p, hp, hkey, -, hwire⟩ :=
      hmarks _ mark hmark (TaskKind.markKey_fst.trans hsource)
    exact hfirst p hp hkey hwire
  rw [Subscriber.handle, TaskKind.raise_of_lookup_none hnone hpayload]

/-! ### A stream packet across a restart

The last packet of the peer's first session has a higher sequence than the
first one of its second session. -/

/-- The first stream packet of the second session, as the hub gets it. -/
def firstPacket : Inbound :=
  ⟨peerAddr, (streamData 2 6).header, (streamData 2 6).ciphertext.plaintext, streamData 2 6⟩

/-- The condition of `Readmitting`, checked. -/
def checkReadmitting (m : Band) : Event → Bool
  | .effect _ =>
    match m.pending.head? with
    | some (.rebase addr) => ∀ s ∈ m.subscribers, m.SendsSafely addr s
    | _ => true
  | .packet i => ∀ s ∈ m.subscribers[i]?, ∀ pkt ∈ s.queue.head?, m.HandlesCurrent s pkt
  | _ => true

theorem readmitting_of_check (m : Band) (e : Event) (h : checkReadmitting m e = true) :
    Readmitting m e := by
  cases e with
  | effect victim =>
    intro addr hhead
    rw [checkReadmitting, hhead] at h
    exact of_decide_eq_true h
  | packet i =>
    have hall : ∀ s ∈ m.subscribers[i]?, ∀ pkt ∈ s.queue.head?, m.HandlesCurrent s pkt :=
      of_decide_eq_true h
    exact hall
  | _ => trivial

/-- Both hubs take their next signal. -/
def rebased : List Event := [.rebase 0, .rebase 1]

theorem readmitted_of_drained_restart : ∃ m s,
    play Band.step checkReadmitting ownBand ((arrive (peerHello 1 10) ++ settle 7 ++ rebased ++
      streamed 1 12 ++ arrive (peerHello 2 5) ++ settle 7 ++ rebased).map fun e _ => e) = some m ∧
      m.Drained ∧ m.lastEpoch peerAddr = some 2 ∧ m.subscribers[0]? = some s ∧
      s.accepted.map (·.wire) = [streamData 1 12] ∧
      (s.handle firstPacket).accepted = s.accepted ++ [firstPacket] := by
  have hall : (play Band.step checkReadmitting ownBand ((arrive (peerHello 1 10) ++ settle 7 ++
      rebased ++ streamed 1 12 ++ arrive (peerHello 2 5) ++ settle 7 ++ rebased).map
      fun e _ => e)).any (fun m => m.Drained ∧ m.lastEpoch peerAddr = some 2 ∧
        m.subscribers[0]?.any fun s => s.accepted.map (·.wire) = [streamData 1 12] ∧
          ∀ p ∈ s.accepted, epochOf p.wire ≠ 2) = true := by
    decide +kernel
  obtain ⟨m, hplay, hdrained, hlast, htask⟩ := some_of_any hall
  obtain ⟨s, hs, haccepted, hold⟩ := some_of_any htask
  have hfirst := (readmitted_of_drained (guardedRun_play readmitting_of_check hplay) hdrained
    hlast s (mem_of_getElem? hs)).2 firstPacket rfl (fun _ => by decide)
    fun p hp _ => hold p hp
  exact ⟨m, s, hplay, hdrained, hlast, hs, haccepted, hfirst⟩

/-- A packet of the first session waits in the Stream hub's queue while the peer
restarts. The hub takes the signal first and the packet after it, and then
drops the first packet of the new session as stale. -/
theorem queued_packet_blocks_restart : ∃ m s,
    GuardedRun Band.step GenuineNet ownBand m ∧ m.Drained ∧
      m.control.sessions.lookup peerAddr = some 2 ∧ m.subscribers[0]? = some s ∧
      s.accepted.map (·.wire) = [streamData 1 12] ∧
      s.marks.lookup (peerAddr, some 3) = some 12 ∧
      m.transport.decode peerAddr (streamData 2 6) = some firstPacket ∧
      (s.handle firstPacket).accepted = s.accepted := by
  have hall : (play Band.step (deliversFrom [1] streamSent) ownBand ((arrive (peerHello 1 10) ++
      settle 7 ++ rebased ++ arrive (streamData 1 12) ++ arrive (peerHello 2 5) ++ settle 7 ++
      rebased ++ [Event.packet 0]).map fun e _ => e)).any (fun m => m.Drained ∧
        m.control.sessions.lookup peerAddr = some 2 ∧
        m.transport.decode peerAddr (streamData 2 6) = some firstPacket ∧
        m.subscribers[0]?.any fun s => s.accepted.map (·.wire) = [streamData 1 12] ∧
          s.marks.lookup (peerAddr, some 3) = some 12 ∧
          (s.handle firstPacket).accepted = s.accepted) = true := by
    decide +kernel
  obtain ⟨m, hplay, hdrained, hsession, hdecode, htask⟩ := some_of_any hall
  obtain ⟨s, hs, haccepted, hmark, hstale⟩ := some_of_any htask
  exact ⟨m, s, guardedRun_play (fun m e h => genuineNet_of_deliversFrom streamSent_genuine h) hplay,
    hdrained, hsession, hs, haccepted, hmark, hdecode, hstale⟩

end Telesthete.Band
