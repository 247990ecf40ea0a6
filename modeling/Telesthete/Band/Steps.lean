import Telesthete.Band.Runtime
import Telesthete.Lib.NumberedLog

/-!
# What one step of a band can do

Most events touch a corner of the band. `Band.Happens` says once what each of
them is, and what follows reads it off. For the control plane there are
three kinds of steps (`Band.step_cases`): the control task takes a packet,
it performs an effect, or something else happens, and then nothing the
control task owns changes and the key tables only lose entries. For the
tasks with replay marks, `Band.step_subscriber` says what can happen to each
of them. `Band.AllInbound.step` follows packets through the queues.
-/

namespace Telesthete.Band

open Telesthete.Lib Telesthete.Crypto Telesthete.Wire List Option

variable {t : Transport} {victim : SocketAddr} {effect : Effect} {i j : Nat} {pkt : Inbound}
  {s' : Subscriber} {transit : List Inbound}

/-- The same transport, up to liveness and the sequence counter. -/
structure Transport.SameKeys (t t' : Transport) : Prop where
  baseKey : t'.baseKey = t.baseKey
  sessionKey : t'.sessionKey = t.sessionKey
  bandId : t'.bandId = t.bandId
  peerKeys : t'.peerKeys = t.peerKeys
  sendKeys : t'.sendKeys = t.sendKeys

theorem Transport.SameKeys.refl : t.SameKeys t := ⟨rfl, rfl, rfl, rfl, rfl⟩

/-- The same transport, up to liveness, the sequence counter and keys that
were forgotten. -/
structure Transport.Sub (t t' : Transport) : Prop where
  baseKey : t'.baseKey = t.baseKey
  sessionKey : t'.sessionKey = t.sessionKey
  bandId : t'.bandId = t.bandId
  peerKeys : ∀ addr key, t'.peerKeys.lookup addr = some key → t.peerKeys.lookup addr = some key
  sendKeys : ∀ addr key, t'.sendKeys.lookup addr = some key → t.sendKeys.lookup addr = some key

theorem Transport.SameKeys.sub {t t' : Transport} (h : t.SameKeys t') : t.Sub t' where
  baseKey := h.baseKey
  sessionKey := h.sessionKey
  bandId := h.bandId
  peerKeys := fun _ _ hk => h.peerKeys ▸ hk
  sendKeys := fun _ _ hk => h.sendKeys ▸ hk

theorem Transport.sub_forget (op : Transport.Forget) : t.Sub (t.forget op) := by
  cases op with
  | lastSeen addr => exact ⟨rfl, rfl, rfl, fun _ _ h => h, fun _ _ h => h⟩
  | peerKey addr =>
    refine ⟨rfl, rfl, rfl, ?_, fun _ _ h => h⟩
    intro a key h
    rw [Transport.forget, lookup_erase_ite] at h
    exact (ite_none_left_eq_some.mp h).2
  | sendKey addr =>
    refine ⟨rfl, rfl, rfl, fun _ _ h => h, ?_⟩
    intro a key h
    rw [Transport.forget, lookup_erase_ite] at h
    exact (ite_none_left_eq_some.mp h).2

/-- A step in which the control task does nothing. -/
structure Quiet (m : Band) (e : Event) (m' : Band) : Prop where
  cfg : m'.cfg = m.cfg
  control : m'.control = m.control
  pending : m'.pending = m.pending
  events : m'.events = m.events
  rebases : m'.rebases = m.rebases
  /-- Keys are only forgotten, by the keepalive loop. -/
  keys : m.transport.SameKeys m'.transport ∨
    ∃ now op rest, e = .keepalive now ∧ m.keepalive = .evicting (op :: rest) ∧
      m'.transport = m.transport.forget op
  outbox : ∀ out ∈ m'.outbox, out ∈ m.outbox ∨
    ∃ dest msg, out = (dest, (m.transport.send (Message.outbound m.cfg.session dest msg)).2)

namespace Quiet

variable {m m' : Band} {e : Event}

theorem sub (h : Quiet m e m') : m.transport.Sub m'.transport := by
  rcases h.keys with hsame | ⟨now, op, rest, -, -, hforget⟩
  · exact hsame.sub
  · rw [hforget]
    exact Transport.sub_forget op

theorem sends (dest : SocketAddr) (msg : Message) :
    Quiet m e (m.send (msg.outbound m.cfg.session dest)) := by
  refine ⟨rfl, rfl, rfl, rfl, rfl, .inl ⟨rfl, rfl, rfl, rfl, rfl⟩, ?_⟩
  intro out hout
  rcases mem_append.mp hout with hold | hnew
  · exact .inl hold
  · have hdest : (msg.outbound m.cfg.session dest).dest = dest := by cases msg <;> rfl
    rw [mem_singleton.mp hnew]
    exact .inr ⟨dest, msg, Prod.ext hdest rfl⟩

theorem keepaliveStep (now : Nat) : Quiet m (.keepalive now) (m.keepaliveStep now) := by
  unfold Band.keepaliveStep
  split
  case h_2 addr rest _ =>
    obtain ⟨hcfg, hctl, hpend, hev, hreb, hkeys, hout⟩ :=
      sends (m := m) (e := .keepalive now) addr .keepalive
    exact ⟨hcfg, hctl, hpend, hev, hreb, hkeys, hout⟩
  case h_5 op rest hevict =>
    exact ⟨rfl, rfl, rfl, rfl, rfl, .inr ⟨now, op, rest, rfl, hevict, rfl⟩, fun _ h => .inl h⟩
  all_goals exact ⟨rfl, rfl, rfl, rfl, rfl, .inl .refl, fun _ h => .inl h⟩

end Quiet

variable {m m' : Band} {e : Event}

/-- The state after the control task took `pkt`. -/
def taken (m : Band) (pkt : Inbound) (rest : List Inbound) : Band :=
  { m with
    control := (m.control.handle m.cfg m.isLive pkt).1
    pending := (m.control.handle m.cfg m.isLive pkt).2
    controlQueue := rest }

/-- What each event does, when it can happen. -/
inductive Happens (m : Band) : Event → Band → Prop
  | ignored {source : SocketAddr} {wire : Datagram} : Happens m (.recv source wire) m
  | decoded {source : SocketAddr} {wire : Datagram} {pkt : Inbound}
      (hdec : m.transport.decode source wire = some pkt) :
      Happens m (.recv source wire) { m with recvLoop := .decoded pkt }
  | seen {now : Nat} {pkt : Inbound} (hloop : m.recvLoop = .decoded pkt) :
      Happens m (.seen now)
        { m with recvLoop := .seen pkt, transport := m.transport.refresh pkt.source now }
  | dispatch {pkt : Inbound} (hloop : m.recvLoop = .seen pkt) :
      Happens m .dispatch ({ m with recvLoop := .idle }.route pkt)
  | control {pkt : Inbound} {rest : List Inbound} (hpend : m.pending = [])
      (hqueue : m.controlQueue = pkt :: rest) : Happens m .control (m.taken pkt rest)
  | effect {victim : SocketAddr} {effect : Effect} {rest : List Effect} {m' : Band}
      (hpend : m.pending = effect :: rest)
      (hp : { m with pending := rest }.perform victim effect = some m') :
      Happens m (.effect victim) m'
  | keepalive {now : Nat} : Happens m (.keepalive now) (m.keepaliveStep now)
  | boardDemux {pkt : Inbound} {rest : List Inbound} (hqueue : m.boardQueue = pkt :: rest) :
      Happens m .boardDemux ({ m with boardQueue := rest }.demux m.boards pkt)
  | dropDemux {pkt : Inbound} {rest : List Inbound} (hqueue : m.dropQueue = pkt :: rest) :
      Happens m .dropDemux ({ m with dropQueue := rest }.demux m.drops pkt)
  | packet {i : Nat} {s s' : Subscriber} (hs : m.subscribers[i]? = some s)
      (hstep : s.onPacket = some s') :
      Happens m (.packet i) { m with subscribers := m.subscribers.set i s' }
  | rebase {i : Nat} {s s' : Subscriber} (hs : m.subscribers[i]? = some s)
      (hstep : s.onRebase m.rebases = some s') :
      Happens m (.rebase i) { m with subscribers := m.subscribers.set i s' }
  | openStream {id : UInt16} : Happens m (.openStream id) (m.openOutlet 0 (none, id))
  | openChannel {peer : SocketAddr} {id : UInt16} :
      Happens m (.openChannel peer id) (m.openOutlet 1 (some peer, id))
  | openBoard {id : UInt16} :
      Happens m (.openBoard id)
        { m.spawn .board with boards := m.boards.insert id m.subscribers.length }
  | openDrop {id : UInt16} :
      Happens m (.openDrop id)
        { m.spawn .drop with drops := m.drops.insert id m.subscribers.length }
  | send {dest : SocketAddr} {msg : Message} :
      Happens m (.send dest msg) (m.send (msg.outbound m.cfg.session dest))

theorem step_happens (h : m.step e = some m') : Happens m e m' := by
  cases e with
  | recv source wire =>
    simp only [step] at h
    split at h
    · split at h
      · exact Option.some.inj h ▸ .ignored
      · next hdec => exact Option.some.inj h ▸ .decoded hdec
    · cases h
  | seen now =>
    simp only [step] at h
    split at h
    · next hloop => exact Option.some.inj h ▸ .seen hloop
    · cases h
  | dispatch =>
    simp only [step] at h
    split at h
    · next hloop => exact Option.some.inj h ▸ .dispatch hloop
    · cases h
  | control =>
    simp only [step] at h
    split at h
    · next hpend hqueue => exact Option.some.inj h ▸ .control hpend hqueue
    · cases h
  | effect victim =>
    simp only [step] at h
    split at h
    · cases h
    · next hpend => exact .effect hpend h
  | boardDemux =>
    simp only [step] at h
    split at h
    · cases h
    · next hqueue => exact Option.some.inj h ▸ .boardDemux hqueue
  | dropDemux =>
    simp only [step] at h
    split at h
    · cases h
    · next hqueue => exact Option.some.inj h ▸ .dropDemux hqueue
  | packet i =>
    obtain ⟨s', hs', rfl⟩ := map_eq_some_iff.mp h
    obtain ⟨s, hs, hstep⟩ := bind_eq_some_iff.mp hs'
    exact .packet hs hstep
  | rebase i =>
    obtain ⟨s', hs', rfl⟩ := map_eq_some_iff.mp h
    obtain ⟨s, hs, hstep⟩ := bind_eq_some_iff.mp hs'
    exact .rebase hs hstep
  | _ =>
    cases h
    constructor

theorem step_control (h : m.step .control = some m') :
    ∃ pkt rest, m.pending = [] ∧ m.controlQueue = pkt :: rest ∧ m' = m.taken pkt rest := by
  cases step_happens h with
  | control hpend hqueue => exact ⟨_, _, hpend, hqueue, rfl⟩

theorem step_effect (h : m.step (.effect victim) = some m') :
    ∃ effect rest, m.pending = effect :: rest ∧
      { m with pending := rest }.perform victim effect = some m' := by
  cases step_happens h with
  | effect hpend hp => exact ⟨_, _, hpend, hp⟩

/-! ### What the parts of a step leave alone -/

/-- The receive loop hands a packet to one of the queues. -/
theorem route_frame (pkt : Inbound) : ∃ control board drop subscribers,
    m.route pkt = { m with
      controlQueue := control, boardQueue := board, dropQueue := drop,
      subscribers := subscribers } := by
  unfold route
  split <;> exact ⟨_, _, _, _, rfl⟩

theorem demux_frame (endpoints : AList fun _ : UInt16 => Nat) (pkt : Inbound) :
    ∃ subscribers, m.demux endpoints pkt = { m with subscribers := subscribers } := by
  unfold demux
  split <;> exact ⟨_, rfl⟩

theorem keepaliveStep_frame (now : Nat) : ∃ transport peers keepalive outbox,
    m.keepaliveStep now = { m with
      transport := transport, peers := peers, keepalive := keepalive, outbox := outbox } := by
  unfold keepaliveStep
  split <;> exact ⟨_, _, _, _, rfl⟩

theorem perform_changes
    (h : m.perform victim effect = some m') : ∃ transport peers rebases outbox events,
    m' = { m with
      transport := transport, peers := peers, rebases := rebases, outbox := outbox,
      events := events } := by
  cases effect with
  | makeRoom addr =>
    obtain ⟨peers, rfl⟩ := perform_makeRoom h
    exact ⟨_, _, _, _, _, rfl⟩
  | _ =>
    cases h
    exact ⟨_, _, _, _, _, rfl⟩

theorem step_cases (h : m.step e = some m') :
    (∃ pkt rest, e = .control ∧ m.pending = [] ∧ m.controlQueue = pkt :: rest ∧
      m' = m.taken pkt rest) ∨
    (∃ victim effect rest, e = .effect victim ∧ m.pending = effect :: rest ∧
      { m with pending := rest }.perform victim effect = some m') ∨
    Quiet m e m' := by
  cases step_happens h with
  | control hpend hqueue => exact .inl ⟨_, _, rfl, hpend, hqueue, rfl⟩
  | effect hpend hp => exact .inr (.inl ⟨_, _, _, rfl, hpend, hp⟩)
  | keepalive => exact .inr (.inr (.keepaliveStep _))
  | send => exact .inr (.inr (.sends _ _))
  | seen _ =>
    exact .inr (.inr ⟨rfl, rfl, rfl, rfl, rfl, .inl ⟨rfl, rfl, rfl, rfl, rfl⟩, fun _ h => .inl h⟩)
  | dispatch _ =>
    obtain ⟨control, board, drop, subscribers, hroute⟩ :=
      route_frame (m := { m with recvLoop := .idle }) _
    rw [hroute]
    exact .inr (.inr ⟨rfl, rfl, rfl, rfl, rfl, .inl .refl, fun _ h => .inl h⟩)
  | boardDemux _ | dropDemux _ =>
    obtain ⟨subscribers, hdemux⟩ := demux_frame _ _
    rw [hdemux]
    exact .inr (.inr ⟨rfl, rfl, rfl, rfl, rfl, .inl .refl, fun _ h => .inl h⟩)
  | _ => exact .inr (.inr ⟨rfl, rfl, rfl, rfl, rfl, .inl .refl, fun _ h => .inl h⟩)

theorem perform_frame (h : m.perform victim effect = some m') :
    m'.cfg = m.cfg ∧ m'.control = m.control ∧ m'.pending = m.pending := by
  obtain ⟨_, _, _, _, _, rfl⟩ := perform_changes h
  exact ⟨rfl, rfl, rfl⟩

/-- An effect sets the key of an address, forgets it, or leaves it. -/
theorem perform_peerKeys (h : m.perform victim effect = some m') (addr : SocketAddr) :
    (∃ key suite, effect = .registerPeerKey addr key suite ∧
      m'.transport.peerKeys.lookup addr = some (key, suite)) ∨
    (effect = .forget (.peerKey addr) ∧ m'.transport.peerKeys.lookup addr = none) ∨
    m'.transport.peerKeys.lookup addr = m.transport.peerKeys.lookup addr := by
  cases effect with
  | registerPeerKey a key suite =>
    cases h
    by_cases ha : addr = a
    · subst ha
      exact .inl ⟨key, suite, rfl, AList.lookup_insert _⟩
    · exact .inr (.inr (AList.lookup_insert_ne ha))
  | forget op =>
    cases h
    cases op with
    | peerKey a =>
      by_cases ha : addr = a
      · subst ha
        exact .inr (.inl ⟨rfl, AList.lookup_erase _ _⟩)
      · exact .inr (.inr (AList.lookup_erase_ne ha))
    | _ => exact .inr (.inr rfl)
  | makeRoom a =>
    obtain ⟨peers, rfl⟩ := perform_makeRoom h
    exact .inr (.inr rfl)
  | _ =>
    cases h
    exact .inr (.inr rfl)

theorem step_cfg (h : m.step e = some m') : m'.cfg = m.cfg := by
  rcases step_cases h with ⟨pkt, rest, -, -, -, rfl⟩ | ⟨victim, effect, rest, -, -, hp⟩ | hq
  · rfl
  · exact (perform_frame hp).1
  · exact hq.cfg

theorem run_cfg {ok : Band → Event → Prop} (h : GuardedRun Band.step ok m m') :
    m'.cfg = m.cfg :=
  h.invariant (P := fun m' => m'.cfg = m.cfg) rfl fun _ _ _ ih _ hstep => (step_cfg hstep).trans ih

/-! ### Where packets are -/

/-- The packet the receive loop holds. -/
def RecvLoop.inHand : RecvLoop → List Inbound
  | .idle => []
  | .decoded pkt => [pkt]
  | .seen pkt => [pkt]

/-- The packets in front of the Board and Drop demultiplexers. -/
def demuxing (m : Band) : List Inbound := m.boardQueue ++ m.dropQueue

/-- The packets between the socket and the queues of the tasks. -/
def inTransit (m : Band) : List Inbound := m.recvLoop.inHand ++ m.demuxing

/-- A packet that is not for the control task. -/
def Inbound.isData (pkt : Inbound) : Bool := pkt.header.channelType ≠ .control

/-- Those of them that a task with replay marks may get. -/
def dataTransit (m : Band) : List Inbound := m.recvLoop.inHand.filter (·.isData) ++ m.demuxing

theorem perform_queues (h : m.perform victim effect = some m') :
    m'.recvLoop = m.recvLoop ∧ m'.controlQueue = m.controlQueue ∧
      m'.boardQueue = m.boardQueue ∧ m'.dropQueue = m.dropQueue ∧
      m'.subscribers = m.subscribers := by
  obtain ⟨_, _, _, _, _, rfl⟩ := perform_changes h
  exact ⟨rfl, rfl, rfl, rfl, rfl⟩

theorem enqueue_getElem? (h : (m.enqueue i pkt).subscribers[j]? = some s') :
    ∃ s, m.subscribers[j]? = some s ∧
      (s' = s ∨ j = i ∧ s' = { s with queue := s.queue ++ [pkt] }) := by
  simp only [enqueue, getElem?_modify] at h
  obtain ⟨s, hs, heq⟩ := map_eq_some_iff.mp h
  refine ⟨s, hs, ?_⟩
  by_cases hij : i = j
  · rw [if_pos hij] at heq
    exact .inr ⟨hij.symm, heq.symm⟩
  · rw [if_neg hij] at heq
    exact .inl heq.symm

/-- The same task, up to its queue and its open endpoints. -/
structure Subscriber.Same (s s' : Subscriber) : Prop where
  kind : s'.kind = s.kind
  next : s'.next = s.next
  marks : s'.marks = s.marks
  accepted : s'.accepted = s.accepted
  handed : s'.handed = s.handed

theorem Subscriber.Same.refl {s : Subscriber} : s.Same s := ⟨rfl, rfl, rfl, rfl, rfl⟩

/-- A task another task may have appended a packet to. -/
def Subscriber.Fed (transit : List Inbound) (s s' : Subscriber) : Prop :=
  s.Same s' ∧ (s'.queue = s.queue ∨ ∃ pkt ∈ transit, s'.queue = s.queue ++ [pkt])

theorem Subscriber.Fed.refl {s : Subscriber} : s.Fed transit s :=
  ⟨.refl, .inl rfl⟩

theorem fed_enqueue (hpkt : pkt ∈ transit) (h : (m.enqueue i pkt).subscribers[j]? = some s') :
    ∃ s, m.subscribers[j]? = some s ∧ s.Fed transit s' := by
  obtain ⟨s, hs, rfl | ⟨-, rfl⟩⟩ := enqueue_getElem? h
  · exact ⟨s', hs, .refl⟩
  · exact ⟨s, hs, ⟨rfl, rfl, rfl, rfl, rfl⟩, .inr ⟨pkt, hpkt, rfl⟩⟩

theorem fed_route
    (hpkt : pkt.isData = true → pkt ∈ transit) (h : (m.route pkt).subscribers[j]? = some s') :
    ∃ s, m.subscribers[j]? = some s ∧ s.Fed transit s' := by
  unfold Band.route at h
  split at h
  case h_2 htype => exact fed_enqueue (hpkt (by simp [Inbound.isData, htype])) h
  case h_3 htype => exact fed_enqueue (hpkt (by simp [Inbound.isData, htype])) h
  all_goals exact ⟨s', h, .refl⟩

theorem fed_demux {endpoints : AList fun _ : UInt16 => Nat} (hpkt : pkt ∈ transit)
    (h : (m.demux endpoints pkt).subscribers[j]? = some s') :
    ∃ s, m.subscribers[j]? = some s ∧ s.Fed transit s' := by
  unfold Band.demux at h
  split at h
  · exact fed_enqueue hpkt h
  · exact ⟨s', h, .refl⟩

theorem fed_openOutlet {key : Option SocketAddr × UInt16}
    (h : (m.openOutlet i key).subscribers[j]? = some s') :
    ∃ s, m.subscribers[j]? = some s ∧ s.Fed transit s' := by
  simp only [openOutlet, getElem?_modify] at h
  obtain ⟨s, hs, heq⟩ := map_eq_some_iff.mp h
  refine ⟨s, hs, ?_⟩
  split at heq
  · subst heq
    exact ⟨⟨rfl, rfl, rfl, rfl, rfl⟩, .inl rfl⟩
  · subst heq
    exact .refl

/-- A spawned task is fresh; the others are as they were. -/
theorem spawn_getElem? {kind : TaskKind} (h : (m.spawn kind).subscribers[j]? = some s') :
    m.subscribers[j]? = some s' ∨
      m.subscribers[j]? = none ∧ s' = .new kind m.rebases.length := by
  simp only [spawn, getElem?_append] at h
  split at h
  · exact .inl h
  · rename_i hj
    have hnone : m.subscribers[j]? = none := getElem?_eq_none (by omega)
    refine .inr ⟨hnone, ?_⟩
    have hmem := mem_of_getElem? h
    exact mem_singleton.mp hmem

theorem set_getElem? {subscribers : List Subscriber} {t s' : Subscriber}
    (h : (subscribers.set j t)[i]? = some s') : j = i ∧ t = s' ∨ subscribers[i]? = some s' := by
  rw [getElem?_set] at h
  split at h
  · rename_i hji
    obtain ⟨-, hs⟩ := ite_none_right_eq_some.mp h
    exact .inl ⟨hji, Option.some.inj hs⟩
  · exact .inr h

/-- What a step can do to a task: leave it, feed it, let it handle a packet
or a rebase signal; or the task is new. -/
theorem step_subscriber (h : m.step e = some m') (hs' : m'.subscribers[i]? = some s') :
    (∃ s, m.subscribers[i]? = some s ∧ s.Fed m.dataTransit s') ∨
    (∃ s, e = .packet i ∧ m.subscribers[i]? = some s ∧ s.onPacket = some s') ∨
    (∃ s, e = .rebase i ∧ m.subscribers[i]? = some s ∧ s.onRebase m.rebases = some s') ∨
    (∃ kind, m.subscribers[i]? = none ∧ s' = .new kind m.rebases.length) := by
  cases step_happens h with
  | dispatch hloop =>
    refine .inl (fed_route (m := { m with recvLoop := .idle }) ?_ hs')
    intro hdata
    simp [dataTransit, hloop, RecvLoop.inHand, hdata]
  | effect _ hp =>
    rw [(perform_queues hp).2.2.2.2] at hs'
    exact .inl ⟨s', hs', .refl⟩
  | keepalive =>
    obtain ⟨_, _, _, _, hframe⟩ := m.keepaliveStep_frame _
    rw [hframe] at hs'
    exact .inl ⟨s', hs', .refl⟩
  | @boardDemux _ rest hqueue =>
    refine .inl (fed_demux (m := { m with boardQueue := rest }) ?_ hs')
    simp [dataTransit, demuxing, hqueue]
  | @dropDemux _ rest hqueue =>
    refine .inl (fed_demux (m := { m with dropQueue := rest }) ?_ hs')
    simp [dataTransit, demuxing, hqueue]
  | packet hs hstep =>
    rcases set_getElem? hs' with ⟨rfl, rfl⟩ | hold
    · exact .inr (.inl ⟨_, rfl, hs, hstep⟩)
    · exact .inl ⟨s', hold, .refl⟩
  | rebase hs hstep =>
    rcases set_getElem? hs' with ⟨rfl, rfl⟩ | hold
    · exact .inr (.inr (.inl ⟨_, rfl, hs, hstep⟩))
    · exact .inl ⟨s', hold, .refl⟩
  | openStream | openChannel => exact .inl (fed_openOutlet hs')
  | openBoard | openDrop =>
    rcases spawn_getElem? hs' with hold | ⟨hnone, hnew⟩
    · exact .inl ⟨s', hold, .refl⟩
    · exact .inr (.inr (.inr ⟨_, hnone, hnew⟩))
  | _ => exact .inl ⟨s', hs', .refl⟩

/-- No task goes away. -/
theorem step_subscribers_length (h : m.step e = some m') :
    m.subscribers.length ≤ m'.subscribers.length := by
  have henqueue : ∀ (m : Band) i pkt,
      (m.enqueue i pkt).subscribers.length = m.subscribers.length := by
    intro m i pkt
    exact length_modify _ _ _
  cases step_happens h with
  | dispatch _ =>
    unfold route
    split <;> first | exact le_rfl | exact le_of_eq (henqueue _ _ _).symm
  | effect _ hp => rw [(perform_queues hp).2.2.2.2]
  | keepalive =>
    obtain ⟨_, _, _, _, hframe⟩ := m.keepaliveStep_frame _
    rw [hframe]
  | boardDemux _ | dropDemux _ =>
    unfold demux
    split <;> first | exact le_rfl | exact le_of_eq (henqueue _ _ _).symm
  | packet _ _ | rebase _ _ => exact le_of_eq (length_set).symm
  | openStream | openChannel => exact le_of_eq (length_modify _ _ _).symm
  | openBoard | openDrop => simp [spawn]
  | _ => exact le_rfl

theorem route_queues (pkt : Inbound) :
    (m.route pkt).recvLoop = m.recvLoop ∧
      (∀ q ∈ (m.route pkt).controlQueue, q ∈ m.controlQueue ∨ q = pkt) ∧
      ∀ q ∈ (m.route pkt).demuxing, q ∈ m.demuxing ∨ q = pkt ∧ pkt.isData = true := by
  unfold Band.route
  split
  case h_1 =>
    exact ⟨rfl, fun q hq => (mem_append.mp hq).imp_right mem_singleton.mp,
      fun q hq => .inl hq⟩
  case h_4 htype | h_5 htype =>
    refine ⟨rfl, fun q hq => .inl hq, fun q hq => ?_⟩
    simp only [demuxing, mem_append, mem_singleton] at hq ⊢
    simp only [Inbound.isData, htype]
    tauto
  all_goals exact ⟨rfl, fun q hq => .inl hq, fun q hq => .inl hq⟩

/-- Packets enter the band by the receive loop. -/
theorem step_inHand (h : m.step e = some m') (hpkt : pkt ∈ m'.recvLoop.inHand) :
    pkt ∈ m.recvLoop.inHand ∨
      ∃ source wire, e = .recv source wire ∧ m.transport.decode source wire = some pkt := by
  cases step_happens h with
  | decoded hdec =>
    obtain rfl := mem_singleton.mp hpkt
    exact .inr ⟨_, _, rfl, hdec⟩
  | seen hloop =>
    rw [hloop]
    exact .inl hpkt
  | dispatch _ =>
    rw [(route_queues _).1] at hpkt
    cases hpkt
  | effect _ hp =>
    rw [(perform_queues hp).1] at hpkt
    exact .inl hpkt
  | keepalive =>
    obtain ⟨_, _, _, _, hframe⟩ := m.keepaliveStep_frame _
    rw [hframe] at hpkt
    exact .inl hpkt
  | boardDemux _ | dropDemux _ =>
    obtain ⟨_, hframe⟩ := demux_frame _ _
    rw [hframe] at hpkt
    exact .inl hpkt
  | _ => exact .inl hpkt

/-- The demultiplexers are fed by it, and get no control packets. -/
theorem step_demuxing (h : m.step e = some m') (hpkt : pkt ∈ m'.demuxing) :
    pkt ∈ m.demuxing ∨ pkt ∈ m.recvLoop.inHand ∧ pkt.isData = true := by
  cases step_happens h with
  | dispatch hloop =>
    rcases (route_queues _).2.2 pkt hpkt with hold | ⟨rfl, hdata⟩
    · exact .inl hold
    · refine .inr ⟨?_, hdata⟩
      rw [hloop]
      exact mem_singleton_self _
  | effect _ hp =>
    obtain ⟨_, _, _, _, _, rfl⟩ := perform_changes hp
    exact .inl hpkt
  | keepalive =>
    obtain ⟨_, _, _, _, hframe⟩ := m.keepaliveStep_frame _
    rw [hframe] at hpkt
    exact .inl hpkt
  | boardDemux hqueue | dropDemux hqueue =>
    obtain ⟨_, hframe⟩ := demux_frame _ _
    rw [hframe] at hpkt
    refine .inl ?_
    simp only [demuxing, hqueue, mem_append, mem_cons] at hpkt ⊢
    tauto
  | _ => exact .inl hpkt

theorem step_inTransit (h : m.step e = some m') (hpkt : pkt ∈ m'.inTransit) :
    pkt ∈ m.inTransit ∨
      ∃ source wire, e = .recv source wire ∧ m.transport.decode source wire = some pkt := by
  rcases mem_append.mp hpkt with hhand | hdemux
  · exact (step_inHand h hhand).imp_left (mem_append_left _)
  · rcases step_demuxing h hdemux with hold | ⟨hhand, -⟩
    · exact .inl (mem_append_right _ hold)
    · exact .inl (mem_append_left _ hhand)

theorem step_dataTransit (h : m.step e = some m') (hpkt : pkt ∈ m'.dataTransit) :
    pkt ∈ m.dataTransit ∨ pkt.isData = true ∧
      ∃ source wire, e = .recv source wire ∧ m.transport.decode source wire = some pkt := by
  rcases mem_append.mp hpkt with hhand | hdemux
  · obtain ⟨hhand, hdata⟩ := mem_filter.mp hhand
    rcases step_inHand h hhand with hold | hrecv
    · exact .inl (mem_append_left _ (mem_filter.mpr ⟨hold, hdata⟩))
    · exact .inr ⟨hdata, hrecv⟩
  · rcases step_demuxing h hdemux with hold | ⟨hhand, hdata⟩
    · exact .inl (mem_append_right _ hold)
    · exact .inl (mem_append_left _ (mem_filter.mpr ⟨hhand, hdata⟩))

/-- The control queue is fed by the receive loop. -/
theorem step_controlQueue (h : m.step e = some m')
    (hpkt : pkt ∈ m'.controlQueue) : pkt ∈ m.controlQueue ∨ pkt ∈ m.inTransit := by
  cases step_happens h with
  | dispatch hloop =>
    rcases (route_queues _).2.1 pkt hpkt with hold | rfl
    · exact .inl hold
    · refine .inr ?_
      simp [inTransit, hloop, RecvLoop.inHand]
  | control _ hqueue => exact .inl (hqueue ▸ mem_cons_of_mem _ hpkt)
  | effect _ hp =>
    rw [(perform_queues hp).2.1] at hpkt
    exact .inl hpkt
  | keepalive =>
    obtain ⟨_, _, _, _, hframe⟩ := m.keepaliveStep_frame _
    rw [hframe] at hpkt
    exact .inl hpkt
  | boardDemux _ | dropDemux _ =>
    obtain ⟨_, hframe⟩ := demux_frame _ _
    rw [hframe] at hpkt
    exact .inl hpkt
  | _ => exact .inl hpkt

/-- Every data packet in the band, on its way to a task or with one, now or
before, has the property. -/
structure AllData (m : Band) (P : Inbound → Prop) : Prop where
  transit : ∀ pkt ∈ m.dataTransit, P pkt
  queued : ∀ (i : Nat) (s : Subscriber), m.subscribers[i]? = some s → ∀ pkt ∈ s.queue, P pkt
  accepted : ∀ (i : Nat) (s : Subscriber), m.subscribers[i]? = some s → ∀ pkt ∈ s.accepted, P pkt

/-- A property of data packets that lasts, and that each has when it is decoded. -/
theorem AllData.step {P P' : Inbound → Prop} (hm : m.AllData P) (h : m.step e = some m')
    (hlasts : ∀ pkt, P pkt → P' pkt)
    (hnew : ∀ source wire pkt, e = .recv source wire → m.transport.decode source wire = some pkt →
      pkt.isData = true → P' pkt) : m'.AllData P' := by
  refine ⟨fun pkt hpkt => ?_, fun i s' hs' pkt hpkt => ?_, fun i s' hs' pkt hpkt => ?_⟩
  · rcases step_dataTransit h hpkt with hold | ⟨hdata, source, wire, he, hdec⟩
    · exact hlasts pkt (hm.transit pkt hold)
    · exact hnew source wire pkt he hdec hdata
  · refine hlasts pkt ?_
    rcases step_subscriber h hs' with ⟨s, hs, -, hqueue | ⟨q, hq, hqueue⟩⟩ |
      ⟨s, -, hs, hstep⟩ | ⟨s, -, hs, hstep⟩ | ⟨kind, -, rfl⟩
    · exact hm.queued i s hs pkt (hqueue ▸ hpkt)
    · rw [hqueue] at hpkt
      exact forall_mem_snoc (hm.queued i s hs) (hm.transit q hq) pkt hpkt
    · obtain ⟨q, hqueue, -⟩ := Subscriber.onPacket_eq_some hstep
      exact hm.queued i s hs pkt (hqueue ▸ mem_cons_of_mem q hpkt)
    · rw [(Subscriber.onRebase_eq_some hstep).1] at hpkt
      exact hm.queued i s hs pkt hpkt
    · exact absurd hpkt not_mem_nil
  · refine hlasts pkt ?_
    rcases step_subscriber h hs' with ⟨s, hs, hsame, -⟩ |
      ⟨s, -, hs, hstep⟩ | ⟨s, -, hs, hstep⟩ | ⟨kind, -, rfl⟩
    · exact hm.accepted i s hs pkt (hsame.accepted ▸ hpkt)
    · obtain ⟨q, hqueue, hs'⟩ := Subscriber.onPacket_eq_some hstep
      rw [hs'] at hpkt
      rcases Subscriber.handle_cases { s with queue := s'.queue } q with heq | ⟨marks, -, heq⟩ <;>
        rw [heq] at hpkt
      · exact hm.accepted i s hs pkt hpkt
      · exact forall_mem_snoc (hm.accepted i s hs)
          (hm.queued i s hs q (hqueue ▸ mem_cons_self)) pkt hpkt
    · rw [(Subscriber.onRebase_eq_some hstep).2.2.1] at hpkt
      exact hm.accepted i s hs pkt hpkt
    · exact absurd hpkt not_mem_nil

theorem AllData.bind {P : Inbound → Prop} {psk : Bytes} {hostname : String} {session : UInt64}
    {ciphers capabilities : List String} {deadAfter seq : Nat} :
    (bindWithOptions psk hostname session ciphers capabilities deadAfter seq).AllData P := by
  have hnew : ∀ (i : Nat) (s : Subscriber), (bindWithOptions psk hostname session ciphers
      capabilities deadAfter seq).subscribers[i]? = some s → s.queue = [] ∧ s.accepted = [] := by
    intro i s hs
    have hmem : s ∈ [Subscriber.new .streamHub 0, .new .channelHub 0] := mem_of_getElem? hs
    rcases mem_pair.mp hmem with rfl | rfl <;> exact ⟨rfl, rfl⟩
  refine ⟨fun pkt h => absurd h not_mem_nil, fun i s hs pkt hpkt => ?_,
    fun i s hs pkt hpkt => ?_⟩
  · rw [(hnew i s hs).1] at hpkt
    cases hpkt
  · rw [(hnew i s hs).2] at hpkt
    cases hpkt

end Telesthete.Band
