import Telesthete.Band.Transport
import Telesthete.Lib.Assoc

/-!
# The control task

What the control task does with one inbound packet. The task owns two maps,
the replay `watermark` and the committed epoch (`sessions`) of each address;
everything else it touches is shared, behind locks and channels. `handle`
therefore returns the new maps together with the list of `Effect`s the task
goes on to perform, in the order of the source: each is one operation on
shared state, and other tasks may run between any two of them.
-/

namespace Telesthete.Band

open Telesthete.Lib Telesthete.Crypto Telesthete.Wire

/-- Live state for one known peer (§4.3/§3.5). -/
structure PeerState where
  hostname : String
  capabilities : List String
  /-- Negotiated AEAD suite id committed for this peer. -/
  cipher : String
  /-- The peer's session epoch from its latest HELLO/HELLO_ACK. -/
  sessionEpoch : UInt64
deriving DecidableEq, Repr

/-- Identity and negotiation preferences this endpoint advertises. -/
structure ControlConfig where
  psk : Bytes
  session : UInt64
  hostname : String
  capabilities : List String
  ciphers : List String

/-- A cipher list, the mandatory baseline appended if missing (§12.5). -/
def withBaseline (ciphers : List String) : List String :=
  if baselineCipher ∈ ciphers then ciphers else ciphers ++ [baselineCipher]

theorem mem_withBaseline {c : String} {ciphers : List String} (h : c ∈ withBaseline ciphers) :
    c = baselineCipher ∨ c ∈ ciphers := by
  unfold withBaseline at h
  split at h
  · exact .inr h
  · rcases List.mem_append.mp h with hmem | hbase
    · exact .inr hmem
    · exact .inl (List.mem_singleton.mp hbase)

/-- Past this many entries the task's maps are pruned to the live registry. -/
def peerMapSoftCap : Nat := 1024

/-- One operation of the control task on shared state. -/
inductive Effect where
  /-- `rebase_tx.send` -/
  | rebase (addr : SocketAddr)
  | registerPeerKey (addr : SocketAddr) (key : Key) (suite : Suite)
  | registerSendKey (addr : SocketAddr) (key : Key) (suite : Suite)
  /-- Evict the lowest-epoch registry entry if `addr` is new and the registry full. -/
  | makeRoom (addr : SocketAddr)
  | insertPeer (addr : SocketAddr) (state : PeerState)
  | sendHelloAck (addr : SocketAddr) (ack : HelloAck)
  | removePeer (addr : SocketAddr)
  | forget (op : Transport.Forget)
  /-- The event for the application, with the packet that caused it (history). -/
  | event (ev : ControlEvent) (pkt : Inbound)
deriving DecidableEq, Repr

/-- The typed body of a HELLO or HELLO_ACK, with what it commits to. -/
structure Greeting where
  isHello : Bool
  event : ControlEvent
  session : UInt64
  hostname : String
  capabilities : List String
  committed : String

/-- A HELLO: we are the responder and choose the suite. -/
def Greeting.ofHello (cfg : ControlConfig) (source : SocketAddr) (h : Hello) : Greeting where
  isHello := true
  event := .hello source h.hostname h.capabilities h.ciphers
  session := h.session
  hostname := h.hostname
  capabilities := h.capabilities
  committed :=
    let init := if h.ciphers.isEmpty then [baselineCipher] else h.ciphers
    selectCipher init cfg.ciphers

/-- A HELLO_ACK: the responder dictates the suite, the baseline if unknown. -/
def Greeting.ofHelloAck (source : SocketAddr) (a : HelloAck) : Greeting where
  isHello := false
  event := .helloAck source a.hostname a.capabilities a.ciphers a.cipher
  session := a.session
  hostname := a.hostname
  capabilities := a.capabilities
  committed := if (Suite.fromId a.cipher).isSome then a.cipher else baselineCipher

/-- The greeting an envelope carries, if it is a handshake with a good body. -/
def ControlEnvelope.greeting (cfg : ControlConfig) (source : SocketAddr)
    (env : ControlEnvelope) : Option Greeting :=
  if env.type = typeHello then env.payload.hello.map (Greeting.ofHello cfg source)
  else env.payload.helloAck.map (Greeting.ofHelloAck source)

/-- What an accepted greeting makes the task do: register the data keys, both
bound to the committed suite, record the peer, answer a HELLO, report. -/
def Greeting.welcome (cfg : ControlConfig) (pkt : Inbound) (g : Greeting) : List Effect :=
  let suite := suiteFor g.committed
  [.registerPeerKey pkt.source (deriveSessionKey cfg.psk g.committed g.session) suite,
    .registerSendKey pkt.source (deriveSessionKey cfg.psk g.committed cfg.session) suite,
    .makeRoom pkt.source,
    .insertPeer pkt.source ⟨g.hostname, g.capabilities, g.committed, g.session⟩] ++
  (if g.isHello then
    [.sendHelloAck pkt.source
      ⟨cfg.hostname, cfg.capabilities, cfg.ciphers, g.committed, cfg.session⟩]
  else []) ++
  [.event g.event pkt]

/-- What holds of every effect of a welcome. -/
theorem Greeting.forall_welcome {cfg : ControlConfig} {pkt : Inbound} {g : Greeting}
    {P : Effect → Prop}
    (hrecv : P (.registerPeerKey pkt.source (deriveSessionKey cfg.psk g.committed g.session)
      (suiteFor g.committed)))
    (hsend : P (.registerSendKey pkt.source (deriveSessionKey cfg.psk g.committed cfg.session)
      (suiteFor g.committed)))
    (hroom : P (.makeRoom pkt.source))
    (hinsert : P (.insertPeer pkt.source ⟨g.hostname, g.capabilities, g.committed, g.session⟩))
    (hack : g.isHello = true → P (.sendHelloAck pkt.source
      ⟨cfg.hostname, cfg.capabilities, cfg.ciphers, g.committed, cfg.session⟩))
    (hevent : P (.event g.event pkt)) : ∀ effect ∈ g.welcome cfg pkt, P effect := by
  intro effect heffect
  simp only [welcome, List.mem_append, List.mem_cons, List.not_mem_nil, or_false] at heffect
  rcases heffect with ((rfl | rfl | rfl | rfl) | heffect) | rfl
  · exact hrecv
  · exact hsend
  · exact hroom
  · exact hinsert
  · split at heffect
    · next hhello => exact List.mem_singleton.mp heffect ▸ hack hhello
    · cases heffect
  · exact hevent

/-- The maps the task owns. -/
structure ControlTask where
  watermark : AList fun _ : SocketAddr => Nat
  sessions : AList fun _ : SocketAddr => UInt64

namespace ControlTask

def new : ControlTask := ⟨∅, ∅⟩

/-- The soft-cap prune: past the cap, keep only live addresses. -/
def prune (t : ControlTask) (live : SocketAddr → Bool) : ControlTask :=
  if peerMapSoftCap < t.watermark.entries.length then
    ⟨retain live t.watermark, retain live t.sessions⟩
  else t

/-- An older epoch than the committed one. -/
def isStale (t : ControlTask) (addr : SocketAddr) (session : UInt64) : Bool :=
  (t.sessions.lookup addr).any (session < ·)

/-- No epoch committed yet, or an older one. -/
def isNewer (t : ControlTask) (addr : SocketAddr) (session : UInt64) : Bool :=
  (t.sessions.lookup addr).all (· < session)

/-- A sequence at or below the watermark. -/
def isReplay (t : ControlTask) (addr : SocketAddr) (seq : Nat) : Bool :=
  (t.watermark.lookup addr).any (seq ≤ ·)

/-- Commit a newer epoch and clear the watermark. -/
def restart (t : ControlTask) (addr : SocketAddr) (session : UInt64) : ControlTask :=
  ⟨t.watermark.erase addr, t.sessions.insert addr session⟩

def advance (t : ControlTask) (addr : SocketAddr) (seq : Nat) : ControlTask :=
  { t with watermark := t.watermark.insert addr seq }

def forget (t : ControlTask) (addr : SocketAddr) : ControlTask :=
  ⟨t.watermark.erase addr, t.sessions.erase addr⟩

/-- A HELLO or HELLO_ACK whose body parsed. -/
def greet (cfg : ControlConfig) (t : ControlTask) (pkt : Inbound) (g : Greeting) :
    ControlTask × List Effect :=
  if t.isStale pkt.source g.session then (t, [])
  else
    let newer := t.isNewer pkt.source g.session
    let t' := if newer then t.restart pkt.source g.session else t
    let signal := if newer then [Effect.rebase pkt.source] else []
    if t'.isReplay pkt.source pkt.header.sequence then (t', signal)
    else (t'.advance pkt.source pkt.header.sequence, signal ++ g.welcome cfg pkt)

/-- Any other message, past the replay check and with the mark advanced. -/
def receive (t : ControlTask) (pkt : Inbound) (env : ControlEnvelope) :
    ControlTask × List Effect :=
  let source := pkt.source
  if env.type = typeKeepalive then (t, [.event (.keepalive source) pkt])
  else if env.type = typeGoodbye then
    (t.forget source, [.removePeer source] ++ (Transport.forgetPeer source).map .forget ++
      [.event (.goodbye source) pkt])
  else if env.type = typeKeyframeReq then
    match env.payload.keyframeReq with
    | some k => (t, [.event (.keyframeReq source k.streamId) pkt])
    | none => (t, [])
  else if env.type = typeRateHint then
    match env.payload.rateHint with
    | some r => (t, [.event (.rateHint source r.streamId r.targetBps r.loss) pkt])
    | none => (t, [])
  else (t, [.event (.other source env.type env.payload) pkt])

/-- One turn of the task's loop; `live` are the addresses in the registry. -/
def handle (cfg : ControlConfig) (live : SocketAddr → Bool) (t : ControlTask) (pkt : Inbound) :
    ControlTask × List Effect :=
  let t := t.prune live
  match pkt.payload.envelope with
  | none => (t, [])
  | some env =>
    if env.isHandshake then
      match env.greeting cfg pkt.source with
      | none => (t, [])
      | some g => t.greet cfg pkt g
    else if t.isReplay pkt.source pkt.header.sequence then (t, [])
    else (t.advance pkt.source pkt.header.sequence).receive pkt env

/-- Everything `handle` can do with a packet. A restart is never stopped by
the watermark, which it has just cleared. -/
inductive Handled (cfg : ControlConfig) (t : ControlTask) (pkt : Inbound) :
    ControlTask × List Effect → Prop
  | drop : Handled cfg t pkt (t, [])
  | restart {env : ControlEnvelope} {g : Greeting} (henv : pkt.payload.envelope = some env)
      (hhand : env.isHandshake = true) (hg : env.greeting cfg pkt.source = some g)
      (hnewer : t.isNewer pkt.source g.session = true) :
      Handled cfg t pkt
        ((t.restart pkt.source g.session).advance pkt.source pkt.header.sequence,
          .rebase pkt.source :: g.welcome cfg pkt)
  | refresh {env : ControlEnvelope} {g : Greeting} (henv : pkt.payload.envelope = some env)
      (hhand : env.isHandshake = true) (hg : env.greeting cfg pkt.source = some g)
      (hsame : t.sessions.lookup pkt.source = some g.session)
      (hfresh : t.isReplay pkt.source pkt.header.sequence = false) :
      Handled cfg t pkt (t.advance pkt.source pkt.header.sequence, g.welcome cfg pkt)
  | other {env : ControlEnvelope} (henv : pkt.payload.envelope = some env)
      (hhand : env.isHandshake = false)
      (hfresh : t.isReplay pkt.source pkt.header.sequence = false) :
      Handled cfg t pkt ((t.advance pkt.source pkt.header.sequence).receive pkt env)

theorem isReplay_restart (t : ControlTask) (addr : SocketAddr) (session : UInt64) (seq : Nat) :
    (t.restart addr session).isReplay addr seq = false := by
  simp [isReplay, restart]

/-- Neither older nor newer is the committed epoch itself. -/
theorem lookup_of_not_stale {t : ControlTask} {addr : SocketAddr} {session : UInt64}
    (hstale : t.isStale addr session = false) (hnewer : t.isNewer addr session = false) :
    t.sessions.lookup addr = some session := by
  unfold isStale at hstale
  unfold isNewer at hnewer
  cases hprev : t.sessions.lookup addr with
  | none =>
    rw [hprev] at hnewer
    cases hnewer
  | some prev =>
    rw [hprev] at hstale hnewer
    have hle : prev ≤ session := UInt64.not_lt.mp (of_decide_eq_false hstale)
    have hge : session ≤ prev := UInt64.not_lt.mp (of_decide_eq_false hnewer)
    rw [UInt64.le_antisymm hle hge]

theorem greet_handled {cfg : ControlConfig} {t : ControlTask} {pkt : Inbound}
    {env : ControlEnvelope} {g : Greeting} (henv : pkt.payload.envelope = some env)
    (hhand : env.isHandshake = true) (hg : env.greeting cfg pkt.source = some g) :
    Handled cfg t pkt (t.greet cfg pkt g) := by
  unfold greet
  cases hstale : t.isStale pkt.source g.session with
  | true => exact .drop
  | false =>
    cases hnewer : t.isNewer pkt.source g.session with
    | true =>
      simp only [Bool.false_eq_true, if_false, if_true, isReplay_restart]
      exact .restart henv hhand hg hnewer
    | false =>
      simp only [Bool.false_eq_true, if_false]
      split
      · exact .drop
      · rename_i hfresh
        exact .refresh henv hhand hg (lookup_of_not_stale hstale hnewer)
          (Bool.eq_false_iff.mpr hfresh)

theorem handle_handled (cfg : ControlConfig) (live : SocketAddr → Bool) (t : ControlTask)
    (pkt : Inbound) : Handled cfg (t.prune live) pkt (t.handle cfg live pkt) := by
  unfold handle
  cases henv : pkt.payload.envelope with
  | none => exact .drop
  | some env =>
    dsimp only
    split
    · rename_i hhand
      cases hg : env.greeting cfg pkt.source with
      | none => exact .drop
      | some g => exact greet_handled henv hhand hg
    · rename_i hhand
      split
      · exact .drop
      · rename_i hfresh
        exact .other henv (Bool.eq_false_iff.mpr hhand) (Bool.eq_false_iff.mpr hfresh)

/-- A message that is neither a handshake nor a GOODBYE causes at most an
event; a GOODBYE forgets its sender. -/
theorem receive_cases (t : ControlTask) (pkt : Inbound) (env : ControlEnvelope) :
    (env.type = typeGoodbye ∧ t.receive pkt env =
      (t.forget pkt.source, [.removePeer pkt.source] ++
        (Transport.forgetPeer pkt.source).map .forget ++ [.event (.goodbye pkt.source) pkt])) ∨
    env.type ≠ typeGoodbye ∧
      (t.receive pkt env = (t, []) ∨ ∃ ev, t.receive pkt env = (t, [.event ev pkt])) := by
  unfold receive
  by_cases hkeep : env.type = typeKeepalive
  · refine .inr ⟨by rw [hkeep]; decide, .inr ⟨_, if_pos hkeep⟩⟩
  · rw [if_neg hkeep]
    by_cases hbye : env.type = typeGoodbye
    · exact .inl ⟨hbye, if_pos hbye⟩
    · rw [if_neg hbye]
      refine .inr ⟨hbye, ?_⟩
      split
      · split
        · exact .inr ⟨_, rfl⟩
        · exact .inl rfl
      · split
        · split
          · exact .inr ⟨_, rfl⟩
          · exact .inl rfl
        · exact .inr ⟨_, rfl⟩

/-- What holds of every effect a packet can have. -/
theorem Handled.forall_effects {cfg : ControlConfig} {t : ControlTask} {pkt : Inbound}
    {r : ControlTask × List Effect} {P : Effect → Prop} (h : Handled cfg t pkt r)
    (hrebase : P (.rebase pkt.source))
    (hwelcome : ∀ g : Greeting, ∀ effect ∈ g.welcome cfg pkt, P effect)
    (hremove : P (.removePeer pkt.source))
    (hforget : ∀ op ∈ Transport.forgetPeer pkt.source, P (.forget op))
    (hevent : ∀ ev, P (.event ev pkt)) : ∀ effect ∈ r.2, P effect := by
  cases h with
  | drop => exact fun _ h => by cases h
  | restart _ _ _ _ => exact List.forall_mem_cons.mpr ⟨hrebase, hwelcome _⟩
  | refresh _ _ _ _ _ => exact hwelcome _
  | @other env _ _ _ =>
    intro effect heffect
    rcases receive_cases (t.advance pkt.source pkt.header.sequence) pkt env with
      ⟨-, hr⟩ | ⟨-, hr | ⟨ev, hr⟩⟩ <;> rw [hr] at heffect
    · rcases List.mem_append.mp heffect with hmem | hmem
      · rcases List.mem_cons.mp hmem with rfl | hmem
        · exact hremove
        · obtain ⟨op, hop, rfl⟩ := List.mem_map.mp hmem
          exact hforget op hop
      · exact List.mem_singleton.mp hmem ▸ hevent _
    · cases heffect
    · exact List.mem_singleton.mp heffect ▸ hevent ev

end ControlTask

end Telesthete.Band
