import Telesthete.Band.Exchange
import Telesthete.Band.Genuine

/-!
# Two bands that connect to each other

Two bands with one PSK, each at its own address, on a network that loses and
reorders nothing: the datagrams of one arrive at the other in the order they
were sent. Either side may call `connect_peer` at any time. What happens to a
packet that has arrived is the bands' own steps, those of their receive loop
and control task, in any interleaving.
-/

namespace Telesthete.Band

open Telesthete.Lib Telesthete.Crypto Telesthete.Wire
open Telesthete.Channel (Side)

/-- The options a band is bound with. -/
structure Options where
  hostname : String
  session : UInt64
  ciphers : List String
  capabilities : List String
  deadAfter : Nat
  /-- Where its sequence counter is seeded. -/
  seq : Nat

def Options.bind (psk : Bytes) (o : Options) : Band :=
  bindWithOptions psk o.hostname o.session o.ciphers o.capabilities o.deadAfter o.seq

structure Pair where
  band : Side → Band
  /-- How many datagrams of the other side have arrived. -/
  got : Side → Nat

/-- What a receive loop and a control task do with packets that have arrived. -/
inductive Task where
  | seen (now : Nat)
  | dispatch
  | control
  | effect (victim : SocketAddr)

def Task.event : Task → Event
  | .seen now => .seen now
  | .dispatch => .dispatch
  | .control => .control
  | .effect victim => .effect victim

inductive Move where
  | connect (x : Side)
  /-- The next datagram of the other side arrives at `x`. -/
  | deliver (x : Side)
  | task (x : Side) (t : Task)

namespace Pair

def bind (psk : Bytes) (o : Side → Options) : Pair := ⟨fun x => (o x).bind psk, fun _ => 0⟩

def set (s : Pair) (x : Side) (m : Band) : Pair := { s with band := Function.update s.band x m }

def step (addr : Side → SocketAddr) (s : Pair) : Move → Option Pair
  | .connect x => some (s.set x ((s.band x).connectPeer (addr x.other)))
  | .deliver x => do
      let out ← (s.band x.other).outbox[s.got x]?
      let m ← (s.band x).step (.recv (addr x.other) out.2)
      some { s.set x m with got := Function.update s.got x (s.got x + 1) }
  | .task x t => ((s.band x).step t.event).map (s.set x)

@[simp] theorem set_band (s : Pair) (x : Side) (m : Band) : (s.set x m).band x = m := by
  simp [set]

@[simp] theorem set_band_other (s : Pair) (x : Side) (m : Band) :
    (s.set x m).band x.other = s.band x.other := by
  simp [set]

@[simp] theorem set_got (s : Pair) (x : Side) (m : Band) : (s.set x m).got = s.got := rfl

end Pair

/-- A datagram as the receive loop decodes it. -/
def Inbound.opened (source : SocketAddr) (wire : Datagram) : Inbound :=
  ⟨source, wire.header, wire.ciphertext.plaintext, wire⟩

/-- The packets on their way from `p`, at `addr`, to the control task of `m`, which
has received `got` of them; the oldest first. -/
def arriving (addr : SocketAddr) (m p : Band) (got : Nat) : List Inbound :=
  m.controlQueue ++ m.recvLoop.inHand ++
    (p.outbox.drop got).map fun out => .opened addr out.2

/-! ### The messages of a handshake -/

/-- The body of the HELLO of `connect_peer`. -/
def helloOf (cfg : ControlConfig) : Payload :=
  .json ⟨typeHello, .ofHello ⟨cfg.hostname, cfg.capabilities, cfg.ciphers, cfg.session⟩⟩

/-- The answer of a band to such a HELLO of its peer. -/
def ackOf (own peer : ControlConfig) : HelloAck :=
  ⟨own.hostname, own.capabilities, own.ciphers, selectCipher peer.ciphers own.ciphers,
    own.session⟩

/-- What the receiver of a HELLO_ACK commits to. -/
def knownCipher (cipher : String) : String :=
  if (Suite.fromId cipher).isSome then cipher else baselineCipher

/-- A packet as a message of the exchange. -/
def Inbound.greet (pkt : Inbound) : Option (Greet String) :=
  pkt.payload.envelope.bind fun env =>
    if env.type = typeHello then some .hello
    else env.payload.helloAck.map fun ack => .ack ack.cipher

/-- The cipher of an answer still to be sent. -/
def Effect.answers : Effect → Option String
  | .sendHelloAck _ ack => some ack.cipher
  | _ => none

/-- The cipher a HELLO of `x` leads to. -/
def choice (cfg : Side → ControlConfig) (x : Side) : String :=
  selectCipher (cfg x).ciphers (cfg x.other).ciphers

namespace Pair

/-- The packets on their way to `x`. -/
def inbound (addr : Side → SocketAddr) (s : Pair) (x : Side) : List Inbound :=
  arriving (addr x.other) (s.band x) (s.band x.other) (s.got x)

/-- No packet is on its way, and both control tasks are done with what they took. -/
def Idle (addr : Side → SocketAddr) (s : Pair) : Prop :=
  ∀ x, s.inbound addr x = [] ∧ (s.band x).pending = []

instance (addr : Side → SocketAddr) (s : Pair) : Decidable (s.Idle addr) :=
  decidable_of_iff ((s.inbound addr .a = [] ∧ (s.band .a).pending = []) ∧
      s.inbound addr .b = [] ∧ (s.band .b).pending = [])
    ⟨fun h x => by
      cases x with
      | a => exact h.1
      | b => exact h.2, fun h => ⟨h .a, h .b⟩⟩

/-- The answers `x` still has to send. -/
def due (s : Pair) (x : Side) : List String := (s.band x).pending.filterMap Effect.answers

/-- No HELLO of the other side waits for an answer of `x`. -/
def Answered (addr : Side → SocketAddr) (s : Pair) (x : Side) : Prop :=
  s.due x = [] ∧ ∀ pkt ∈ s.inbound addr x, pkt.greet ≠ some .hello

instance (addr : Side → SocketAddr) (s : Pair) (x : Side) : Decidable (s.Answered addr x) :=
  inferInstanceAs (Decidable (_ ∧ ∀ pkt ∈ s.inbound addr x, pkt.greet ≠ some .hello))

end Pair

end Telesthete.Band
