import Telesthete.Lib.Run
import Telesthete.Lib.Symbolic

/-!
# The handshake of the spatial transport (TELESTHETE §3)

A client and a host that share a PSK agree on the keys of a session by an ephemeral
Diffie-Hellman exchange that is mixed with the PSK, and confirm the keys to each
other. Everything the code computes with is a symbolic term: a public key is the
generator to the power of a secret, HKDF and HMAC are free functions.

A message arrives as the fields the code reads at their offsets, whatever term the
sender put there; a message too short for the fields has none of them. Bytes after
the fields are not read. Ports are carried along and bound to nothing.

In a `Network` any number of clients and hosts, each with a PSK of its own, run
handshakes. An attacker carries every message: it may deliver anything it can make
from what was ever sent, what it knows itself and the PSKs that have leaked.
-/

namespace Telesthete.Spatial

open Telesthete.Lib

/-- Where the terms start from: PSKs, what an honest end drew at random, and what the attacker
made up. -/
inductive Atom where
  | psk (k : Nat)
  | fresh (n : Nat)
  | own (n : Nat)
deriving DecidableEq, Repr

abbrev Msg := Term Atom

inductive HsError where
  | badVersion
  | shortMessage
  | badConfirm
deriving DecidableEq, Repr

structure SessionKeys where
  kTcpTx : Msg
  kTcpRx : Msg
  kUdpTx : Msg
  kUdpRx : Msg
  sessionId : Msg
deriving DecidableEq

/-- The output of HKDF in its five parts. -/
structure Derived where
  c2h : Msg
  h2c : Msg
  uc2h : Msg
  uh2c : Msg
  sid : Msg

def version : UInt8 := 1

/-- The base point of the curve. -/
def basePoint : Msg := .const [9]

def publicKey (secret : Atom) : Msg := .pow secret basePoint

/-- The bytes of an ASCII label. -/
def label (s : String) : Msg := .const (s.toList.map fun c => UInt8.ofNat c.toNat)

def derive (dh psk transcript : Msg) : Derived :=
  let okm slot := Term.kdf slot (.pair dh psk) transcript (label "telesthete-v1")
  ⟨okm 0, okm 1, okm 2, okm 3, okm 4⟩

def confirm (key : Msg) (name : String) (transcript : Msg) : Msg :=
  .mac key (.pair (label name) transcript)

def transcript (ec eh nc nh : Msg) : Msg :=
  .pair (.const [version]) (.pair ec (.pair eh (.pair nc nh)))

/-! ## The client -/

structure ClientHandshake where
  secret : Atom
  ecPub : Msg
  nc : Msg
  psk : Nat
deriving DecidableEq

/-- The first message: version, public key, nonce and UDP port. A message that arrives may have no
first byte, or be too short for the rest. -/
structure Hello1 where
  version : Option UInt8
  body : Option (Msg × Msg × UInt16)

/-- The terms in it. -/
def Hello1.terms (m : Hello1) : List Msg := m.body.elim [] fun b => [b.1, b.2.1]

/-- The answer: public key, nonce, confirmation and UDP port. -/
structure Hello2 where
  eh : Msg
  nh : Msg
  confirmH : Msg
  port : UInt16

namespace ClientHandshake

/-- `secret` and `nc` are drawn at random. -/
def new (psk : Nat) (secret nc : Atom) : ClientHandshake := ⟨secret, publicKey secret, .atom nc, psk⟩

def hello1 (c : ClientHandshake) (udpPort : UInt16) : Hello1 :=
  ⟨some Spatial.version, some (c.ecPub, c.nc, udpPort)⟩

/-- Check the host's proof; answers the keys, the host's port and the confirmation to send. -/
def recvHello2 (c : ClientHandshake) (hello2 : Option Hello2) :
    Except HsError (SessionKeys × UInt16 × Msg) :=
  match hello2 with
  | none => .error .shortMessage
  | some m =>
    let dh := Term.pow c.secret m.eh
    let t := transcript c.ecPub m.eh c.nc m.nh
    let k := derive dh (.atom (.psk c.psk)) t
    if confirm k.h2c "host-confirm" t ≠ m.confirmH then .error .badConfirm
    else .ok (⟨k.c2h, k.h2c, k.uc2h, k.uh2c, k.sid⟩, m.port, confirm k.c2h "client-confirm" t)

end ClientHandshake

/-! ## The host -/

structure PendingConfirm where
  kC2h : Msg
  transcript : Msg
deriving DecidableEq

/-- Answer a first message, with `secret` and `nh` drawn at random. -/
def hostRespond (hello1 : Hello1) (psk : Nat) (hostUdpPort : UInt16) (secret nh : Atom) :
    Except HsError (Hello2 × SessionKeys × PendingConfirm × UInt16) :=
  if hello1.version ≠ some version then .error .badVersion
  else
    match hello1.body with
    | none => .error .shortMessage
    | some (ec, nc, clientUdp) =>
      let eh := publicKey secret
      let dh := Term.pow secret ec
      let t := transcript ec eh nc (.atom nh)
      let k := derive dh (.atom (.psk psk)) t
      .ok (⟨eh, .atom nh, confirm k.h2c "host-confirm" t, hostUdpPort⟩,
        ⟨k.h2c, k.c2h, k.uh2c, k.uc2h, k.sid⟩, ⟨k.c2h, t⟩, clientUdp)

/-- Check the client's proof. -/
def PendingConfirm.verify (p : PendingConfirm) (confirm3 : Option Msg) : Except HsError Unit :=
  match confirm3 with
  | none => .error .shortMessage
  | some tag =>
    if confirm p.kC2h "client-confirm" p.transcript = tag then .ok () else .error .badConfirm

/-! ## Handshakes on a network -/

/-- A client that accepted, with what it accepted. -/
structure Client where
  handshake : ClientHandshake
  eh : Msg
  nh : Msg
  keys : SessionKeys
deriving DecidableEq

/-- A host that answered, with what it answered to. -/
structure Host where
  psk : Nat
  secret : Atom
  ec : Msg
  nc : Msg
  eh : Msg
  nh : Msg
  keys : SessionKeys
  pending : PendingConfirm
deriving DecidableEq

structure Network where
  /-- Every client handshake begun, and those still waiting for an answer. -/
  begun : List ClientHandshake
  waiting : List ClientHandshake
  /-- The clients that accepted. -/
  clients : List Client
  /-- The hosts that answered, and those whose client then proved itself. -/
  hosts : List Host
  accepted : List Host
  /-- Every term that was sent. -/
  sent : List Msg
  /-- The number of random values drawn. -/
  drawn : Nat

inductive Move where
  | begin (psk : Nat) (udpPort : UInt16)
  /-- The `i`-th waiting client gets an answer. -/
  | answer (i : Nat) (hello2 : Option Hello2)
  | respond (psk : Nat) (hello1 : Hello1) (udpPort : UInt16)
  /-- The `j`-th host gets a confirmation. -/
  | verify (j : Nat) (confirm3 : Option Msg)

namespace Network

def init : Network := ⟨[], [], [], [], [], [], 0⟩

/-- A client draws a secret and a nonce and sends its first message. -/
def begin (n : Network) (psk : Nat) (udpPort : UInt16) : Network :=
  let c := ClientHandshake.new psk (.fresh n.drawn) (.fresh (n.drawn + 1))
  { n with
    begun := n.begun ++ [c]
    waiting := n.waiting ++ [c]
    sent := n.sent ++ (c.hello1 udpPort).terms
    drawn := n.drawn + 2 }

/-- The answer uses the handshake up, whether it is accepted or not. -/
def answer (n : Network) (i : Nat) (c : ClientHandshake) (hello2 : Option Hello2) : Network :=
  let n := { n with waiting := n.waiting.eraseIdx i }
  match hello2, c.recvHello2 hello2 with
  | some m, .ok (keys, _, confirmC) =>
    { n with clients := n.clients ++ [⟨c, m.eh, m.nh, keys⟩], sent := n.sent ++ [confirmC] }
  | _, _ => n

def respond (n : Network) (psk : Nat) (hello1 : Hello1) (udpPort : UInt16) : Network :=
  let secret := Atom.fresh n.drawn
  let n' := { n with drawn := n.drawn + 2 }
  match hello1.body, hostRespond hello1 psk udpPort secret (.fresh (n.drawn + 1)) with
  | some (ec, nc, _), .ok (hello2, keys, pending, _) =>
    { n' with
      hosts := n.hosts ++ [⟨psk, secret, ec, nc, hello2.eh, hello2.nh, keys, pending⟩]
      sent := n.sent ++ [hello2.eh, hello2.nh, hello2.confirmH] }
  | _, _ => n'

def verify (n : Network) (h : Host) (confirm3 : Option Msg) : Network :=
  match h.pending.verify confirm3 with
  | .ok _ => { n with accepted := n.accepted ++ [h] }
  | .error _ => n

def exec (n : Network) : Move → Option Network
  | .begin psk udpPort => some (n.begin psk udpPort)
  | .answer i hello2 => n.waiting[i]?.map fun c => n.answer i c hello2
  | .respond psk hello1 udpPort => some (n.respond psk hello1 udpPort)
  | .verify j confirm3 => n.hosts[j]?.map fun h => n.verify h confirm3

/-- What the attacker has: what was sent, the PSKs that leaked, and values of its own. -/
inductive Seen (leaked : Nat → Prop) (n : Network) : Msg → Prop where
  | sent {t : Msg} : t ∈ n.sent → Seen leaked n t
  | psk {k : Nat} : leaked k → Seen leaked n (.atom (.psk k))
  | own (k : Nat) : Seen leaked n (.atom (.own k))

/-- The attacker can make the message that is delivered. -/
def Deliverable (leaked : Nat → Prop) (n : Network) : Move → Prop
  | .begin _ _ => True
  | .answer _ hello2 => ∀ m, hello2 = some m →
      Term.Derives (Seen leaked n) m.eh ∧ Term.Derives (Seen leaked n) m.nh ∧
        Term.Derives (Seen leaked n) m.confirmH
  | .respond _ hello1 _ => ∀ ec nc port, hello1.body = some (ec, nc, port) →
      Term.Derives (Seen leaked n) ec ∧ Term.Derives (Seen leaked n) nc
  | .verify _ confirm3 => ∀ tag, confirm3 = some tag → Term.Derives (Seen leaked n) tag

/-- The networks an attacker can bring about. -/
def Reachable (leaked : Nat → Prop) (n : Network) : Prop :=
  GuardedRun exec (Deliverable leaked) init n

end Network

end Telesthete.Spatial
