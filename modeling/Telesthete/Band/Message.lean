import Telesthete.Wire.Framing

/-!
# Control messages and payloads (SPEC §4)

A control payload is the JSON text of an envelope, a message type and a
payload object. The text itself is left to the JSON library: a `Value`
stands for a JSON object by what reading it as each message type yields, the
missing fields filled in by their defaults and the unknown ones ignored, and
a `Payload` is either such a text or a string of bytes that is not one.
-/

namespace Telesthete.Band

open Telesthete.Lib

structure SocketAddr where
  ip : Nat
  port : UInt16
deriving DecidableEq, Repr

def typeHello : UInt8 := 0x01
def typeHelloAck : UInt8 := 0x02
def typeKeepalive : UInt8 := 0x03
def typeGoodbye : UInt8 := 0x06
def typeKeyframeReq : UInt8 := 0x07
def typeRateHint : UInt8 := 0x08

structure Hello where
  hostname : String
  capabilities : List String
  /-- Ordered AEAD preference list (§3.5). -/
  ciphers : List String
  /-- Monotonic session epoch (§4.3). -/
  session : UInt64
deriving DecidableEq, Repr

structure HelloAck where
  hostname : String
  capabilities : List String
  ciphers : List String
  /-- Committed negotiated suite, chosen by the responder (§3.5). -/
  cipher : String
  session : UInt64
deriving DecidableEq, Repr

structure KeyframeReq where
  streamId : UInt16
deriving DecidableEq, Repr

structure RateHint where
  streamId : UInt16
  targetBps : UInt32
  /-- An `f32`, by its bits. -/
  loss : UInt32
deriving DecidableEq, Repr

/-- A JSON object, by its readings. -/
structure Value where
  hello : Option Hello
  helloAck : Option HelloAck
  keyframeReq : Option KeyframeReq
  rateHint : Option RateHint
deriving DecidableEq, Repr

namespace Value

/-- The object with no fields, which no message but the empty ones reads. -/
def empty : Value := ⟨none, none, none, none⟩

def ofHello (h : Hello) : Value :=
  { empty with
    hello := some h
    helloAck := some ⟨h.hostname, h.capabilities, h.ciphers, "", h.session⟩ }

def ofHelloAck (a : HelloAck) : Value :=
  { empty with
    hello := some ⟨a.hostname, a.capabilities, a.ciphers, a.session⟩
    helloAck := some a }

def ofKeyframeReq (k : KeyframeReq) : Value := { empty with keyframeReq := some k }

def ofRateHint (r : RateHint) : Value :=
  { empty with keyframeReq := some ⟨r.streamId⟩, rateHint := some r }

end Value

structure ControlEnvelope where
  type : UInt8
  payload : Value
deriving DecidableEq, Repr

/-- HELLO and HELLO_ACK, the messages that carry an epoch. -/
def ControlEnvelope.isHandshake (env : ControlEnvelope) : Bool :=
  env.type = typeHello ∨ env.type = typeHelloAck

/-- The epoch a handshake carries. -/
def ControlEnvelope.epoch (env : ControlEnvelope) : UInt64 :=
  ((if env.type = typeHello then env.payload.hello.map (·.session)
    else env.payload.helloAck.map (·.session))).getD 0

/-- The plaintext of a packet. -/
inductive Payload where
  | json (env : ControlEnvelope)
  | bytes (bs : Bytes)
deriving DecidableEq, Repr

/-- The envelope a control payload parses to. -/
def Payload.envelope : Payload → Option ControlEnvelope
  | .json env => some env
  | .bytes _ => none

def Payload.isEmpty : Payload → Bool
  | .json _ => false
  | .bytes bs => bs.isEmpty

inductive ControlEvent where
  | hello (source : SocketAddr) (hostname : String) (capabilities ciphers : List String)
  | helloAck (source : SocketAddr) (hostname : String) (capabilities ciphers : List String)
      (cipher : String)
  | keepalive (source : SocketAddr)
  | goodbye (source : SocketAddr)
  | keyframeReq (source : SocketAddr) (streamId : UInt16)
  | rateHint (source : SocketAddr) (streamId : UInt16) (targetBps loss : UInt32)
  | other (source : SocketAddr) (type : UInt8) (payload : Value)
deriving DecidableEq, Repr

end Telesthete.Band
