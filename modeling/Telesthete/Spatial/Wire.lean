import Telesthete.Lib.Assoc
import Telesthete.Lib.Bytes

/-!
# Framing of the spatial transport (TELESTHETE §2, §4, §5)

The spatial transport carries the messages of one session over a TCP stream and UDP
datagrams. Here is what goes inside their encryption: the framing of a message in a
TCP record, the header of a fragment, the splitting of a message into fragments, and
`UdpReasm`, which puts fragments together and keeps the newest sequence number of
each window, so that an older message for the same window is dropped.

Integers have the widths of the code: `seq` and message ids wrap at `2 ^ 32`, the
index and the count of fragments at `2 ^ 16`.
-/

namespace Telesthete.Spatial

open Telesthete.Lib

def chInput : UInt8 := 1

/-- The reserved channel of the keepalive records. -/
def chKeepalive : UInt8 := 0xFE

/-- The high bit of an input opcode: the message is coalescible. -/
def coalescibleBit : UInt8 := 0x80

def dtData : UInt8 := 0
def dtFrag : UInt8 := 1
def dtHello : UInt8 := 2
def dtPing : UInt8 := 3
def dtPong : UInt8 := 4

/-- Whether a message rides UDP: a texture channel, audio, or coalescible input. -/
def isUdp (channel firstOp : UInt8) : Bool :=
  if channel = 0 ∨ channel = 201 then false
  else if channel = chInput then firstOp &&& coalescibleBit ≠ 0
  else channel = 200 || (2 ≤ channel && channel ≤ 9)

/-! ## TCP records -/

def frameTcp (channel : UInt8) (msg : Bytes) : Bytes := channel :: (toLe 4 msg.length ++ msg)

/-- The message framed at the front of `buf`. -/
def parseTcp (buf : Bytes) : Option (UInt8 × Bytes) :=
  if buf.length < 5 then none
  else
    let len := ofLe ((buf.drop 1).take 4)
    if buf.length < 5 + len then none else some (buf.headD 0, (buf.drop 5).take len)

@[simp] theorem length_frameTcp (channel : UInt8) (msg : Bytes) :
    (frameTcp channel msg).length = 5 + msg.length := by
  simp [frameTcp]
  omega

theorem parseTcp_frameTcp {channel : UInt8} {msg : Bytes} (h : msg.length < 2 ^ 32) :
    parseTcp (frameTcp channel msg) = some (channel, msg) := by
  have hlen : ofLe (((frameTcp channel msg).drop 1).take 4) = msg.length := by
    rw [frameTcp, List.drop_one, List.tail_cons, List.take_left' (length_toLe 4 _),
      ofLe_toLe (by omega)]
  have hmsg : ((frameTcp channel msg).drop 5).take msg.length = msg := by
    simp [frameTcp]
  simp only [parseTcp, hlen, length_frameTcp, hmsg]
  rw [if_neg (by omega), if_neg (by omega)]
  rfl

/-! ## Datagrams -/

/-- Header of a fragment: message id, index, count. -/
def fragBody (msgId : UInt32) (idx count : UInt16) (slice : Bytes) : Bytes :=
  toLe 4 msgId.toNat ++ (toLe 2 idx.toNat ++ (toLe 2 count.toNat ++ slice))

def parseFrag (body : Bytes) : Option (UInt32 × UInt16 × UInt16 × Bytes) :=
  if body.length < 8 then none
  else
    some (UInt32.ofNat (ofLe (body.take 4)), UInt16.ofNat (ofLe ((body.drop 4).take 2)),
      UInt16.ofNat (ofLe ((body.drop 6).take 2)), body.drop 8)

/-- Pieces of `n` bytes; the length of the bytes is fuel enough. -/
def chunks (n : Nat) : Nat → Bytes → List Bytes
  | 0, _ => []
  | fuel + 1, bs => if bs = [] then [] else bs.take n :: chunks n fuel (bs.drop n)

/-- The bytes of a message that fit one datagram, beside the header and the tag. -/
def payloadSize (mtu : Nat) : Nat := max (mtu - (8 + 16)) 1

/-- Split a message into slices for its datagrams. -/
def fragment (msg : Bytes) (mtu : Nat) : List Bytes :=
  if msg.length ≤ payloadSize mtu then [msg] else chunks (payloadSize mtu) msg.length msg

/-- The window a message is for: its first word after the envelope. -/
def windowKey (channel : UInt8) (msg : Bytes) : UInt32 :=
  if channel = 200 ∨ msg.length < 8 then 0 else UInt32.ofNat (ofLe ((msg.drop 4).take 4))

/-! ## Reassembly -/

structure FragSet where
  count : UInt16
  parts : List (Option Bytes)
  /-- The number of parts there are; `have` in the code. -/
  held : UInt16
deriving DecidableEq

structure UdpReasm where
  lastSeq : AList fun _ : UInt8 × UInt32 => UInt32
  frags : AList fun _ : UInt8 × UInt32 => FragSet

/-- Wrap-aware comparison of sequence numbers. -/
def newer (seq last : UInt32) : Bool := seq ≠ last && seq - last < 0x80000000

/-- Put a slice in its place, if that is empty. -/
def FragSet.put (s : FragSet) (idx : UInt16) (slice : Bytes) : FragSet :=
  match s.parts[idx.toNat]? with
  | some none => { s with parts := s.parts.set idx.toNat (some slice), held := s.held + 1 }
  | _ => s

namespace UdpReasm

def empty : UdpReasm := ⟨∅, ∅⟩

/-- A DATA datagram; answers its message if it is fresh. -/
def onData (r : UdpReasm) (channel : UInt8) (seq : UInt32) (msg : Bytes) :
    UdpReasm × Option Bytes :=
  let key := (channel, windowKey channel msg)
  if channel = 200 then (r, some msg)
  else if (r.lastSeq.lookup key).any fun last => !newer seq last then (r, none)
  else ({ r with lastSeq := r.lastSeq.insert key seq }, some msg)

/-- A FRAG datagram; answers the message when its last piece arrives. -/
def onFrag (r : UdpReasm) (channel : UInt8) (msgId : UInt32) (idx count : UInt16)
    (slice : Bytes) : UdpReasm × Option Bytes :=
  if count = 0 ∨ count ≤ idx then (r, none)
  else
    let key := (channel, msgId)
    -- a newer message id on the same channel supersedes older incomplete sets
    let frags := retain (fun k => k.1 ≠ channel || k.2 = msgId || newer k.2 msgId) r.frags
    let set := (frags.lookup key).getD ⟨count, List.replicate count.toNat none, 0⟩
    if set.count ≠ count then ({ r with frags := frags }, none)
    else
      let set := set.put idx slice
      if set.held = set.count then
        ({ r with frags := frags.erase key }, some (set.parts.flatMap fun p => p.getD []))
      else ({ r with frags := frags.insert key set }, none)

end UdpReasm

end Telesthete.Spatial
