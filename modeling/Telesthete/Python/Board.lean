import Telesthete.Board.Cluster
import Telesthete.Lib.Dict

/-!
# The map of the Python Board (SPEC §7)

The state of `Board` and the methods that change or hash it. Integers are not
bounded, so the clock can leave the range of the wire; `mergeEntry` refuses a
SET whose clock does, and `digest` raises if one got in, which is `none` here.
Entries are in a dictionary, and strings are compared by code points, in the
comparison of timestamps as in `sorted`.

What `set` and `delete` broadcast is their second result. The callback, the
transport and the decoding of a SET from JSON are left out.
-/

namespace Telesthete.Python

open Telesthete.Lib Telesthete.Crypto

variable {V : Type}

structure BoardEntry (V : Type) where
  value : Option V
  lamport : Int
  actor : String
  deleted : Bool
deriving DecidableEq, Repr

def BoardEntry.ts (e : BoardEntry V) : Int × String := (e.lamport, e.actor)

/-- `s <= t` on tuples of a clock and an actor. -/
def tsLe (s t : Int × String) : Bool := s.1 < t.1 || s.1 = t.1 && s.2 ≤ t.2

/-- `0 <= lamport < (1 << 64)` -/
def inRange : Int → Bool
  | .ofNat lamport => lamport < 2 ^ 64
  | .negSucc _ => false

/-- `lamport.to_bytes(8, "big")`; `none` is its `OverflowError`. -/
def toBytes8 (lamport : Int) : Option Bytes :=
  if inRange lamport then some (toBe 8 lamport.toNat) else none

structure Board (V : Type) where
  actor : String
  entries : Dict String (BoardEntry V)
  lamport : Int

namespace Board

/-- What a SET carries. A missing value is `None`, and a missing flag `False`. -/
structure Payload (V : Type) where
  key : String
  value : Option V
  ts : Int × String
  deleted : Bool
deriving DecidableEq, Repr

def toPayload (key : String) (e : BoardEntry V) : Payload V := ⟨key, e.value, e.ts, e.deleted⟩

def new (actor : String) : Board V := ⟨actor, Dict.empty, 0⟩

/-- A local write, and the SET to broadcast. -/
def write (b : Board V) (key : String) (value : Option V) (deleted : Bool) :
    Board V × Payload V :=
  let lamport := b.lamport + 1
  let entry : BoardEntry V := ⟨value, lamport, b.actor, deleted⟩
  ({ b with lamport := lamport, entries := b.entries.set key entry }, toPayload key entry)

def set (b : Board V) (key : String) (value : Option V) : Board V × Payload V :=
  b.write key value false

def delete (b : Board V) (key : String) : Board V × Payload V := b.write key none true

/-- The merge rule (§7.3); whether it changed anything. -/
def mergeEntry (b : Board V) (p : Payload V) : Board V × Bool :=
  if !inRange p.ts.1 then (b, false)
  else
    let incoming : BoardEntry V := ⟨p.value, p.ts.1, p.ts.2, p.deleted⟩
    let b := { b with lamport := max b.lamport p.ts.1 }
    if (b.entries.get? p.key).any (tsLe incoming.ts ·.ts) then (b, false)
    else ({ b with entries := b.entries.set p.key incoming }, true)

/-- What the digest reads of an entry. -/
def digestBytes (key : String) (e : BoardEntry V) : Option Bytes :=
  (toBytes8 e.lamport).map fun lamport =>
    utf8 key ++ lamport ++ utf8 e.actor ++ [if e.deleted then 1 else 0]

/-- `sorted(self._entries)` -/
def sortedKeys (b : Board V) : List String :=
  (b.entries.entries.map Prod.fst).mergeSort fun s t => s ≤ t

def digest (sha256 : Bytes → Bytes) (b : Board V) : Option (Nat × String) :=
  (b.sortedKeys.mapM fun key => (b.entries.get? key).bind (digestBytes key)).map fun read =>
    (b.entries.length, Telesthete.Board.BoardCore.toHex (sha256 read.flatten))

end Board

end Telesthete.Python
