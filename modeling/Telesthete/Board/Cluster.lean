import Telesthete.Board.Core
import Telesthete.Lib.Run

/-!
# Copies of a Board

A `Cluster` are the endpoints that hold copies of one board, and everything
they have produced: SETs and SNAPSHOTs. The network may lose, repeat, delay and
reorder it, so an endpoint may at any time get any SET that was ever written
and any SNAPSHOT that was ever taken, its own included.

A band that opens a board again gets a new endpoint with an empty core. The
old one is out of the hub's table, but still there for whoever holds it: it
may write, and it may still have packets in its queue.
-/

namespace Telesthete.Board

open Telesthete.Lib Option

variable {V : Type} {checks : Bool}

structure Endpoint (V : Type) where
  core : BoardCore V
  /-- History: what it wrote or merged. -/
  seen : List (SetPayload V)

/-- A local write at an endpoint, or a SET that arrives from anywhere. -/
inductive Endpoint.Event (V : Type) where
  | set (key : String) (value : Option V)
  | delete (key : String)
  | merge (p : SetPayload V)

/-- One endpoint on its own, which merges whatever parses as a SET. -/
def Endpoint.step (checks : Bool) (ep : Endpoint V) : Endpoint.Event V → Option (Endpoint V)
  | .set key value => (ep.core.set checks key value).map fun r => ⟨r.1, ep.seen ++ [r.2]⟩
  | .delete key => (ep.core.delete checks key).map fun r => ⟨r.1, ep.seen ++ [r.2]⟩
  | .merge p => some ⟨(ep.core.mergeEntry p).1, ep.seen ++ [p]⟩

theorem Endpoint.step_cases {ep ep' : Endpoint V} {e : Endpoint.Event V}
    (h : ep.step checks e = some ep') :
    (∃ key value deleted b' p, ep.core.write checks key value deleted = some (b', p) ∧
      ep' = ⟨b', ep.seen ++ [p]⟩) ∨
    ∃ p, ep' = ⟨(ep.core.mergeEntry p).1, ep.seen ++ [p]⟩ := by
  cases e with
  | set key value =>
    obtain ⟨⟨b', p⟩, hwrite, rfl⟩ := map_eq_some_iff.mp h
    exact .inl ⟨key, value, false, b', p, hwrite, rfl⟩
  | delete key =>
    obtain ⟨⟨b', p⟩, hwrite, rfl⟩ := map_eq_some_iff.mp h
    exact .inl ⟨key, none, true, b', p, hwrite, rfl⟩
  | merge p => exact .inr ⟨p, (Option.some.inj h).symm⟩

structure Cluster (V : Type) where
  endpoints : List (Endpoint V)
  /-- History: the SETs of all local writes. -/
  written : List (SetPayload V)
  /-- History: the SNAPSHOTs that were taken. -/
  snapshots : List (List (SetPayload V))

namespace Cluster

/-- Before anybody has opened the board. -/
def empty : Cluster V := ⟨[], [], []⟩

inductive Event (V : Type) where
  /-- `BoardHub::open` of the band with this hostname. -/
  | new (actor : String)
  | set (endpoint : Nat) (key : String) (value : Option V)
  | delete (endpoint : Nat) (key : String)
  /-- An answer to a SYNC_REQ, or a call of `send_snapshot`. -/
  | snapshot (endpoint : Nat)
  /-- A SET arrives, by its number. -/
  | deliver (endpoint set : Nat)
  /-- A SNAPSHOT arrives, by its number. -/
  | deliverSnapshot (endpoint snapshot : Nat)

/-- The outcome of a local write at `ep`, the endpoint `i`. -/
def wrote (c : Cluster V) (i : Nat) (ep : Endpoint V) (r : BoardCore V × SetPayload V) :
    Cluster V :=
  { c with
    endpoints := c.endpoints.set i ⟨r.1, ep.seen ++ [r.2]⟩
    written := c.written ++ [r.2] }

/-- `ep`, the endpoint `i`, merges what arrived. -/
def merged (c : Cluster V) (i : Nat) (ep : Endpoint V) (entries : List (SetPayload V)) :
    Cluster V :=
  { c with endpoints := c.endpoints.set i ⟨ep.core.mergeSnapshot entries, ep.seen ++ entries⟩ }

def step (checks : Bool) (c : Cluster V) : Event V → Option (Cluster V)
  | .new actor => some { c with endpoints := c.endpoints ++ [⟨.new actor, []⟩] }
  | .set i key value =>
    c.endpoints[i]?.bind fun ep => (ep.core.set checks key value).map (c.wrote i ep)
  | .delete i key =>
    c.endpoints[i]?.bind fun ep => (ep.core.delete checks key).map (c.wrote i ep)
  | .snapshot i =>
    c.endpoints[i]?.map fun ep => { c with snapshots := c.snapshots ++ [ep.core.snapshot] }
  | .deliver i n =>
    c.endpoints[i]?.bind fun ep => c.written[n]?.map fun p => c.merged i ep [p]
  | .deliverSnapshot i n =>
    c.endpoints[i]?.bind fun ep => c.snapshots[n]?.map fun entries => c.merged i ep entries

/-- The endpoint that an event writes through. -/
def Event.writer (c : Cluster V) : Event V → Option (Endpoint V)
  | .set i _ _ => c.endpoints[i]?
  | .delete i _ => c.endpoints[i]?
  | _ => none

/-- What one step does, as far as the map is concerned. -/
inductive Steps (checks : Bool) (c : Cluster V) (e : Event V) : Cluster V → Prop
  | opened (actor : String) (he : e = .new actor) :
      Steps checks c e { c with endpoints := c.endpoints ++ [⟨.new actor, []⟩] }
  | wrote (i : Nat) (ep : Endpoint V) (key : String) (value : Option V) (deleted : Bool)
      (r : BoardCore V × SetPayload V) (hep : c.endpoints[i]? = some ep)
      (hwriter : e.writer c = some ep) (hwrite : ep.core.write checks key value deleted = some r) :
      Steps checks c e (c.wrote i ep r)
  | took (i : Nat) (ep : Endpoint V) (hep : c.endpoints[i]? = some ep) :
      Steps checks c e { c with snapshots := c.snapshots ++ [ep.core.snapshot] }
  | merged (i : Nat) (ep : Endpoint V) (entries : List (SetPayload V))
      (hep : c.endpoints[i]? = some ep)
      (hfrom : (∃ p ∈ c.written, entries = [p]) ∨ entries ∈ c.snapshots) :
      Steps checks c e (c.merged i ep entries)

theorem steps_of_step {c c' : Cluster V} {e : Event V} (h : c.step checks e = some c') :
    Steps checks c e c' := by
  cases e with
  | new actor =>
    cases h
    exact .opened actor rfl
  | set i key value =>
    obtain ⟨ep, hep, hr⟩ := bind_eq_some_iff.mp h
    obtain ⟨r, hwrite, rfl⟩ := map_eq_some_iff.mp hr
    exact .wrote i ep key value false r hep hep hwrite
  | delete i key =>
    obtain ⟨ep, hep, hr⟩ := bind_eq_some_iff.mp h
    obtain ⟨r, hwrite, rfl⟩ := map_eq_some_iff.mp hr
    exact .wrote i ep key none true r hep hep hwrite
  | snapshot i =>
    obtain ⟨ep, hep, rfl⟩ := map_eq_some_iff.mp h
    exact .took i ep hep
  | deliver i n =>
    obtain ⟨ep, hep, hr⟩ := bind_eq_some_iff.mp h
    obtain ⟨p, hp, rfl⟩ := map_eq_some_iff.mp hr
    exact .merged i ep [p] hep (.inl ⟨p, List.mem_of_getElem? hp, rfl⟩)
  | deliverSnapshot i n =>
    obtain ⟨ep, hep, hr⟩ := bind_eq_some_iff.mp h
    obtain ⟨entries, hentries, rfl⟩ := map_eq_some_iff.mp hr
    exact .merged i ep entries hep (.inr (List.mem_of_getElem? hentries))

end Cluster

/-- The boards of a band, by their ids. -/
structure Network (V : Type) where
  boards : UInt16 → Cluster V

namespace Network

def empty : Network V := ⟨fun _ => .empty⟩

inductive Event (V : Type) where
  /-- The band with this hostname opens a board, for the first time or again. -/
  | open (hostname : String) (boardId : UInt16)
  | set (boardId : UInt16) (endpoint : Nat) (key : String) (value : Option V)
  | delete (boardId : UInt16) (endpoint : Nat) (key : String)
  | snapshot (boardId : UInt16) (endpoint : Nat)
  | deliver (boardId : UInt16) (endpoint set : Nat)
  | deliverSnapshot (boardId : UInt16) (endpoint snapshot : Nat)

def Event.boardId : Event V → UInt16
  | .open _ d | .set d _ _ _ | .delete d _ _ | .snapshot d _ | .deliver d _ _
  | .deliverSnapshot d _ _ => d

/-- What happens to the copies of that board. The actor of an endpoint is the
hostname of its band. -/
def Event.local : Event V → Cluster.Event V
  | .open hostname _ => .new hostname
  | .set _ i key value => .set i key value
  | .delete _ i key => .delete i key
  | .snapshot _ i => .snapshot i
  | .deliver _ i n => .deliver i n
  | .deliverSnapshot _ i n => .deliverSnapshot i n

def step (checks : Bool) (n : Network V) (e : Event V) : Option (Network V) :=
  ((n.boards e.boardId).step checks e.local).map fun c =>
    ⟨Function.update n.boards e.boardId c⟩

end Network

end Telesthete.Board
