import Mathlib.Data.List.Induction
import Telesthete.Band.StreamHub

/-!
# Which endpoint a stream packet goes to

Replay marks are kept per peer and stream, but the senders of the endpoints
per stream alone: an endpoint opened for another peer on the same stream id
takes the place of the one before it, and every packet on that id goes to
it. So a packet reaches its own peer's endpoint exactly where the last
endpoint opened on its id, by whomever, was opened for that peer, and an
open leaves the endpoints of other peers their packets exactly where it
finds no other peer's endpoint in its place.
-/

namespace Telesthete.Band.StreamHub

open Telesthete.Lib Telesthete.Crypto Telesthete.Wire List

variable {hub hub' : StreamHub} {endpoints : List StreamEndpoint} {e : StreamEndpoint}
  {keep : StreamEndpoint → Bool}

@[simp] theorem lastOpened_nil : lastOpened [] keep = none := rfl

theorem lastOpened_append : lastOpened (endpoints ++ [e]) keep =
    if keep e then some endpoints.length else lastOpened endpoints keep := by
  simp only [lastOpened, zipIdx_append, reverse_append, zipIdx_cons,
    zipIdx_nil, reverse_singleton, singleton_append, find?_cons, Nat.zero_add]
  cases keep e <;> rfl

theorem lastOpened_lt {i : Nat} (h : lastOpened endpoints keep = some i) :
    i < endpoints.length := by
  induction endpoints using List.reverseRecOn with
  | nil => cases h
  | append_singleton endpoints e ih =>
    rw [length_append, length_singleton]
    rw [lastOpened_append] at h
    split at h
    · cases h
      omega
    · have := ih h
      omega

/-- The endpoint with that number. -/
theorem getElem?_lastOpened {i : Nat} (h : lastOpened endpoints keep = some i) :
    endpoints[i]? = endpoints.reverse.find? keep := by
  induction endpoints using List.reverseRecOn with
  | nil => cases h
  | append_singleton endpoints e ih =>
    rw [lastOpened_append] at h
    rw [reverse_append, reverse_singleton, singleton_append, find?_cons]
    split at h
    · next hkeep =>
      cases h
      simp [hkeep]
    · next hkeep =>
      rw [getElem?_append_left (lastOpened_lt h), ih h]
      simp [hkeep]

theorem exists_lastOpened (h : endpoints.reverse.find? keep = some e) :
    ∃ i, lastOpened endpoints keep = some i := by
  induction endpoints using List.reverseRecOn with
  | nil => cases h
  | append_singleton endpoints e' ih =>
    rw [lastOpened_append]
    rw [reverse_append, reverse_singleton, singleton_append, find?_cons] at h
    cases hkeep : keep e' with
    | true => exact ⟨_, if_pos rfl⟩
    | false =>
      rw [hkeep] at h
      exact ih h

/-- The last endpoint of a peer's stream is the last of the stream, if that is the peer's. -/
theorem lastOpened_eq_iff {peer : SocketAddr} {streamId : UInt16} :
    lastOpened endpoints (· = ⟨peer, streamId⟩) = lastOpened endpoints (·.streamId = streamId) ↔
      ∀ e, endpoints.reverse.find? (·.streamId = streamId) = some e → e.peer = peer := by
  induction endpoints using List.reverseRecOn with
  | nil => simp
  | append_singleton endpoints e ih =>
    rw [lastOpened_append, lastOpened_append, reverse_append, reverse_singleton,
      singleton_append, find?_cons]
    by_cases hid : e.streamId = streamId
    · by_cases hpeer : e.peer = peer
      · have he : e = ⟨peer, streamId⟩ := by rw [← hid, ← hpeer]
        simp [he]
      · have he : e ≠ ⟨peer, streamId⟩ := by
          rintro rfl
          exact hpeer rfl
        have hne : lastOpened endpoints (· = ⟨peer, streamId⟩) ≠ some endpoints.length :=
          fun hlast => lt_irrefl _ (lastOpened_lt hlast)
        simp [hid, he, hpeer, hne]
    · have he : e ≠ ⟨peer, streamId⟩ := by
        rintro rfl
        exact hid rfl
      simp only [decide_eq_false hid, decide_eq_false he]
      exact ih

/-- The task keeps, for each stream id, the last endpoint opened on it. -/
structure Inv (hub : StreamHub) : Prop where
  kind : hub.task.kind = .streamHub
  opened : hub.task.opened = hub.endpoints.length
  outlets : ∀ streamId, hub.task.outlets.lookup (none, streamId) =
    lastOpened hub.endpoints (·.streamId = streamId)

theorem inv_new (next : Nat) : Inv (.new next) := ⟨rfl, rfl, fun _ => rfl⟩

theorem Inv.open (h : Inv hub) (peer : SocketAddr) (streamId : UInt16) :
    Inv (hub.open peer streamId) where
  kind := h.kind
  opened := by simp [StreamHub.open, Subscriber.openOutlet, h.opened]
  outlets := by
    intro id
    simp only [StreamHub.open, Subscriber.openOutlet, lookup_insert_ite, lastOpened_append,
      h.opened, h.outlets, Prod.mk.injEq, true_and, decide_eq_true_eq, eq_comm (a := id)]

theorem Inv.exec {ev : Event} (h : Inv hub) (he : hub.exec ev = some hub') : Inv hub' := by
  cases ev with
  | opens peer streamId =>
    cases he
    exact h.open peer streamId
  | inbound pkt =>
    cases he
    rcases hub.task.handle_cases pkt with heq | ⟨marks, -, heq⟩
    · rw [heq]
      exact h
    · rw [heq]
      exact ⟨h.kind, h.opened, h.outlets⟩
  | rebase sent =>
    obtain ⟨task, htask, rfl⟩ := Option.map_eq_some_iff.mp he
    obtain ⟨⟨addr, next⟩, -, heq⟩ := Option.map_eq_some_iff.mp htask
    subst heq
    cases addr with
    | none => exact ⟨h.kind, h.opened, h.outlets⟩
    | some addr => exact ⟨h.kind, h.opened, h.outlets⟩

theorem Reachable.inv (h : Reachable hub) : Inv hub := by
  obtain ⟨next, hrun⟩ := h
  exact hrun.invariant (inv_new next) fun _ _ _ h _ he => h.exec he

theorem Inv.outlet (h : Inv hub) (pkt : Inbound) :
    hub.task.outlet pkt = lastOpened hub.endpoints (·.streamId = pkt.header.channelId) := by
  rw [Subscriber.outlet, h.kind]
  exact h.outlets _

/-- An accepted packet is handed to the outlet of its stream id. -/
theorem handedTo_of_accepts {pkt : Inbound} (h : hub.accepts pkt = true) :
    hub.handedTo pkt = (hub.task.outlet pkt).toList := by
  obtain ⟨marks, hraise⟩ := Option.isSome_iff_exists.mp h
  simp only [handedTo, Subscriber.handle, hraise, drop_left]
  cases hub.task.outlet pkt <;> rfl

/-! ## Demultiplexing -/

/-- An endpoint that an accepted packet of its own peer's would be handed to. -/
def Receives (hub : StreamHub) (i : Nat) (pkt : Inbound) : Prop :=
  hub.task.outlet pkt = some i ∧ ∃ e, hub.endpoints[i]? = some e ∧ e.peer = pkt.source

/-- A packet goes to the endpoint opened last for its peer and stream and to no other; an open
takes no packets from the endpoints of other peers. -/
def Demuxed (hub : StreamHub) : Event → Prop
  | .inbound pkt => hub.accepts pkt = true → hub.handedTo pkt =
      (lastOpened hub.endpoints (· = ⟨pkt.source, pkt.header.channelId⟩)).toList
  | .opens peer streamId => ∀ i pkt, pkt.source ≠ peer → hub.Receives i pkt →
      (hub.open peer streamId).Receives i pkt
  | .rebase _ => True

/-- The last endpoint opened on the stream id, if there is one, was opened for this peer. -/
def OwnStream (hub : StreamHub) : Event → Prop
  | .inbound pkt => hub.accepts pkt = true →
      ∀ e, hub.lastOn pkt.header.channelId = some e → e.peer = pkt.source
  | .opens peer streamId => ∀ e, hub.lastOn streamId = some e → e.peer = peer
  | .rebase _ => True

/-- A packet on a stream. -/
def packetOn (source : SocketAddr) (streamId : UInt16) (seq : Nat) : Inbound :=
  let header : Header := ⟨deriveBandId [], .stream, streamId, seq⟩
  let payload : Payload := .bytes [0, 7]
  ⟨source, header, payload, header, encryptSuite .chaCha20Poly1305 (deriveKey []) seq [] payload⟩

theorem Inv.demuxed_inbound (h : Inv hub) (pkt : Inbound) :
    hub.Demuxed (.inbound pkt) ↔ hub.OwnStream (.inbound pkt) := by
  refine imp_congr_right fun haccepts => ?_
  have hinj : ∀ a b : Option Nat, a.toList = b.toList ↔ a = b := by
    intro a b
    cases a <;> cases b <;> simp
  rw [handedTo_of_accepts haccepts, hinj, h.outlet, eq_comm]
  exact lastOpened_eq_iff

theorem Inv.outlet_open (h : Inv hub) (peer : SocketAddr) (streamId : UInt16) (pkt : Inbound) :
    (hub.open peer streamId).task.outlet pkt =
      if streamId = pkt.header.channelId then some hub.endpoints.length
      else hub.task.outlet pkt := by
  rw [(h.open peer streamId).outlet, h.outlet, StreamHub.open, lastOpened_append]
  simp only [decide_eq_true_eq]

theorem Inv.demuxed_opens (h : Inv hub) (peer : SocketAddr) (streamId : UInt16) :
    hub.Demuxed (.opens peer streamId) ↔ hub.OwnStream (.opens peer streamId) := by
  constructor
  · intro hright e he
    by_contra hpeer
    -- A packet for the endpoint that is about to lose its place.
    obtain ⟨i, hi⟩ := exists_lastOpened he
    have hreceives : hub.Receives i (packetOn e.peer streamId 0) :=
      ⟨(h.outlet _).trans hi, e, (getElem?_lastOpened hi).trans he, rfl⟩
    obtain ⟨hout, -⟩ := hright i _ hpeer hreceives
    rw [h.outlet_open, if_pos (by rfl)] at hout
    cases hout
    exact lt_irrefl _ (lastOpened_lt hi)
  · rintro hown i pkt hne ⟨hout, e, he, hpeer⟩
    have hi := (h.outlet pkt).symm.trans hout
    have hid : streamId ≠ pkt.header.channelId := by
      rintro rfl
      have hlast := (getElem?_lastOpened hi).symm.trans he
      exact hne (hpeer.symm.trans (hown e hlast))
    refine ⟨?_, e, ?_, hpeer⟩
    · rw [h.outlet_open, if_neg hid, hout]
    · show (hub.endpoints ++ _)[i]? = _
      rw [getElem?_append_left (lastOpened_lt hi), he]

/-- Demultiplexing is right exactly where the stream id is not shared between peers. -/
theorem demuxed_iff (hreach : Reachable hub) (ev : Event) : hub.Demuxed ev ↔ hub.OwnStream ev := by
  cases ev with
  | opens peer streamId => exact hreach.inv.demuxed_opens peer streamId
  | inbound pkt => exact hreach.inv.demuxed_inbound pkt
  | rebase sent => exact Iff.rfl

def firstPeer : SocketAddr := ⟨1, 7000⟩
def secondPeer : SocketAddr := ⟨2, 7000⟩

/-- Opens and packets, one after the other. -/
def played (events : List Event) : Option StreamHub :=
  play exec (fun _ _ => true) (.new 0) (events.map fun ev _ => ev)

theorem reachable_of_played {events : List Event} (h : played events = some hub) :
    Reachable hub :=
  ⟨0, guardedRun_play (fun _ _ _ => trivial) h⟩

/-- Two peers with streams of their own. -/
theorem demuxed_iff_own : ∃ hub,
    played [.opens firstPeer 3, .opens secondPeer 4, .inbound (packetOn firstPeer 3 5)] =
      some hub ∧
    hub.task.handed.map (·.1) = [0] ∧
    (hub.Demuxed (.inbound (packetOn secondPeer 4 1)) ↔
      hub.OwnStream (.inbound (packetOn secondPeer 4 1))) ∧
    hub.handedTo (packetOn secondPeer 4 1) = [1] := by
  refine exists_some (fun hub => hub.task.handed.map (·.1) = [0] ∧
    hub.handedTo (packetOn secondPeer 4 1) = [1]) (by decide +kernel) ?_
  rintro hub hhub ⟨hfirst, hsecond⟩
  exact ⟨hfirst, demuxed_iff (reachable_of_played hhub) _, hsecond⟩

/-- Two peers on one stream id: the first peer's packet goes to the second peer's endpoint, and
opening that took the first peer's packets from its own. -/
theorem shared_stream_id : ∃ one two,
    played [.opens firstPeer 3] = some one ∧
    played [.opens firstPeer 3, .opens secondPeer 3] = some two ∧
    two.endpoints = [⟨firstPeer, 3⟩, ⟨secondPeer, 3⟩] ∧
    two.accepts (packetOn firstPeer 3 5) = true ∧ two.handedTo (packetOn firstPeer 3 5) = [1] ∧
    ¬ two.Demuxed (.inbound (packetOn firstPeer 3 5)) ∧
    ¬ one.Demuxed (.opens secondPeer 3) := by
  refine ⟨_, _, rfl, rfl, rfl, by decide +kernel, by decide +kernel, ?_, ?_⟩
  · intro hright
    exact absurd (hright (by decide +kernel)) (by decide +kernel)
  · intro hright
    have hreceives := hright 0 (packetOn firstPeer 3 5) (by decide)
      ⟨by decide +kernel, ⟨firstPeer, 3⟩, rfl, rfl⟩
    exact absurd hreceives.1 (by decide +kernel)

end Telesthete.Band.StreamHub
