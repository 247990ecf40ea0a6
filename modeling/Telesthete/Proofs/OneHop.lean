import Telesthete.Lib.Run
import Telesthete.Proofs.HubFlow
import Telesthete.Proofs.LinkFaithful
import Telesthete.Relay.Network

/-!
# A frame crosses at most one link

The invariant of a network of hubs. Each hub is in order (`Hub.Inv`), and so is
each end of a link: what it has queued or written are frames of clients of its own
hub, besides greetings and advertisements, and the bytes that the other end has
not read yet are those of the messages not read yet. A packet is on its way over a
link in one place at a time: offered at the hub, queued, written or injected at
the other end. The count over these places is at most one for every packet and
every end of a link, and no step increases it, because a frame is only ever moved
on or dropped. What a link injects is not offered to any link, so it is not
counted again.
-/

namespace Telesthete.Relay

open Telesthete.Lib Telesthete.Wire List Option
open Telesthete.Band (SocketAddr)

variable {H : Type} {receipts more : List (H × Bytes)} {h : H} {band : BandId} {copy : Copy}
  {tag : Nat}
variable {entry : LinkEntry} {s : Sent} {bs : Bytes} {α : Type} {f : α → Option (BandId × Copy)}
  {a : α} {l : List α}

/-! ## One end of a link -/

theorem eq_of_writeMsg {t : UInt8} {payload bs : Bytes} (hlt : 1 + payload.length < 2 ^ 32)
    (hwrite : writeMsg t payload = some bs) :
    bs = msgBytes (t, payload) ∧ 1 + payload.length ≤ maxMsg := by
  simp only [writeMsg, Nat.mod_eq_of_lt hlt] at hwrite
  obtain ⟨hle, heq⟩ := ite_none_left_eq_some.mp hwrite
  exact ⟨(Option.some.inj heq).symm, Nat.le_of_not_lt hle⟩

structure LinkEntry.Inv (receipts : List (H × Bytes)) (h : H) (entry : LinkEntry) : Prop where
  frame : ∀ x ∈ entry.frame, Local receipts h x.1 x.2
  marker : entry.mark = none → entry.band = bandsMarker
  size : entry.bytes.length ≤ maxMessage

theorem LinkEntry.Inv.mono (hi : entry.Inv receipts h) :
    entry.Inv (receipts ++ more) h :=
  ⟨fun x hx => (hi.frame x hx).mono, hi.marker, hi.size⟩

/-- The message that was written. -/
def Sent.message : Sent → UInt8 × Bytes
  | .hello secret => (tHello, secret)
  | .queued entry => (Queued.frame entry.band entry.bytes).message

structure Sent.Inv (receipts : List (H × Bytes)) (h : H) (s : Sent) : Prop where
  fits : 1 + s.message.2.length ≤ maxMsg
  queued : ∀ entry, s = .queued entry → entry.Inv receipts h

theorem Sent.Inv.mono (hi : s.Inv receipts h) : s.Inv (receipts ++ more) h :=
  ⟨hi.fits, fun entry hentry => (hi.queued entry hentry).mono⟩

theorem Sent.Inv.frame (hi : s.Inv receipts h) :
    ∀ x ∈ s.frame, Local receipts h x.1 x.2 := by
  intro x hx
  cases s with
  | hello secret => cases hx
  | queued entry => exact (hi.queued entry rfl).frame x hx

theorem message_of_writeEntry (hi : entry.Inv receipts h)
    (hwrite : writeEntry (entry.band, entry.bytes) = some bs) :
    bs = msgBytes (Sent.queued entry).message ∧ (Sent.queued entry).Inv receipts h := by
  have hsize := hi.size
  have hmax : maxMessage = 67108864 := by decide
  have hband := entry.band.length_bytes
  have hlen : bandIdLen = 16 := rfl
  have hwritten : bs = msgBytes (Sent.queued entry).message ∧
      1 + (Sent.queued entry).message.2.length ≤ maxMsg := by
    unfold writeEntry at hwrite
    unfold Sent.message Queued.message
    by_cases hmarker : entry.band = bandsMarker
    · simp only [if_pos hmarker] at hwrite ⊢
      exact eq_of_writeMsg (by omega) hwrite
    · simp only [if_neg hmarker] at hwrite ⊢
      refine eq_of_writeMsg ?_ hwrite
      simp only [length_append, length_toBe]
      omega
  refine ⟨hwritten.1, hwritten.2, fun entry' heq => ?_⟩
  obtain rfl := Sent.queued.inj heq
  exact hi

/-- Only the message of a frame makes the reader inject something, and then it is that frame. -/
theorem injected_eq {active : Bool} {bands : Finset BandId} {frame : Bytes}
    {more : List (BandId × Bytes)} (hi : s.Inv receipts h)
    (hinjected : (LinkReader.handle ⟨active, bands, []⟩ s.message).injected =
      (band, frame) :: more) :
    ∃ mark, s.frame = some (band, ⟨frame, mark⟩) := by
  cases s with
  | hello secret =>
    have hnone : (LinkReader.handle ⟨active, bands, []⟩ (Sent.hello secret).message).injected =
        [] := rfl
    rw [hnone] at hinjected
    cases hinjected
  | queued entry =>
    have hfits := hi.fits
    by_cases hmarker : entry.band = bandsMarker
    · have hmessage : (Sent.queued entry).message = (tBands, entry.bytes) := if_pos hmarker
      rw [hmessage] at hinjected
      cases hinjected
    · have hmessage : (Sent.queued entry).message =
          (tRelay, entry.band.bytes ++ toBe 4 entry.bytes.length ++ entry.bytes) :=
        if_neg hmarker
      rw [hmessage] at hinjected hfits
      have hhandle : LinkReader.handle ⟨active, bands, []⟩
          (tRelay, entry.band.bytes ++ toBe 4 entry.bytes.length ++ entry.bytes) =
          LinkReader.relay ⟨active, bands, []⟩
            (entry.band.bytes ++ toBe 4 entry.bytes.length ++ entry.bytes) := rfl
      rw [hhandle] at hinjected
      cases active with
      | false =>
        have hnone : (LinkReader.relay ⟨false, bands, []⟩
            (entry.band.bytes ++ toBe 4 entry.bytes.length ++ entry.bytes)).injected = [] := by
          unfold LinkReader.relay
          split
          · rfl
          · rfl
        rw [hnone] at hinjected
        cases hinjected
      | true =>
        have hle : entry.bytes.length ≤ maxMsg := by
          simp only [length_append] at hfits
          omega
        rw [LinkReader.relay_eq rfl hle] at hinjected
        obtain ⟨hhead, -⟩ := List.cons.inj hinjected
        obtain ⟨rfl, rfl⟩ := Prod.mk.inj hhead
        cases hmark : entry.mark with
        | none => exact absurd ((hi.queued entry rfl).marker hmark) hmarker
        | some mark => exact ⟨mark, by simp [Sent.frame, LinkEntry.frame, hmark]⟩

theorem tally_filterMap_cons :
    tally tag ((a :: l).filterMap f) = tally tag (f a).toList + tally tag (l.filterMap f) := by
  cases ha : f a with
  | none => simp [ha]
  | some x =>
    simp [ha]
    omega

theorem tally_filterMap_concat :
    tally tag ((l ++ [a]).filterMap f) = tally tag (l.filterMap f) + tally tag (f a).toList := by
  rw [filterMap_append, tally_append, tally_filterMap_cons]
  rfl

namespace LinkEnd

variable {e e' : LinkEnd H} {entry : LinkEntry}
variable {peer : Nat} {secret : Bytes} {active : Bool}

/-- The copies of a packet at this end: in its queue, written but not read, or read and injected at
the other end. -/
def carried (e : LinkEnd H) (tag : Nat) : Nat :=
  tally tag (e.queue.filterMap LinkEntry.frame) + tally tag (e.unread.filterMap Sent.frame) +
    e.crossed.count tag

structure Inv (receipts : List (H × Bytes)) (e : LinkEnd H) : Prop where
  queue : ∀ entry ∈ e.queue, entry.Inv receipts e.hub
  unread : ∀ s ∈ e.unread, s.Inv receipts e.hub
  stream : e.arrived ++ e.inFlight = e.unread.flatMap fun s => msgBytes s.message
  written : ∀ x ∈ e.written, Local receipts e.hub x.1 x.2
  crossed : ∀ tag ∈ e.crossed, ∃ bytes, receipts[tag]? = some (e.hub, bytes)

theorem Inv.mono (hi : e.Inv receipts) : e.Inv (receipts ++ more) where
  queue entry hentry := (hi.queue entry hentry).mono
  unread s hs := (hi.unread s hs).mono
  stream := hi.stream
  written x hx := (hi.written x hx).mono
  crossed tag htag := by
    obtain ⟨bytes, hbytes⟩ := hi.crossed tag htag
    exact ⟨bytes, getElem?_append_some hbytes⟩

theorem inv_new (hsecret : secret.length + 1 < 2 ^ 32) :
    (new h peer secret active).Inv receipts := by
  refine ⟨by rintro _ ⟨⟩, fun s hs => ?_, ?_, by rintro _ ⟨⟩, by rintro _ ⟨⟩⟩
  · cases hhello : writeMsg tHello secret with
    | none =>
      simp only [new, hhello] at hs
      cases hs
    | some bs =>
      simp only [new, hhello, Option.isSome_some, if_true, mem_singleton] at hs
      subst hs
      exact ⟨(eq_of_writeMsg (by omega) hhello).2, fun entry hentry => by cases hentry⟩
  · cases hhello : writeMsg tHello secret with
    | none => simp [new, hhello]
    | some bs => simp [new, hhello, (eq_of_writeMsg (by omega) hhello).1, Sent.message]

theorem carried_new :
    (new h peer secret active).carried tag = 0 := by
  cases hhello : writeMsg tHello secret with
  | none => simp [carried, new, hhello]
  | some bs =>
    simp only [carried, new, hhello, Option.isSome_some, if_true, tally_filterMap_cons]
    rfl

/-- Nothing is known yet of a packet that is still to come. -/
theorem Inv.carried_eq_zero (hi : e.Inv receipts) (htag : receipts.length ≤ tag) :
    e.carried tag = 0 := by
  have hqueue : ∀ x ∈ e.queue.filterMap LinkEntry.frame, Local receipts e.hub x.1 x.2 := by
    intro x hx
    obtain ⟨entry, hentry, hframe⟩ := mem_filterMap.mp hx
    exact (hi.queue entry hentry).frame x hframe
  have hunread : ∀ x ∈ e.unread.filterMap Sent.frame, Local receipts e.hub x.1 x.2 := by
    intro x hx
    obtain ⟨s, hs, hframe⟩ := mem_filterMap.mp hx
    exact (hi.unread s hs).frame x hframe
  have hcrossed : tag ∉ e.crossed := by
    intro hmem
    obtain ⟨bytes, hbytes⟩ := hi.crossed tag hmem
    obtain ⟨hlt, -⟩ := List.getElem?_eq_some_iff.mp hbytes
    omega
  unfold carried
  rw [tally_eq_zero hqueue htag, tally_eq_zero hunread htag, count_eq_zero.mpr hcrossed]

theorem Inv.enqueue (hi : e.Inv receipts) (hentry : entry.Inv receipts e.hub) :
    (e.enqueue entry).Inv receipts :=
  { hi with queue := forall_mem_snoc hi.queue hentry }

theorem carried_enqueue :
    (e.enqueue entry).carried tag = e.carried tag + tally tag entry.frame.toList := by
  simp only [carried, LinkEnd.enqueue, tally_filterMap_concat]
  omega

theorem Inv.endWriter (hi : e.Inv receipts) : e.endWriter.Inv receipts :=
  { hi with queue := by rintro _ ⟨⟩ }

theorem carried_endWriter : e.endWriter.carried tag ≤ e.carried tag := by
  simp only [carried, LinkEnd.endWriter, filterMap_nil, tally_nil]
  omega

theorem Inv.begin (hi : e.Inv receipts) : e.begin.Inv receipts :=
  { hi with }

theorem Inv.goDown (hi : e.Inv receipts) : e.goDown.Inv receipts :=
  { hi.endWriter with }

theorem carried_goDown : e.goDown.carried tag ≤ e.carried tag := by
  show e.endWriter.carried tag ≤ e.carried tag
  exact carried_endWriter

theorem Inv.withBands {bands : Finset BandId} (hi : e.Inv receipts) :
    Inv receipts { e with bands := bands } :=
  { hi with }

theorem Inv.writeNext (hi : e.Inv receipts) (hwrite : e.writeNext = some e') :
    e'.Inv receipts ∧ e'.hub = e.hub ∧ e'.peer = e.peer ∧ e'.phase = e.phase ∧
      ∀ tag, e'.carried tag ≤ e.carried tag := by
  unfold LinkEnd.writeNext at hwrite
  split at hwrite
  · rename_i entry queue hwriting hqueue
    have hall := hi.queue
    rw [hqueue] at hall
    have hentry := hall entry mem_cons_self
    split at hwrite
    · rename_i bs hbs
      cases hwrite
      obtain ⟨rfl, hsent⟩ := message_of_writeEntry hentry hbs
      refine ⟨⟨fun x hx => hall x (mem_cons_of_mem _ hx), forall_mem_snoc hi.unread hsent, ?_,
        fun x hx => ?_, hi.crossed⟩, rfl, rfl, rfl, fun tag => ?_⟩
      · show e.arrived ++ (e.inFlight ++ _) = _
        rw [← append_assoc, hi.stream, flatMap_append, flatMap_singleton]
      · rcases mem_append.mp hx with hx | hx
        · exact hi.written x hx
        · exact hentry.frame x (Option.mem_toList.mp hx)
      · -- the frame leaves the queue and is now unread
        have hsame : (Sent.queued entry).frame = entry.frame := rfl
        simp only [carried, hqueue, tally_filterMap_cons, tally_filterMap_concat, hsame]
        omega
    · cases hwrite
      exact ⟨hi.endWriter, rfl, rfl, rfl, fun tag => carried_endWriter⟩
  · cases hwrite

theorem Inv.arrive {n : Nat} (hi : e.Inv receipts) : (e.arrive n).Inv receipts := by
  refine { hi with stream := ?_ }
  show e.arrived ++ e.inFlight.take n ++ e.inFlight.drop n = _
  rw [append_assoc, take_append_drop]
  exact hi.stream

/-- The other end reads what was written here first. -/
theorem Inv.readMsg {msg : UInt8 × Bytes} {sent : Option Sent} (hi : e.Inv receipts)
    (hread : e.readMsg = some (msg, sent, e')) :
    ∃ s, sent = some s ∧ msg = s.message ∧ s.Inv receipts e.hub ∧ e'.Inv receipts ∧
      e'.hub = e.hub ∧ e'.peer = e.peer ∧ e'.phase = e.phase ∧
      ∀ tag, e'.carried tag + tally tag s.frame.toList = e.carried tag := by
  unfold LinkEnd.readMsg at hread
  split at hread
  · rename_i msg' rest hnext
    obtain ⟨rfl, hpair⟩ := Prod.mk.inj (Option.some.inj hread)
    obtain ⟨rfl, rfl⟩ := Prod.mk.inj hpair
    have hstream := hi.stream
    cases hunread : e.unread with
    | nil =>
      rw [hunread] at hstream
      have harrived : e.arrived = [] := (append_eq_nil_iff.mp hstream).1
      rw [harrived, readMsgSplit_nil] at hnext
      cases hnext
    | cons s unread =>
      have hall := hi.unread
      rw [hunread] at hall hstream
      have hs := hall s mem_cons_self
      rw [flatMap_cons] at hstream
      obtain ⟨rfl, hrest⟩ := (encodes_msgBytes hs.fits).next_eq hstream hnext
      refine ⟨s, rfl, rfl, hs, ⟨hi.queue, ?_, ?_, hi.written, hi.crossed⟩, rfl, rfl, rfl,
        fun tag => ?_⟩
      · exact fun s' hs' => hall s' (mem_cons_of_mem _ hs')
      · exact hrest
      · simp only [carried, hunread, tail_cons, tally_filterMap_cons]
        omega
  · cases hread

end LinkEnd

/-! ## The network -/

namespace Net

variable {net net' : Net H} {k : Nat} {e e' : LinkEnd H} {hub' : Hub} {pkt : Bytes}
variable {h' : H}

/-- What holds of a network. The last field is the count: a packet is in at most one place on its
way over a link. -/
structure Inv (net : Net H) : Prop where
  hubs : ∀ h, (net.hubs h).Inv net.receipts h
  nodup : ∀ h, (net.hubs h).links.Nodup
  linked : ∀ h, ∀ k ∈ (net.hubs h).links,
    ∃ e, net.ends[k]? = some e ∧ e.hub = h ∧ e.phase ≠ .greeting
  fanning : ∀ h, ∀ f ∈ (net.hubs h).fanning, ∀ k ∈ f.links, ∃ e, net.ends[k]? = some e ∧ e.hub = h
  ends : ∀ (k : Nat) e, net.ends[k]? = some e → e.Inv net.receipts
  apart : ∀ (k : Nat) e, net.ends[k]? = some e → e.peer ≠ k
  once : ∀ (k : Nat) e, net.ends[k]? = some e →
    ∀ tag, (net.hubs e.hub).toward k tag + e.carried tag ≤ 1

theorem inv_init (config : H → HubConfig H) : (init config).Inv where
  hubs _ := Hub.inv_new
  nodup _ := nodup_nil
  linked := by rintro _ _ ⟨⟩
  fanning := by rintro _ _ ⟨⟩
  ends := by rintro _ _ ⟨⟩
  apart := by rintro _ _ ⟨⟩
  once := by rintro _ _ ⟨⟩

theorem getElem?_setEnd (he : net.ends[k]? = some e) (j : Nat) :
    (net.setEnd k e').ends[j]? = if j = k then some e' else net.ends[j]? := by
  obtain ⟨hlt, -⟩ := List.getElem?_eq_some_iff.mp he
  show (net.ends.set k e')[j]? = _
  rw [getElem?_set]
  by_cases hj : j = k
  · rw [if_pos hj.symm, if_pos hj, if_pos hlt]
  · rw [if_neg (Ne.symm hj), if_neg hj]

theorem hubs_setHub [DecidableEq H] :
    (net.setHub h hub').hubs h' = if h' = h then hub' else net.hubs h' := Function.update_apply ..

/-- What holds of the new state of a hub and of every other hub. -/
theorem forall_setHub [DecidableEq H] {P : H → Hub → Prop} (hself : P h hub')
    (hrest : ∀ h', P h' (net.hubs h')) (h' : H) : P h' ((net.setHub h hub').hubs h') := by
  rw [hubs_setHub]
  split
  · rename_i heq
    rw [heq]
    exact hself
  · exact hrest h'

namespace Inv

variable {msg : UInt8 × Bytes} {p p' : LinkEnd H} {j : Nat} {config : H → HubConfig H}

/-- One end of a link changes, and a packet gets at most as many copies there as the hub has given
up. -/
theorem setEnd (hi : net.Inv) (he : net.ends[k]? = some e) (hhub : e'.hub = e.hub)
    (hpeer : e'.peer = e.peer) (hphase : e.phase ≠ .greeting → e'.phase ≠ .greeting)
    (hinv : e'.Inv net.receipts)
    (honce : ∀ tag, (net.hubs e.hub).toward k tag + e'.carried tag ≤ 1) :
    (net.setEnd k e').Inv where
  hubs := hi.hubs
  nodup := hi.nodup
  linked h j hj := by
    obtain ⟨x, hx, hxhub, hxphase⟩ := hi.linked h j hj
    rw [getElem?_setEnd he]
    split
    · rename_i heq
      rw [heq, he] at hx
      cases hx
      exact ⟨e', rfl, hhub.trans hxhub, hphase hxphase⟩
    · exact ⟨x, hx, hxhub, hxphase⟩
  fanning h f hf j hj := by
    obtain ⟨x, hx, hxhub⟩ := hi.fanning h f hf j hj
    rw [getElem?_setEnd he]
    split
    · rename_i heq
      rw [heq, he] at hx
      cases hx
      exact ⟨e', rfl, hhub.trans hxhub⟩
    · exact ⟨x, hx, hxhub⟩
  ends j x hx := by
    rw [getElem?_setEnd he] at hx
    split at hx
    · cases hx
      exact hinv
    · exact hi.ends j x hx
  apart j x hx := by
    rw [getElem?_setEnd he] at hx
    split at hx
    · rename_i heq
      cases hx
      rw [hpeer, heq]
      exact hi.apart k e he
    · exact hi.apart j x hx
  once j x hx tag := by
    rw [getElem?_setEnd he] at hx
    split at hx
    · rename_i heq
      cases hx
      rw [hhub, heq]
      exact honce tag
    · exact hi.once j x hx tag

/-- One end of a link changes and has no more copies of any packet than before. -/
theorem setEnd_of_le (hi : net.Inv) (he : net.ends[k]? = some e) (hhub : e'.hub = e.hub)
    (hpeer : e'.peer = e.peer) (hphase : e.phase ≠ .greeting → e'.phase ≠ .greeting)
    (hinv : e'.Inv net.receipts) (hle : ∀ tag, e'.carried tag ≤ e.carried tag) :
    (net.setEnd k e').Inv :=
  hi.setEnd he hhub hpeer hphase hinv fun tag =>
    le_trans (Nat.add_le_add_left (hle tag) _) (hi.once k e he tag)

/-- A message is read from an end, and what it stands for is not there any more. -/
theorem popped {sent : Option Sent}
    (hi : net.Inv) (hp : net.ends[j]? = some p) (hread : p.readMsg = some (msg, sent, p')) :
    (net.setEnd j p').Inv := by
  obtain ⟨s, -, -, -, hinv, hhub, hpeer, hphase, hcarried⟩ := (hi.ends j p hp).readMsg hread
  refine hi.setEnd_of_le hp hhub hpeer (by rw [hphase]; exact id) hinv fun tag => ?_
  have heq := hcarried tag
  omega

/-- A message that stands for a frame is read, and its frame has crossed. -/
theorem crossed {s : Sent} (hi : net.Inv)
    (hp : net.ends[j]? = some p) (hread : p.readMsg = some (msg, some s, p'))
    (hframe : s.frame = some (band, copy)) :
    Local net.receipts p.hub band copy ∧
      (net.setEnd j { p' with crossed := p'.crossed ++ [copy.mark.tag] }).Inv := by
  obtain ⟨s', hs', -, hs, hinv, hhub, hpeer, hphase, hcarried⟩ := (hi.ends j p hp).readMsg hread
  cases hs'
  have hlocal : Local net.receipts p.hub band copy := hs.frame _ hframe
  refine ⟨hlocal, hi.setEnd_of_le hp hhub hpeer (by rw [← hphase]; exact id)
    { hinv with crossed := forall_mem_snoc hinv.crossed ?_ } fun tag => ?_⟩
  · rw [hhub]
    exact ⟨copy.bytes, hlocal.received⟩
  · -- it is no longer among the unread
    have hsum := hcarried tag
    rw [hframe] at hsum
    simp only [Option.toList_some, tally_cons, tally_nil] at hsum
    simp only [LinkEnd.carried, count_append, count_singleton, beq_iff_eq] at hsum ⊢
    omega

theorem advertise {bands : List BandId} (hi : net.Inv) (hstep : net.advertise k bands = some net') :
    net'.Inv := by
  unfold Net.advertise at hstep
  split at hstep
  · rename_i e he
    obtain ⟨-, heq⟩ := ite_none_right_eq_some.mp hstep
    cases heq
    have hsize : (encodeBands bands).length ≤ maxMessage := by
      have hmax : maxMessage = 67108864 := by decide
      rw [encodeBands, length_append, length_toBe, length_flatMap_bytes, length_take]
      omega
    have hentry : LinkEntry.Inv net.receipts e.hub ⟨bandsMarker, encodeBands bands, none⟩ := by
      refine ⟨?_, fun _ => rfl, hsize⟩
      rintro x ⟨⟩
    refine hi.setEnd_of_le he rfl rfl id ((hi.ends k e he).enqueue hentry) fun tag => ?_
    rw [LinkEnd.carried_enqueue]
    exact le_rfl
  · cases hstep

variable [DecidableEq H]

/-- A hub changes, with a packet received or without. Everything that is known of one hub and of
the links from it is asked of its new state. -/
theorem replaceHub (hi : net.Inv) (hhub : hub'.Inv (net.receipts ++ more) h)
    (hnodup : hub'.links.Nodup)
    (hlinked : ∀ k ∈ hub'.links, ∃ e, net.ends[k]? = some e ∧ e.hub = h ∧ e.phase ≠ .greeting)
    (hfanning : ∀ f ∈ hub'.fanning, ∀ k ∈ f.links, ∃ e, net.ends[k]? = some e ∧ e.hub = h)
    (honce : ∀ (k : Nat) e, net.ends[k]? = some e → e.hub = h →
      ∀ tag, hub'.toward k tag + e.carried tag ≤ 1) :
    Inv { net.setHub h hub' with receipts := net.receipts ++ more } := by
  refine ⟨?_, ?_, ?_, ?_, fun k e he => (hi.ends k e he).mono, hi.apart, fun k e he tag => ?_⟩
  · exact forall_setHub (P := fun h' hub => hub.Inv _ h') hhub fun h' => (hi.hubs h').mono
  · exact forall_setHub (P := fun _ hub => hub.links.Nodup) hnodup hi.nodup
  · exact forall_setHub (P := fun h' hub => ∀ k ∈ hub.links,
      ∃ e, net.ends[k]? = some e ∧ e.hub = h' ∧ e.phase ≠ .greeting) hlinked hi.linked
  · exact forall_setHub (P := fun h' hub => ∀ f ∈ hub.fanning, ∀ k ∈ f.links,
      ∃ e, net.ends[k]? = some e ∧ e.hub = h') hfanning hi.fanning
  · show ((net.setHub h hub').hubs e.hub).toward k tag + _ ≤ 1
    rw [hubs_setHub]
    split
    · rename_i heq
      exact honce k e he heq tag
    · exact hi.once k e he tag

/-- A hub does something with the frames it has. -/
theorem setHub (hi : net.Inv) (hhub : hub'.Inv net.receipts h)
    (hmoves : (net.hubs h).Moves hub') : (net.setHub h hub').Inv := by
  have hreplaced : Inv { net.setHub h hub' with receipts := net.receipts ++ [] } := by
    refine hi.replaceHub (by rwa [append_nil]) ?_ ?_ (fun f hf k hk => ?_)
      fun k e he heq tag => ?_
    · rw [hmoves.links]
      exact hi.nodup h
    · rw [hmoves.links]
      exact hi.linked h
    · rcases hmoves.fanning f hf k hk with ⟨f', hf', hk'⟩ | hk'
      · exact hi.fanning h f' hf' k hk'
      · obtain ⟨e, he, hhub, -⟩ := hi.linked h k hk'
        exact ⟨e, he, hhub⟩
    · have honce := hi.once k e he tag
      rw [heq] at honce
      exact le_trans (Nat.add_le_add_right (hmoves.toward k tag) _) honce
  rw [append_nil] at hreplaced
  exact hreplaced

/-- The links that are up change at a hub. -/
theorem setLinks (hi : net.Inv) {links : List Nat} (hnodup : links.Nodup)
    (hlinked : ∀ k ∈ links, ∃ e, net.ends[k]? = some e ∧ e.hub = h ∧ e.phase ≠ .greeting) :
    (net.setHub h { net.hubs h with links := links }).Inv := by
  have hinv := hi.hubs h
  have hreplaced : Inv { net.setHub h { net.hubs h with links := links } with
      receipts := net.receipts ++ [] } := by
    refine hi.replaceHub ?_ hnodup hlinked (hi.fanning h) fun k e he heq tag => ?_
    · rw [append_nil]
      exact { hinv with }
    · have honce := hi.once k e he tag
      rw [heq] at honce
      exact honce
  rw [append_nil] at hreplaced
  exact hreplaced

/-- A packet of a client arrives: a hub holds the first copy of it, if it accepts it. -/
theorem receive (hi : net.Inv) (htakes : (net.hubs h).Takes pkt net.receipts.length hub') :
    (net.receive h pkt hub').Inv := by
  obtain ⟨quiet, hquiet, hcases⟩ := htakes
  have hinv := (hi.hubs h).quiet hquiet
  obtain ⟨r, next, conns, -, rfl⟩ := hquiet
  -- the hub as the packet leaves it: its links and what it offers, up to the packet itself
  have hhub : hub'.Inv (net.receipts ++ [(h, pkt)]) h ∧ hub'.links = (net.hubs h).links ∧
      hub'.fanning = (net.hubs h).fanning ∧
      ∀ k tag, hub'.toward k tag ≤
        (net.hubs h).toward k tag + if net.receipts.length = tag then 1 else 0 := by
    rcases hcases with rfl | ⟨band, key, hheader, hsize, rfl⟩
    · exact ⟨hinv.mono, rfl, rfl, fun k tag => Nat.le_add_right _ _⟩
    · exact ⟨hinv.accept hheader hsize, rfl, rfl, fun k tag => le_of_eq Hub.toward_accept⟩
  obtain ⟨hinv', hlinks, hfanning, htoward⟩ := hhub
  refine hi.replaceHub hinv' ?_ ?_ ?_ fun k e he heq tag => ?_
  · rw [hlinks]
    exact hi.nodup h
  · rw [hlinks]
    exact hi.linked h
  · rw [hfanning]
    exact hi.fanning h
  · have honce := hi.once k e he tag
    have hle := htoward k tag
    rw [heq] at honce
    split at hle
    · rename_i htag
      have hnone := (hi.hubs h).toward_eq_zero (le_of_eq htag) k
      have hend := (hi.ends k e he).carried_eq_zero (le_of_eq htag)
      omega
    · omega

/-- The frame that is being fanned out is offered to a link, or skipped. -/
theorem fanNext {ok : Bool} (hi : net.Inv) (hstep : net.fanNext h ok = some net') : net'.Inv := by
  unfold Net.fanNext at hstep
  split at hstep
  · rename_i band copy k links hfanning
    have hlocal : Local net.receipts h band copy := (hi.hubs h).fanning _ hfanning
    have hcount : ∀ j tag, (net.hubs h).toward j tag =
        Hub.toward { net.hubs h with fanning := some ⟨band, copy, links⟩ } j tag +
          if copy.mark.tag = tag ∧ k = j then 1 else 0 := by
      intro j tag
      unfold Hub.toward
      rw [hfanning]
      show _ + (if copy.mark.tag = tag then (k :: links).count j else 0) =
        _ + (if copy.mark.tag = tag then links.count j else 0) + _
      rw [count_cons]
      simp only [beq_iff_eq]
      by_cases htag : copy.mark.tag = tag
      · simp only [htag, if_true, true_and]
        exact (Nat.add_assoc _ _ _).symm
      · simp only [htag, if_false, false_and]
        rfl
    have hhub : Hub.Inv net.receipts h { net.hubs h with fanning := some ⟨band, copy, links⟩ } := by
      refine { hi.hubs h with fanning := ?_ }
      rintro f ⟨⟩
      exact hlocal
    have hmoves : (net.hubs h).Moves { net.hubs h with fanning := some ⟨band, copy, links⟩ } := by
      refine ⟨fun j tag => ?_, rfl, ?_⟩
      · rw [hcount j tag]
        exact Nat.le_add_right _ _
      · rintro f ⟨⟩ j hj
        exact .inl ⟨_, hfanning, mem_cons_of_mem _ hj⟩
    have hmoved := hi.setHub hhub hmoves
    split at hstep
    · rename_i e he
      obtain ⟨e₀, he₀, hehub⟩ := hi.fanning h _ hfanning k mem_cons_self
      rw [he] at he₀
      cases he₀
      split at hstep
      · cases hstep
        have hentry : LinkEntry.Inv net.receipts e.hub ⟨band, copy.bytes, some copy.mark⟩ := by
          refine ⟨?_, fun hnone => absurd hnone (some_ne_none _), hlocal.size⟩
          rintro x ⟨⟩
          rw [hehub]
          exact hlocal
        refine hmoved.setEnd he rfl rfl id ((hi.ends k e he).enqueue hentry) fun tag => ?_
        -- the copy that the link is given is one that was on its way to it
        have honce := hi.once k e he tag
        rw [hehub, hcount k tag] at honce
        rw [hubs_setHub, if_pos hehub, LinkEnd.carried_enqueue]
        have hframe : tally tag (LinkEntry.frame ⟨band, copy.bytes, some copy.mark⟩).toList =
            if copy.mark.tag = tag ∧ k = k then 1 else 0 := by
          show tally tag [(band, copy)] = _
          simp
        rw [hframe]
        omega
      · cases hstep
        exact hmoved
    · cases hstep
  · rename_i band copy hfanning
    cases hstep
    refine hi.setHub { hi.hubs h with fanning := by rintro f ⟨⟩ }
      ⟨fun j tag => ?_, rfl, by rintro f ⟨⟩⟩
    exact Nat.add_le_add_left (Nat.zero_le _) _
  · cases hstep

/-- A new link has nothing on it, and nothing is on its way to it. -/
theorem dial {a b : H} (hi : net.Inv) (hstep : net.dial config a b = some net') : net'.Inv := by
  unfold Net.dial at hstep
  split at hstep
  · rename_i dialer listener hdialer hlistener
    obtain ⟨-, heq⟩ := ite_none_right_eq_some.mp hstep
    cases heq
    generalize hnew₁ : LinkEnd.new a (net.ends.length + 1) dialer.secret true = new₁
    generalize hnew₂ :
      LinkEnd.new b net.ends.length listener.secret listener.inboundActive = new₂
    have hcases : ∀ (k : Nat) e, (net.ends ++ [new₁, new₂])[k]? = some e →
        net.ends[k]? = some e ∨ net.ends.length ≤ k ∧ e.Inv net.receipts ∧ e.peer ≠ k ∧
          ∀ tag, e.carried tag = 0 := by
      intro k e he
      rcases lt_or_ge k net.ends.length with hlt | hge
      · rw [getElem?_append_left hlt] at he
        exact .inl he
      · rw [getElem?_append_right hge] at he
        obtain ⟨j, rfl⟩ := Nat.exists_eq_add_of_le hge
        rw [Nat.add_sub_cancel_left] at he
        refine .inr ⟨hge, ?_⟩
        rcases j with _ | _ | j
        · cases he
          rw [← hnew₁]
          exact ⟨LinkEnd.inv_new dialer.secret_lt, Nat.succ_ne_self _, fun _ =>
            LinkEnd.carried_new⟩
        · cases he
          rw [← hnew₂]
          exact ⟨LinkEnd.inv_new listener.secret_lt, (Nat.succ_ne_self _).symm, fun _ =>
            LinkEnd.carried_new⟩
        · cases he
    refine ⟨hi.hubs, hi.nodup, fun h k hk => ?_, fun h f hf k hk => ?_, fun k e he => ?_,
      fun k e he => ?_, fun k e he tag => ?_⟩
    · obtain ⟨e, he, hrest⟩ := hi.linked h k hk
      exact ⟨e, getElem?_append_some he, hrest⟩
    · obtain ⟨e, he, hhub⟩ := hi.fanning h f hf k hk
      exact ⟨e, getElem?_append_some he, hhub⟩
    · rcases hcases k e he with hold | ⟨-, hinv, -, -⟩
      · exact hi.ends k e hold
      · exact hinv
    · rcases hcases k e he with hold | ⟨-, -, hpeer, -⟩
      · exact hi.apart k e hold
      · exact hpeer
    · rcases hcases k e he with hold | ⟨hge, -, -, hnone⟩
      · exact hi.once k e hold tag
      · have hoffered := (hi.hubs e.hub).offeredOnce tag
        have hfan : (net.hubs e.hub).fanning.elim 0
            (fun f => if f.copy.mark.tag = tag then f.links.count k else 0) = 0 := by
          cases hf : (net.hubs e.hub).fanning with
          | none => rfl
          | some f =>
            have hnot : k ∉ f.links := by
              intro hmem
              obtain ⟨x, hx, -⟩ := hi.fanning e.hub f hf k hmem
              obtain ⟨hlt, -⟩ := List.getElem?_eq_some_iff.mp hx
              omega
            simp [count_eq_zero.mpr hnot]
        unfold Hub.toward
        rw [hfan, hnone tag]
        exact hoffered
  · cases hstep

theorem greet (hi : net.Inv) (hstep : net.greet k = some net') : net'.Inv := by
  unfold Net.greet at hstep
  split at hstep
  · rename_i e he
    split at hstep
    · rename_i p hphase hp
      split at hstep
      · rename_i msg sent p' hread
        have hpopped := hi.popped hp hread
        have hne : e.peer ≠ k := hi.apart k e he
        have hek : (net.setEnd e.peer p').ends[k]? = some e := by
          rw [getElem?_setEnd hp, if_neg hne.symm]
          exact he
        have hinv := hi.ends k e he
        split at hstep
        · cases hstep
          have hup : ((net.setEnd e.peer p').setEnd k e.begin).Inv := by
            exact hpopped.setEnd_of_le hek rfl rfl (fun _ => LinkPhase.noConfusion) hinv.begin
              fun tag => le_rfl
          have hnot : k ∉ (net.hubs e.hub).links := by
            intro hmem
            obtain ⟨x, hx, -, hxphase⟩ := hi.linked e.hub k hmem
            rw [he] at hx
            cases hx
            exact hxphase hphase
          refine hup.setLinks (List.Nodup.append (hi.nodup e.hub) (nodup_singleton k) ?_) ?_
          · intro j hj hjk
            rw [mem_singleton.mp hjk] at hj
            exact hnot hj
          · refine forall_mem_snoc (hup.linked e.hub) ⟨e.begin, ?_, rfl, LinkPhase.noConfusion⟩
            rw [getElem?_setEnd hek, if_pos rfl]
        · cases hstep
          exact hpopped.setEnd_of_le hek rfl rfl (fun _ => LinkPhase.noConfusion) hinv.goDown
            fun tag => LinkEnd.carried_goDown
      · cases hstep
    · cases hstep
  · cases hstep

theorem read (hi : net.Inv) (hstep : net.read k = some net') : net'.Inv := by
  unfold Net.read at hstep
  split at hstep
  · rename_i e he
    split at hstep
    · rename_i p hphase hp
      split at hstep
      · rename_i msg sent p' hread
        have hne : e.peer ≠ k := hi.apart k e he
        have hinv := hi.ends k e he
        obtain ⟨s, rfl, rfl, hs, -⟩ := (hi.ends e.peer p hp).readMsg hread
        have hek : ∀ q, (net.setEnd e.peer q).ends[k]? = some e := by
          intro q
          rw [getElem?_setEnd hp, if_neg hne.symm]
          exact he
        dsimp only at hstep
        split at hstep
        · cases hstep
          exact (hi.popped hp hread).setEnd_of_le (hek _) rfl rfl id hinv.withBands
            fun tag => le_rfl
        · rename_i band frame rest hinjected
          cases hstep
          obtain ⟨mark, hframe⟩ := injected_eq hs hinjected
          obtain ⟨hlocal, hcrossed⟩ := hi.crossed hp hread hframe
          have hmark : ((((some s).bind Sent.frame).map fun frame => frame.2.mark).getD ⟨0, 0⟩) =
              mark := by
            rw [Option.bind_some, hframe]
            rfl
          rw [hmark]
          have hfaithful : Faithful net.receipts band ⟨frame, mark.tag, mark.hops + 1⟩ :=
            ⟨le_of_eq (congrArg (· + 1) hlocal.hops), ⟨p.hub, hlocal.received⟩, hlocal.header⟩
          obtain ⟨hhub, hmoves⟩ := (hi.hubs e.hub).inject hfaithful
          exact (hcrossed.setHub hhub hmoves).setEnd_of_le (hek _) rfl rfl id hinv.withBands
            fun tag => le_rfl
      · cases hstep
    · cases hstep
  · cases hstep

theorem goDown (hi : net.Inv) (hstep : net.goDown k = some net') : net'.Inv := by
  unfold Net.goDown at hstep
  split at hstep
  · rename_i e he
    cases hstep
    have hinv := hi.ends k e he
    have hdown : (net.setEnd k e.goDown).Inv :=
      hi.setEnd_of_le he rfl rfl (fun _ => LinkPhase.noConfusion) hinv.goDown
        fun tag => LinkEnd.carried_goDown
    exact hdown.setLinks ((hi.nodup e.hub).filter _) fun j hj =>
      hdown.linked e.hub j (mem_of_mem_filter hj)
  · cases hstep

/-- Every task of every hub keeps the network in order. -/
theorem step {event : NetEvent H} (hi : net.Inv)
    (hstep : net.step config event = some net') : net'.Inv := by
  -- a task of one hub that only moves what the hub has
  have hmoves : ∀ {h hub'}, hub'.Inv net.receipts h ∧ (net.hubs h).Moves hub' →
      (net.setHub h hub').Inv := fun hhub => hi.setHub hhub.1 hhub.2
  have hquiet : ∀ {h hub'}, (net.hubs h).Quiet hub' → (net.setHub h hub').Inv := fun {h} _ hhub =>
    hi.setHub ((hi.hubs h).quiet hhub) hhub.moves
  cases event with
  | datagram h src pkt now later =>
    obtain ⟨hsize, heq⟩ := ite_none_right_eq_some.mp hstep
    cases heq
    exact hi.receive (Hub.takes_recvUdp (hi.hubs h).pinned hsize)
  | openWs h =>
    cases hstep
    exact hquiet (Hub.quiet_openWs (hi.hubs h).pinned)
  | openSession h transport band now later =>
    obtain ⟨-, heq⟩ := ite_none_left_eq_some.mp hstep
    cases heq
    exact hquiet (Hub.quiet_openSession (hi.hubs h).pinned)
  | message h c pkt now later =>
    obtain ⟨hub', hrecv, rfl⟩ := map_eq_some_iff.mp hstep
    exact hi.receive (Hub.takes_recv (hi.hubs h).pinned hrecv)
  | close h c =>
    cases hstep
    exact hquiet (Hub.quiet_close (hi.hubs h).pinned)
  | prune h ttl now =>
    cases hstep
    exact hquiet (Hub.quiet_prune (hi.hubs h).pinned)
  | forward h i =>
    obtain ⟨hub', hforward, rfl⟩ := map_eq_some_iff.mp hstep
    exact hmoves ((hi.hubs h).forward hforward)
  | send h i ok =>
    obtain ⟨hub', hsend, rfl⟩ := map_eq_some_iff.mp hstep
    exact hmoves ((hi.hubs h).send hsend)
  | federate h i ok =>
    obtain ⟨hub', hfederate, rfl⟩ := map_eq_some_iff.mp hstep
    exact hmoves ((hi.hubs h).federate hfederate)
  | write h sink ok =>
    obtain ⟨hub', hwrite, rfl⟩ := map_eq_some_iff.mp hstep
    exact hmoves ((hi.hubs h).write hwrite)
  | fanEgress h =>
    obtain ⟨hub', hfan, rfl⟩ := map_eq_some_iff.mp hstep
    exact hmoves ((hi.hubs h).fanEgress (hi.nodup h) hfan)
  | fanNext h ok => exact hi.fanNext hstep
  | dial a b => exact hi.dial hstep
  | greet k => exact hi.greet hstep
  | advertise k bands => exact hi.advertise hstep
  | writeNext k =>
    obtain ⟨e', hwrite, rfl⟩ := map_eq_some_iff.mp hstep
    obtain ⟨e, he, hnext⟩ := bind_eq_some_iff.mp hwrite
    obtain ⟨hinv, hhub, hpeer, hphase, hcarried⟩ := (hi.ends k e he).writeNext hnext
    exact hi.setEnd_of_le he hhub hpeer (by rw [hphase]; exact id) hinv hcarried
  | arrive k n =>
    obtain ⟨e', harrive, rfl⟩ := map_eq_some_iff.mp hstep
    obtain ⟨e, he, rfl⟩ := map_eq_some_iff.mp harrive
    exact hi.setEnd_of_le he rfl rfl id (hi.ends k e he).arrive fun tag => le_rfl
  | read k => exact hi.read hstep
  | endWriter k =>
    obtain ⟨e', hend, rfl⟩ := map_eq_some_iff.mp hstep
    obtain ⟨e, he, rfl⟩ := map_eq_some_iff.mp hend
    exact hi.setEnd_of_le he rfl rfl id (hi.ends k e he).endWriter
      fun tag => LinkEnd.carried_endWriter
  | goDown k => exact hi.goDown hstep

end Inv

variable [DecidableEq H]

/-- Any tasks of any hubs, in any order, from the start. -/
def Reachable (config : H → HubConfig H) (net : Net H) : Prop :=
  GuardedRun (step config) (fun _ _ => True) (init config) net

theorem Reachable.inv {config : H → HubConfig H} (hnet : Reachable config net) : net.Inv :=
  GuardedRun.invariant hnet (inv_init config) fun _ _ _ hi _ hstep => hi.step hstep

/-- At most one fan-out of a packet is counted where it was received, and none elsewhere. -/
theorem count_le_of_received {tags : List Nat} {bytes : Bytes}
    (hreceived : ∀ tag ∈ tags, ∃ bytes, net.receipts[tag]? = some (h', bytes))
    (honce : tags.count tag ≤ 1) (htag : net.receipts[tag]? = some (h, bytes)) :
    tags.count tag ≤ if h' = h then 1 else 0 := by
  split
  · exact honce
  · rename_i hne
    refine le_of_eq (count_eq_zero.mpr fun hmem => hne ?_)
    obtain ⟨bytes', hbytes⟩ := hreceived tag hmem
    rw [htag] at hbytes
    exact (Prod.mk.inj (Option.some.inj hbytes)).1.symm

end Net

/-- Hubs in any arrangement of links, with clients on every transport, after any interleaving of
their tasks:

* what a peer was handed is, byte for byte, a packet that some hub received from a client, the
  header of the packet names the band that the peer is registered in, and the copy crossed at most
  one link;
* a frame that an end of a link wrote is a packet that a client sent to its own hub, and had not
  crossed a link before;
* a packet was fanned out to the local peers at most once, at the hub that received it, and over
  each link of that hub at most once at the other end. -/
theorem federation_one_hop [DecidableEq H] {config : H → HubConfig H} {net : Net H}
    (hnet : net.Reachable config) :
    (∀ h, ∀ x ∈ (net.hubs h).delivered, x.2.mark.hops ≤ 1 ∧
      (∃ h', net.receipts[x.2.mark.tag]? = some (h', x.2.bytes)) ∧
      headerBand x.2.bytes = some x.1.band) ∧
    (∀ h band key p sink, (net.hubs h).registry.peer? band key = some p → p.sink = some sink →
      sink.band = band ∧ sink.key = key) ∧
    (∀ (k : Nat) e, net.ends[k]? = some e → ∀ x ∈ e.written, x.2.mark.hops = 0 ∧
      net.receipts[x.2.mark.tag]? = some (e.hub, x.2.bytes)) ∧
    ∀ tag h bytes, net.receipts[tag]? = some (h, bytes) →
      (∀ h', (net.hubs h').relayed.count tag ≤ if h' = h then 1 else 0) ∧
      ∀ (k : Nat) e, net.ends[k]? = some e → e.crossed.count tag ≤ if e.hub = h then 1 else 0 := by
  have hi := hnet.inv
  refine ⟨fun h x hx => ?_, fun h => (hi.hubs h).pinned, fun k e he x hx => ?_,
    fun tag h bytes htag => ⟨fun h' => ?_, fun k e he => ?_⟩⟩
  · have hfaithful := (hi.hubs h).delivered x hx
    exact ⟨hfaithful.hops, hfaithful.received, hfaithful.header⟩
  · have hlocal := (hi.ends k e he).written x hx
    exact ⟨hlocal.hops, hlocal.received⟩
  · have honce := (hi.hubs h').relayedOnce tag
    exact Net.count_le_of_received (hi.hubs h').relayed (by omega) htag
  · have honce := hi.once k e he tag
    unfold LinkEnd.carried at honce
    exact Net.count_le_of_received (hi.ends k e he).crossed (by omega) htag

/-- Two hubs; the first one dials the second one and itself. -/
def twoHubs (h : Bool) : HubConfig Bool where
  limits := ⟨4, 4, 0⟩
  federation := some
    { listen := true
      links := if h then [] else [true, false]
      secret := [7]
      inboundActive := true
      secret_lt := by decide }

/-- A peer of the second hub, and a frame from a peer of the first hub that reaches it. -/
def crossing : Option (Net Bool) :=
  play (Net.step twoHubs) (fun _ _ => true) (Net.init twoHubs) <|
    List.map (fun event _ => event)
    [.datagram true ⟨2, 9⟩ (List.replicate 43 0) 0 0, .forward true 0,
     .dial false true, .arrive 0 10, .arrive 1 10, .greet 0, .greet 1,
     .advertise 1 [zeroBand], .writeNext 1, .arrive 1 100, .read 0,
     .datagram false ⟨1, 9⟩ (List.replicate 44 0) 1 1, .forward false 0, .federate false 0 true,
     .fanEgress false, .fanNext false true, .writeNext 0, .arrive 0 30, .arrive 0 100, .read 1,
     .send true 1 true, .write true ⟨zeroBand, .udp ⟨2, 9⟩, 0⟩ true]

theorem federation_one_hop_crossing :
    ∃ net, crossing = some net ∧ net.receipts.length = 2 ∧
      ∃ x ∈ (net.hubs true).delivered, x.2.mark = ⟨1, 1⟩ ∧
        headerBand x.2.bytes = some x.1.band ∧
        ∀ (k : Nat) e, net.ends[k]? = some e → e.crossed.count 1 ≤ 1 := by
  refine exists_some (fun net => net.receipts[1]? = some (false, List.replicate 44 0) ∧
    net.receipts.length = 2 ∧ ∃ x ∈ (net.hubs true).delivered, x.2.mark = ⟨1, 1⟩)
    (by decide +kernel) ?_
  rintro net hplay ⟨hreceived, hlength, x, hx, hmark⟩
  have hnet : net.Reachable twoHubs := guardedRun_play (fun _ _ _ => trivial) hplay
  obtain ⟨hdelivers, -, -, hfans⟩ := federation_one_hop hnet
  refine ⟨hlength, x, hx, hmark, (hdelivers true x hx).2.2, fun k e he => ?_⟩
  have hle := (hfans 1 false _ hreceived).2 k e he
  split at hle
  · exact hle
  · omega

end Telesthete.Relay
