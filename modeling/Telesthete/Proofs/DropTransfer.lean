import Telesthete.Drop.Core
import Telesthete.Lib.NumberedLog

/-!
# A transfer completes with the file, or not at all

The receiver never sees anything but the offer of the one file and chunks of it, so
the chunks it holds are chunks of the file under their own indexes, whatever was
lost, repeated or reordered. It stops when it holds as many chunks as the file has,
and since indexes out of range are refused, that many chunks are all of them
(`Held.lookup_of_length`). Put together and cut to size they are the file, whose digest
is the one offered.

Cutting a file into chunks and joining them again is the identity for the empty
file too, which has one chunk of no bytes.
-/

namespace Telesthete.Drop

open Telesthete.Lib List Option
open Telesthete.Band (SocketAddr)

variable {sha256Hex : Bytes → String} {file : Bytes}
variable {held : AList fun _ : Nat => Bytes} {i : Nat}

/-! ## A file and its chunks -/

/-- The chunk of a file at an index. -/
def chunkOf (file : Bytes) (index : Nat) : Bytes := (file.drop (index * chunkSize)).take chunkSize

/-- How many chunks a file has. -/
def chunkCount (file : Bytes) : Nat := max 1 ((file.length + chunkSize - 1) / chunkSize)

theorem DropSenderCore.chunk_eq (s : DropSenderCore) (index : Nat) :
    s.chunk index = chunkOf s.data index := by
  simp only [chunk, chunkOf]
  split
  · next h => rw [drop_eq_nil_of_le h, take_nil]
  · next h =>
    rw [take_eq_take_iff, length_drop]
    omega

theorem flatten_chunkOf (file : Bytes) (n : Nat) :
    ((List.range n).map (chunkOf file)).flatten = file.take (n * chunkSize) := by
  induction n with
  | zero => simp
  | succ n ih =>
    rw [range_succ, map_append, flatten_append, ih, Nat.succ_mul, take_add]
    simp [chunkOf]

theorem length_le_chunkCount (file : Bytes) : file.length ≤ chunkCount file * chunkSize := by
  simp only [chunkCount, chunkSize]
  omega

theorem chunkCount_lt (h : file.length ≤ 2 ^ 41) : chunkCount file < 2 ^ 32 := by
  simp only [chunkCount, chunkSize]
  omega

/-- The chunks of a file make up the file. -/
theorem flatten_chunkOf_take (file : Bytes) :
    (((List.range (chunkCount file)).map (chunkOf file)).flatten).take file.length = file := by
  rw [flatten_chunkOf, take_take, Nat.min_eq_left (length_le_chunkCount file),
    take_length]

/-! ## What a receiver holds -/

/-- Chunks of the file, each under its index. -/
def Held (file : Bytes) (held : AList fun _ : Nat => Bytes) : Prop :=
  ∀ i bytes, held.lookup i = some bytes → i < chunkCount file ∧ bytes = chunkOf file i

theorem Held.insert (h : Held file held)
    (hi : i < chunkCount file) : Held file (held.insert i (chunkOf file i)) := by
  intro j bytes hj
  rw [lookup_insert_ite] at hj
  split at hj
  · next hji =>
    subst hji
    exact ⟨hi, (Option.some.inj hj).symm⟩
  · exact h j bytes hj

theorem Held.lt (h : Held file held) (hi : i ∈ held) : i < chunkCount file := by
  obtain ⟨bytes, hbytes⟩ := isSome_iff_exists.mp (AList.lookup_isSome.mpr hi)
  exact (h i bytes hbytes).1

theorem Held.length_le (h : Held file held) :
    held.entries.length ≤ chunkCount file :=
  length_entries_le_of_lt fun _ hi => h.lt hi

/-- As many chunks as the file has, when every chunk is there. -/
theorem Held.length_eq_iff (h : Held file held) :
    held.entries.length = chunkCount file ↔ ∀ i < chunkCount file, i ∈ held :=
  length_entries_eq_iff fun _ hi => h.lt hi

/-- As many chunks as the file has are all of them. -/
theorem Held.lookup_of_length (h : Held file held)
    (hlen : held.entries.length = chunkCount file) (hi : i < chunkCount file) :
    held.lookup i = some (chunkOf file i) := by
  have hmem := h.length_eq_iff.mp hlen i hi
  obtain ⟨bytes, hbytes⟩ := isSome_iff_exists.mp (AList.lookup_isSome.mpr hmem)
  rw [hbytes, (h i bytes hbytes).2]

/-- The offer of the file. -/
structure IsOffer (sha256Hex : Bytes → String) (file : Bytes) (offer : OfferPayload) : Prop where
  size : offer.size = file.length
  totalChunks : offer.totalChunks = chunkCount file
  sha256 : offer.sha256 = sha256Hex file

section file

variable {r : DropReceiverCore} {o : OfferPayload}

/-- With every chunk there, the file is put together and its digest is the one offered. -/
theorem finish_of_held (hcount : chunkCount file < 2 ^ 32) (h : Held file r.held)
    (ho : IsOffer sha256Hex file o) (hlen : r.held.entries.length = chunkCount file) :
    r.finish sha256Hex o =
      some ({ r with verified := some true, completion := some (file, true) },
        [.done (sha256Hex file)]) := by
  have hall : (List.range (chunkCount file)).mapM (fun i => r.held.lookup i) =
      some ((List.range (chunkCount file)).map (chunkOf file)) := by
    apply mapM_eq_some
    intro i hi
    exact h.lookup_of_length hlen (mem_range.mp hi)
  simp only [DropReceiverCore.finish, DropReceiverCore.assemble, ho.totalChunks, ho.size,
    ho.sha256, Nat.mod_eq_of_lt hcount, hall, Option.map_some, flatten_chunkOf_take,
    beq_self_eq_true]

theorem total_of_offer (hcount : chunkCount file < 2 ^ 32) (hoffer : r.offer = some o)
    (ho : IsOffer sha256Hex file o) : r.total = chunkCount file := by
  simp only [DropReceiverCore.total, hoffer, Option.map_some, Option.getD_some, ho.totalChunks,
    Nat.mod_eq_of_lt hcount]

@[simp] theorem keep_offer (i : Nat) (bytes : Bytes) (now : Nat) :
    (r.keep i bytes now).offer = r.offer := by
  simp only [DropReceiverCore.keep]
  split <;> rfl

/-- Keeping a chunk changes nothing that decides what is asked for next. -/
theorem keep_unchanged (i : Nat) (bytes : Bytes) (now : Nat) :
    (r.keep i bytes now).senderAddr = r.senderAddr ∧ (r.keep i bytes now).verified = r.verified ∧
      (r.keep i bytes now).outstanding = r.outstanding ∧
      (r.keep i bytes now).completion = r.completion := by
  simp only [DropReceiverCore.keep]
  split <;> exact ⟨rfl, rfl, rfl, rfl⟩

/-- What a receiver holds after a chunk. -/
theorem mem_keep {i j now : Nat} {bytes : Bytes} :
    j ∈ (r.keep i bytes now).held ↔ j ∈ r.held ∨ j = i := by
  simp only [DropReceiverCore.keep]
  split
  · next hi => exact ⟨.inl, fun h => h.elim id fun heq => heq ▸ hi⟩
  · show j ∈ r.held.insert i bytes ↔ _
    rw [AList.mem_insert, or_comm]

/-- What a chunk of the file does: the file is complete, the window is, or neither. -/
theorem onChunk_chunkOf {i now : Nat} (hcount : chunkCount file < 2 ^ 32)
    (hoffer : r.offer = some o) (ho : IsOffer sha256Hex file o)
    (hheld : Held file (r.keep i (chunkOf file i) now).held) (hi : i < chunkCount file) :
    r.onChunk sha256Hex (toBe 4 i ++ chunkOf file i) now =
      if (r.keep i (chunkOf file i) now).held.entries.length = chunkCount file then
        (r.keep i (chunkOf file i) now).finish sha256Hex o
      else if (r.keep i (chunkOf file i) now).drained then
        some (r.keep i (chunkOf file i) now).requestMissing
      else some (r.keep i (chunkOf file i) now, []) := by
  have hindex : ofBe ((toBe 4 i ++ chunkOf file i).take 4) = i := by
    rw [take_left' (length_toBe 4 i), ofBe_toBe (by omega)]
  have hbody : (toBe 4 i ++ chunkOf file i).drop 4 = chunkOf file i :=
    drop_left' (length_toBe 4 i)
  have hlong : ¬ (toBe 4 i ++ chunkOf file i).length < 4 := by simp
  have htotal := total_of_offer hcount hoffer ho
  have htotal' := total_of_offer hcount ((keep_offer i (chunkOf file i) now).trans hoffer) ho
  have hle := hheld.length_le
  simp only [DropReceiverCore.onChunk, hoffer, if_neg hlong, hindex, hbody, htotal,
    if_neg (not_le.mpr hi), htotal',
    Nat.mod_eq_of_lt (lt_of_le_of_lt hle hcount)]

end file

/-- A receiver that has met nothing but the file. -/
structure Sound (sha256Hex : Bytes → String) (file : Bytes) (r : DropReceiverCore) : Prop where
  offer : ∀ o, r.offer = some o → IsOffer sha256Hex file o
  held : Held file r.held
  verified : r.verified ≠ some false
  completion : ∀ c, r.completion = some c → c = (file, true)

/-- A frame the sender of the file sends. -/
inductive Served (sha256Hex : Bytes → String) (file : Bytes) : Frame → Prop where
  | offer {o : OfferPayload} : IsOffer sha256Hex file o → Served sha256Hex file (.offer o)
  | chunk {i : Nat} : i < chunkCount file →
      Served sha256Hex file (.chunk (toBe 4 i ++ chunkOf file i))

/-- What an operation of the receiver may do: stay sound, and confirm only the file. -/
structure Answers (sha256Hex : Bytes → String) (file : Bytes)
    (out : DropReceiverCore × List Frame) : Prop where
  sound : Sound sha256Hex file out.1
  done : ∀ sha256, .done sha256 ∈ out.2 → sha256 = sha256Hex file

namespace Sound

variable {r : DropReceiverCore}

theorem quiet (h : Sound sha256Hex file r) : Answers sha256Hex file (r, []) :=
  ⟨h, by simp⟩

theorem requestMissing (h : Sound sha256Hex file r) :
    Answers sha256Hex file r.requestMissing := by
  simp only [DropReceiverCore.requestMissing]
  split
  · exact h.quiet
  · split
    · exact ⟨{ h with }, by simp⟩
    · exact h.quiet

theorem tick (h : Sound sha256Hex file r) (now : Nat) :
    Answers sha256Hex file (r.tick now) := by
  simp only [DropReceiverCore.tick]
  split
  · have hprogress : Sound sha256Hex file { r with lastProgress := some now } := { h with }
    exact hprogress.requestMissing
  · exact h.quiet

/-- A repeated offer is for the same file, so nothing starts over. -/
theorem onOffer {o : OfferPayload} (h : Sound sha256Hex file r) (ho : IsOffer sha256Hex file o)
    (source : SocketAddr) (now : Nat) : Answers sha256Hex file (r.onOffer source o now) := by
  have hsame :
      (r.offer.any fun prev => o.sha256 != prev.sha256 || o.size != prev.size) = false := by
    cases hprev : r.offer with
    | none => rfl
    | some prev =>
      have hp := h.offer prev hprev
      simp [ho.size, ho.sha256, hp.size, hp.sha256]
  simp only [DropReceiverCore.onOffer, hsame, Bool.false_eq_true, if_false]
  refine requestMissing ⟨?_, h.held, h.verified, h.completion⟩
  intro o' ho'
  rw [← Option.some.inj ho']
  exact ho

theorem keep {i : Nat} (h : Sound sha256Hex file r) (hi : i < chunkCount file) (now : Nat) :
    Sound sha256Hex file (r.keep i (chunkOf file i) now) := by
  simp only [DropReceiverCore.keep]
  split
  · exact h
  · exact ⟨h.offer, h.held.insert hi, h.verified, h.completion⟩

theorem onChunk {i : Nat} (hcount : chunkCount file < 2 ^ 32) (h : Sound sha256Hex file r)
    (hi : i < chunkCount file) (now : Nat) :
    ∃ out, r.onChunk sha256Hex (toBe 4 i ++ chunkOf file i) now = some out ∧
      Answers sha256Hex file out := by
  cases hoffer : r.offer with
  | none => exact ⟨(r, []), by simp only [DropReceiverCore.onChunk, hoffer], h.quiet⟩
  | some o =>
    have ho := h.offer o hoffer
    have hkeep := h.keep hi now
    rw [onChunk_chunkOf hcount hoffer ho hkeep.held hi]
    split
    · next hlen =>
      refine ⟨_, finish_of_held hcount hkeep.held ho hlen,
        ⟨hkeep.offer, hkeep.held, by simp, ?_⟩, ?_⟩
      · intro c hc
        exact (Option.some.inj hc).symm
      · simp
    · split
      · exact ⟨_, rfl, hkeep.requestMissing⟩
      · exact ⟨_, rfl, hkeep.quiet⟩

/-- Every frame of the sender is taken without a panic. -/
theorem handleFrame {f : Frame} (hcount : chunkCount file < 2 ^ 32) (h : Sound sha256Hex file r)
    (hf : Served sha256Hex file f) (source : SocketAddr) (now : Nat) :
    ∃ out, r.handleFrame sha256Hex source f now = some out ∧ Answers sha256Hex file out := by
  cases hf with
  | offer ho => exact ⟨_, rfl, h.onOffer ho source now⟩
  | chunk hi => exact h.onChunk hcount hi now

end Sound

/-! ## The transfer -/

namespace Transfer

variable {t t' : Transfer}

structure Inv (sha256Hex : Bytes → String) (file : Bytes) (t : Transfer) : Prop where
  data : t.sender.data = file
  totalChunks : t.sender.totalChunks = chunkCount file
  sha256 : t.sender.sha256 = sha256Hex file
  receiver : Sound sha256Hex file t.receiver
  served : ∀ f ∈ t.served, Served sha256Hex file f
  asked : ∀ sha256, .done sha256 ∈ t.asked → sha256 = sha256Hex file

theorem inv_init (hcount : chunkCount file < 2 ^ 32) {name : String}
    {held : AList fun _ : Nat => Bytes} (hheld : Held file held) :
    Inv sha256Hex file (init sha256Hex name file held) where
  data := rfl
  totalChunks := Nat.mod_eq_of_lt hcount
  sha256 := rfl
  receiver := ⟨by simp [init, DropReceiverCore.new], hheld, by simp [init, DropReceiverCore.new],
    by simp [init, DropReceiverCore.new]⟩
  served := by simp [init]
  asked := by simp [init]

/-- Whatever it is asked for, the sender only serves the file. -/
theorem Inv.serveRange (h : Inv sha256Hex file t) (start stop : Int) :
    ∀ f ∈ t.sender.serveRange start stop, Served sha256Hex file f := by
  intro f hf
  simp only [DropSenderCore.serveRange, List.mem_map, mem_range'_1] at hf
  obtain ⟨i, hi, rfl⟩ := hf
  rw [DropSenderCore.chunk_eq, h.data]
  have htotal := h.totalChunks
  exact .chunk (by omega)

theorem Inv.sent {source : SocketAddr} {f : Frame} (h : Inv sha256Hex file t) :
    Inv sha256Hex file (t.sent (t.sender.handleFrame source f)) := by
  refine ⟨?_, ?_, ?_, h.receiver, ?_, h.asked⟩
  · cases f <;> exact h.data
  · cases f <;> exact h.totalChunks
  · cases f <;> exact h.sha256
  · intro g hg
    rcases mem_append.mp hg with hg | hg
    · exact h.served g hg
    · cases f with
      | request ranges =>
        obtain ⟨r, -, hr⟩ := mem_flatMap.mp hg
        exact h.serveRange r.1 r.2 g hr
      | offer o => simp [DropSenderCore.handleFrame] at hg
      | chunk body => simp [DropSenderCore.handleFrame] at hg
      | done sha => simp [DropSenderCore.handleFrame] at hg

theorem Inv.received {out : DropReceiverCore × List Frame} (h : Inv sha256Hex file t)
    (hout : Answers sha256Hex file out) : Inv sha256Hex file (t.received out) := by
  refine { h with receiver := hout.sound, asked := fun sha256 hsha => ?_ }
  exact (mem_append.mp hsha).elim (h.asked sha256) (hout.done sha256)

theorem Inv.exec {e : Event} (hcount : chunkCount file < 2 ^ 32) (h : Inv sha256Hex file t)
    (he : t.exec sha256Hex e = some t') : Inv sha256Hex file t' := by
  cases e with
  | offer =>
    cases he
    have hoffer : Served sha256Hex file t.sender.offerFrame :=
      .offer ⟨congrArg List.length h.data, h.totalChunks, h.sha256⟩
    exact { h with served := forall_mem_snoc h.served hoffer }
  | request source ranges =>
    cases he
    exact h.sent
  | toReceiver source f now =>
    obtain ⟨hf, he⟩ := ite_none_right_eq_some.mp he
    obtain ⟨out, hout, hans⟩ := h.receiver.handleFrame hcount (h.served f hf) source now
    rw [hout] at he
    cases he
    exact h.received hans
  | toSender source f =>
    obtain ⟨-, he⟩ := ite_none_right_eq_some.mp he
    cases he
    exact h.sent
  | tick now =>
    cases he
    exact h.received (h.receiver.tick now)
  | takeCompletion =>
    cases he
    refine { h with receiver := { h.receiver with completion := fun c hc => ?_ } }
    simp [DropReceiverCore.takeCompletion] at hc

/-- In every run of a transfer, the receiver completes with nothing but the file and a positive
verdict, never finds the digest wrong, and every DONE it has sent makes the sender record
success. -/
theorem completes_with_file (hsize : file.length ≤ 2 ^ 41) (name : String)
    (held : AList fun _ : Nat => Bytes)
    (hheld : ∀ i bytes, held.lookup i = some bytes → i < chunkCount file ∧ bytes = chunkOf file i)
    (hreach : Reachable sha256Hex name file held t) :
    (∀ c, t.receiver.completion = some c → c = (file, true)) ∧
    (∀ sha256 source, .done sha256 ∈ t.asked →
      (t.sender.handleFrame source (.done sha256)).1.completed.lookup source = some true ∧
      (t.sender.handleFrame source (.done sha256)).2.2 = some true) ∧
    t.receiver.verified ≠ some false := by
  have hcount := chunkCount_lt hsize
  have hinv : Inv sha256Hex file t :=
    hreach.invariant (inv_init hcount hheld) fun _ _ _ h _ he => h.exec hcount he
  refine ⟨hinv.receiver.completion, ?_, hinv.receiver.verified⟩
  intro sha256 source hdone
  have hok : (sha256 == t.sender.sha256) = true := by
    rw [hinv.asked sha256 hdone, hinv.sha256, beq_self_eq_true]
  simp only [DropSenderCore.handleFrame, hok]
  exact ⟨AList.lookup_insert _, trivial⟩

/-- A file of two chunks, the second of one byte. -/
def longFile : Bytes := List.replicate 1025 7

/-- A transfer of it to a receiver that has the first chunk: the offer, the request it makes, the
chunk that answers, and the same chunk again. -/
def resumed : Option Transfer :=
  play (exec fun bs => if bs = longFile then "7" else "") (fun _ _ => true)
    (init (fun bs => if bs = longFile then "7" else "") "f" longFile
      (AList.singleton 0 (List.replicate 1024 7)))
    [fun _ => .offer, fun t => .toReceiver ⟨1, 1⟩ (t.served.getD 0 (.chunk [])) 0,
     fun t => .toSender ⟨2, 2⟩ (t.asked.getD 0 (.chunk [])),
     fun t => .toReceiver ⟨1, 1⟩ (t.served.getD 1 (.chunk [])) 1,
     fun t => .toReceiver ⟨1, 1⟩ (t.served.getD 1 (.chunk [])) 2]

theorem completes_with_file_resumed : ∃ t, resumed = some t ∧
    t.receiver.completion = some (longFile, true) ∧ .done "7" ∈ t.asked ∧
    (t.sender.handleFrame ⟨2, 2⟩ (.done "7")).1.completed.lookup ⟨2, 2⟩ = some true := by
  refine exists_some (fun t => t.receiver.completion.isSome ∧ .done "7" ∈ t.asked)
    (by decide +kernel) ?_
  rintro t ht ⟨hsome, hdone⟩
  have hseed : ∀ i bytes,
      (AList.singleton 0 (List.replicate 1024 7) : AList fun _ : Nat => Bytes).lookup i =
        some bytes → i < chunkCount longFile ∧ bytes = chunkOf longFile i := by
    intro i bytes hi
    have h0 : i = 0 := mem_singleton.mp (mem_of_lookup hi)
    subst h0
    refine ⟨by decide +kernel, ?_⟩
    rw [← Option.some.inj hi]
    decide +kernel
  have hall := completes_with_file (by decide +kernel) "f" _ hseed
    (guardedRun_play (fun _ _ _ => trivial) ht)
  obtain ⟨c, hc⟩ := isSome_iff_exists.mp hsome
  refine ⟨?_, hdone, (hall.2.1 "7" ⟨2, 2⟩ hdone).1⟩
  rw [hc, hall.1 c hc]

end Transfer

end Telesthete.Drop
