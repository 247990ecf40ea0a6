import Telesthete.Proofs.SpatialNonce

/-!
# Latest wins, unless a split message is late

The receiver drops a DATA datagram unless its sequence number is newer than the last
one it took for the same channel and window. While fewer than `2 ^ 31` numbers have
been drawn, newer is larger, and numbers go up with the order in which messages are
sent, so what is output for a window is in the order of sending and nothing is output
twice (`Session.latest_wins`).

Fragments do not take part in this: a message that was split is output whenever a set
of its fragments is complete, and a completed set is forgotten. The same fragments
delivered again output the message again (`Session.fragments_repeat`). So the result is
for runs in which neither a fragment nor what a split message overtook comes late.
-/

namespace Telesthete.Spatial

open Telesthete.Lib List

variable {channel : UInt8} {peer : List Sealed} {c : UdpHalf}

theorem lt_of_newer {seq last : UInt32} (h : newer seq last = true) (hseq : seq.toNat < 2 ^ 31)
    (hlast : last.toNat < 2 ^ 31) : last.toNat < seq.toNat := by
  obtain ⟨hne, hlt⟩ := Bool.and_eq_true_iff.mp h
  have hne' : seq.toNat ≠ last.toNat := fun heq => of_decide_eq_true hne (UInt32.toNat_inj.mp heq)
  have hlt' : (seq - last).toNat < 2 ^ 31 := of_decide_eq_true hlt
  rw [UInt32.toNat_sub] at hlt'
  omega

/-! ## What a sender seals -/

namespace UdpHalf

variable {c : UdpHalf} {draws : List Nat}
variable {d : Sealed}

/-- The DATA datagrams of a sender are in the order of the messages they carry. -/
structure Dated (c : UdpHalf) : Prop where
  before : ∀ d ∈ c.datagrams, d.dtype = dtData → d.send < c.sends
  increasing : c.datagrams.Pairwise fun d d' =>
    d.dtype = dtData → d'.dtype = dtData → d.send < d'.send

/-- A datagram of another type says nothing about the order. -/
theorem Dated.emit {dtype : UInt8} (h : Dated c) (hd : dtype ≠ dtData) (channel : UInt8)
    (body : Bytes) : Dated (c.emit dtype channel body) where
  before := forall_mem_snoc h.before fun hdata => absurd hdata hd
  increasing := by
    refine pairwise_append.mpr ⟨h.increasing, pairwise_singleton _ _, ?_⟩
    intro d _ d' hd' _ hdata
    rw [mem_singleton.mp hd'] at hdata
    exact absurd hdata hd

theorem Dated.sendUdp (h : Dated c) (channel : UInt8) (msg : Bytes) (taken : Nat) :
    Dated (c.sendUdp channel msg taken) := by
  simp only [UdpHalf.sendUdp]
  split
  · refine ⟨?_, ?_⟩
    · exact forall_mem_snoc (fun d hd hdata => Nat.lt_succ_of_lt (h.before d hd hdata))
        fun _ => Nat.lt_succ_self _
    · refine pairwise_append.mpr ⟨h.increasing, pairwise_singleton _ _, ?_⟩
      intro d hd d' hd' hdata _
      rw [mem_singleton.mp hd']
      exact h.before d hd hdata
  · have hid : Dated { c.draw with msgIdTx := c.draw.msgIdTx + 1 } := ⟨h.before, h.increasing⟩
    have hfrags := emitFrags_invariant (P := Dated) (k := c.draw.msgIdTx)
      (n := UInt16.ofNat (fragment msg c.mtu).length)
      (fun c _ _ hc => hc.emit (by decide) channel _) ((fragment msg c.mtu).take taken) 0 _ hid
    exact ⟨fun d hd hdata => Nat.lt_succ_of_lt (hfrags.before d hd hdata), hfrags.increasing⟩

/-- Sending takes nothing back. -/
theorem datagrams_sendUdp (c : UdpHalf) (channel : UInt8) (msg : Bytes) (taken : Nat)
    (hd : d ∈ c.datagrams) : d ∈ (c.sendUdp channel msg taken).datagrams := by
  simp only [UdpHalf.sendUdp]
  split
  · exact mem_append_left _ hd
  · exact emitFrags_invariant (P := fun c => d ∈ c.datagrams)
      (fun c _ _ hc => mem_append_left _ hc) _ _ _ hd

/-- Sending leaves the reading alone. -/
theorem receiver_sendUdp (c : UdpHalf) (channel : UInt8) (msg : Bytes) (taken : Nat) :
    (c.sendUdp channel msg taken).out = c.out ∧ (c.sendUdp channel msg taken).reasm = c.reasm := by
  simp only [UdpHalf.sendUdp]
  split
  · exact ⟨rfl, rfl⟩
  · exact emitFrags_invariant (P := fun d => d.out = c.out ∧ d.reasm = c.reasm)
      (fun d _ _ hd => hd) _ _ _ ⟨rfl, rfl⟩

/-- The numbers of the datagrams, as long as they do not wrap. -/
theorem Numbered.seq_lt (h : Numbered c draws) (hdrawn : c.drawn < 2 ^ 31)
    (hd : d ∈ c.datagrams) : d.seq.toNat < 2 ^ 31 := by
  have hmem : d.seq ∈ draws.map fun i => UInt32.ofNat (1 + i) := by
    rw [← h.seqs]
    exact mem_map_of_mem hd
  obtain ⟨i, hi, hseq⟩ := mem_map.mp hmem
  have hlt := h.lt i hi
  rw [← hseq, UInt32.toNat_ofNat']
  omega

/-- The numbers go up along the list. -/
theorem Numbered.increasing (h : Numbered c draws) (hdrawn : c.drawn < 2 ^ 31) :
    c.datagrams.Pairwise fun d d' => d.seq.toNat < d'.seq.toNat := by
  have hseqs : (c.datagrams.map Sealed.seq).Pairwise fun a b => a.toNat < b.toNat := by
    rw [h.seqs, pairwise_map]
    refine h.sorted.imp_of_mem ?_
    intro i j hi hj hij
    have hj' := h.lt j hj
    rw [UInt32.toNat_ofNat', UInt32.toNat_ofNat']
    omega
  rwa [pairwise_map] at hseqs

/-- A message with a larger number was sent later. -/
theorem Numbered.send_lt {d d' : Sealed} (h : Numbered c draws) (hdated : Dated c)
    (hdrawn : c.drawn < 2 ^ 31) (hd : d ∈ c.datagrams) (hd' : d' ∈ c.datagrams)
    (hdata : d.dtype = dtData) (hdata' : d'.dtype = dtData) (hlt : d.seq.toNat < d'.seq.toNat) :
    d.send < d'.send := by
  have hseq := pairwise_iff_getElem.mp (h.increasing hdrawn)
  have hsend := pairwise_iff_getElem.mp hdated.increasing
  obtain ⟨i, hi, rfl⟩ := getElem_of_mem hd
  obtain ⟨j, hj, rfl⟩ := getElem_of_mem hd'
  rcases Nat.lt_trichotomy i j with hij | rfl | hij
  · exact hsend i j hi hj hij hdata hdata'
  · exact absurd hlt (lt_irrefl _)
  · exact absurd hlt (Nat.lt_asymm (hseq j i hj hi hij))

end UdpHalf

/-! ## What a receiver outputs -/

/-- What was output for a window. -/
def UdpHalf.outFor (c : UdpHalf) (channel : UInt8) (win : UInt32) : List Output :=
  c.out.filter fun o => o.channel = channel ∧ windowKey channel o.msg = win

/-- A message on the channel was sent in fragments. -/
def Split (peer : List Sealed) (channel : UInt8) (send : Nat) : Prop :=
  ∃ d ∈ peer, d.dtype = dtFrag ∧ d.channel = channel ∧ d.send = send

instance decidableSplit (peer : List Sealed) (channel : UInt8) (send : Nat) :
    Decidable (Split peer channel send) :=
  inferInstanceAs (Decidable (∃ _ ∈ _, _))

/-- A message of the window that was output was split, or is not newer than the last number taken
for the window. -/
def Passed (peer : List Sealed) (channel : UInt8) (reasm : UdpReasm) (win : UInt32) (o : Output) :
    Prop :=
  Split peer channel o.send ∨ ∃ d ∈ peer, d.dtype = dtData ∧
    reasm.lastSeq.lookup (channel, win) = some d.seq ∧ o.send ≤ d.send

/-- The outputs for every window of a channel are in order, and passed. -/
structure Latest (peer : List Sealed) (channel : UInt8) (c : UdpHalf) : Prop where
  ordered : ∀ win, (c.outFor channel win).Pairwise fun o o' => o.send < o'.send
  last : ∀ win, ∀ o ∈ c.outFor channel win, Passed peer channel c.reasm win o

theorem lastSeq_onFrag (r : UdpReasm) (channel : UInt8) (msgId : UInt32) (idx count : UInt16)
    (slice : Bytes) : (r.onFrag channel msgId idx count slice).1.lastSeq = r.lastSeq := by
  simp only [UdpReasm.onFrag]
  split
  · rfl
  · split
    · rfl
    · split <;> rfl

/-- What a datagram does: output nothing, output a message on a channel without windows or in
fragments, or output a fresh message and take its number. -/
theorem onBody_cases (c : UdpHalf) (dtype channel : UInt8) (seq : UInt32) (body : Bytes) :
    ((c.onBody dtype channel seq body).1.lastSeq = c.reasm.lastSeq ∧
      ((c.onBody dtype channel seq body).2 = none ∨ channel = 200 ∨ dtype = dtFrag)) ∨
    (dtype = dtData ∧
      (∀ last, c.reasm.lastSeq.lookup (channel, windowKey channel body) = some last →
        newer seq last = true) ∧
      c.onBody dtype channel seq body =
        ({ c.reasm with
            lastSeq := c.reasm.lastSeq.insert (channel, windowKey channel body) seq },
          some body)) := by
  simp only [UdpHalf.onBody]
  split
  · next hdata =>
    simp only [UdpReasm.onData]
    split
    · next h200 => exact .inl ⟨rfl, .inr (.inl h200)⟩
    · split
      · exact .inl ⟨rfl, .inl rfl⟩
      · next hfresh =>
        refine .inr ⟨hdata, ?_, rfl⟩
        intro last hlast
        simpa [hlast] using hfresh
  · split
    · next hfrag =>
      refine .inl ⟨?_, .inr (.inr hfrag)⟩
      split
      · exact lastSeq_onFrag ..
      · rfl
    · exact .inl ⟨rfl, .inl rfl⟩

theorem Latest.mono {peer peer' : List Sealed} {c c' : UdpHalf}
    (h : Latest peer channel c) (hp : ∀ d ∈ peer, d ∈ peer') (hout : c'.out = c.out)
    (hreasm : c'.reasm = c.reasm) : Latest peer' channel c' := by
  refine ⟨?_, ?_⟩
  · simp only [UdpHalf.outFor, hout]
    exact h.ordered
  · intro win o ho
    simp only [UdpHalf.outFor, hout] at ho
    rw [hreasm]
    rcases h.last win o ho with ⟨d, hd, hsplit⟩ | ⟨d, hd, hlast⟩
    · exact .inl ⟨d, hp d hd, hsplit⟩
    · exact .inr ⟨d, hp d hd, hlast⟩

/-- A datagram that changes nothing the channel depends on. -/
theorem Latest.irrelevant {reasm : UdpReasm} {new : List Output} (h : Latest peer channel c)
    (hlast : ∀ win, reasm.lastSeq.lookup (channel, win) = c.reasm.lastSeq.lookup (channel, win))
    (hnew : ∀ o ∈ new, o.channel ≠ channel) :
    Latest peer channel { c with reasm := reasm, out := c.out ++ new } := by
  have hsame : ∀ win, UdpHalf.outFor { c with reasm := reasm, out := c.out ++ new } channel win =
      c.outFor channel win := by
    intro win
    have hnil : new.filter (fun o => o.channel = channel ∧ windowKey channel o.msg = win) = [] := by
      rw [filter_eq_nil_iff]
      intro o ho
      simp [hnew o ho]
    simp only [UdpHalf.outFor, filter_append, hnil, append_nil]
  refine ⟨fun win => by rw [hsame]; exact h.ordered win, fun win o ho => ?_⟩
  rw [hsame] at ho
  rw [Passed, hlast]
  exact h.last win o ho

/-- A message for a window of the channel comes after all that was output for it. -/
theorem Latest.output {reasm : UdpReasm} {o : Output} (h : Latest peer channel c)
    (hch : o.channel = channel)
    (hnew : ∀ o' ∈ c.outFor channel (windowKey channel o.msg), o'.send < o.send)
    (hother : ∀ win, windowKey channel o.msg ≠ win →
      reasm.lastSeq.lookup (channel, win) = c.reasm.lastSeq.lookup (channel, win))
    (hwin : ∀ o' ∈ c.outFor channel (windowKey channel o.msg) ++ [o],
      Passed peer channel reasm (windowKey channel o.msg) o') :
    Latest peer channel { c with reasm := reasm, out := c.out ++ [o] } := by
  have hout : ∀ win, UdpHalf.outFor { c with reasm := reasm, out := c.out ++ [o] } channel win =
      c.outFor channel win ++ if windowKey channel o.msg = win then [o] else [] := by
    intro win
    simp only [UdpHalf.outFor, filter_append, filter_cons, filter_nil, hch, true_and,
      decide_eq_true_eq]
  refine ⟨fun win => ?_, fun win => ?_⟩ <;> rw [hout] <;> split
  case refine_1.isTrue hw =>
    subst hw
    refine pairwise_append.mpr ⟨h.ordered _, pairwise_singleton _ _, ?_⟩
    intro o' ho' o'' ho''
    rw [mem_singleton.mp ho'']
    exact hnew o' ho'
  case refine_2.isTrue hw =>
    subst hw
    exact hwin
  case refine_1.isFalse hw =>
    rw [append_nil]
    exact h.ordered win
  case refine_2.isFalse hw =>
    intro o' ho'
    rw [append_nil] at ho'
    simp only [Passed, hother win hw]
    exact h.last win o' ho'

/-- A message comes too late: it was sent no later than one that was output on the channel, and one
of the two was split. -/
def Late (peer : List Sealed) (ct : Sealed) (o : Output) : Prop :=
  o.channel = ct.channel ∧ ct.send ≤ o.send ∧
    (ct.dtype = dtFrag ∨ ct.dtype = dtData ∧ Split peer ct.channel o.send)

instance decidableLate (peer : List Sealed) (ct : Sealed) (o : Output) :
    Decidable (Late peer ct o) :=
  inferInstanceAs (Decidable (_ ∧ _))

/-- Reading a datagram that the peer sealed. -/
theorem Latest.pollUdp {sender c : UdpHalf} {idx : List Nat} (hch : channel ≠ 200)
    (h : Latest sender.datagrams channel c) (hnum : sender.Numbered idx) (hdated : sender.Dated)
    (hdrawn : sender.drawn < 2 ^ 31) {ct : Sealed} (hct : ct ∈ sender.datagrams)
    (hlate : ct.channel = channel → ∀ o ∈ c.out, ¬ Late sender.datagrams ct o)
    (dtype channel' : UInt8) (seq : UInt32) :
    Latest sender.datagrams channel (c.pollUdp dtype channel' seq ct) := by
  simp only [UdpHalf.pollUdp, Sealed.open]
  by_cases hopen : ct.dtype = dtype ∧ ct.channel = channel' ∧ ct.seq = seq
  swap
  · rw [if_neg hopen]
    exact h
  obtain ⟨rfl, rfl, rfl⟩ := hopen
  simp only [and_self, if_true]
  by_cases heq : ct.channel = channel
  swap
  · -- another channel's
    refine h.irrelevant ?_ ?_
    · intro win
      rcases onBody_cases c ct.dtype ct.channel ct.seq ct.body with ⟨hlast, -⟩ | ⟨-, -, hbody⟩
      · rw [hlast]
      · rw [hbody]
        exact AList.lookup_insert_ne fun hkey => heq (Prod.mk.inj hkey).1.symm
    · intro o ho
      obtain ⟨m, -, rfl⟩ := Option.map_eq_some_iff.mp (Option.mem_toList.mp ho)
      exact heq
  subst heq
  rcases onBody_cases c ct.dtype ct.channel ct.seq ct.body with ⟨hlast, hout⟩ |
    ⟨hdata, hfresh, hbody⟩
  · cases hnone : (c.onBody ct.dtype ct.channel ct.seq ct.body).2 with
    | none => exact h.irrelevant (fun win => by rw [hlast]) fun o ho => by cases ho
    | some msg =>
      have hfrag : ct.dtype = dtFrag := by
        rcases hout with hout | h200 | hfrag
        · rw [hout] at hnone
          cases hnone
        · exact absurd h200 hch
        · exact hfrag
      refine h.output rfl ?_ (fun win _ => by rw [hlast]) ?_
      · intro o ho
        obtain ⟨ho, hoch⟩ := mem_filter.mp ho
        exact Nat.lt_of_not_le fun hle =>
          hlate rfl o ho ⟨(of_decide_eq_true hoch).1, hle, .inl hfrag⟩
      · refine forall_mem_snoc (fun o ho => ?_) (.inl ⟨ct, hct, hfrag, rfl, rfl⟩)
        rw [Passed, hlast]
        exact h.last _ o ho
  · rw [hbody]
    have hnew : ∀ o ∈ c.outFor ct.channel (windowKey ct.channel ct.body), o.send < ct.send := by
      intro o ho
      rcases h.last _ o ho with hsplit | ⟨d, hd, hddata, hlast, hle⟩
      · obtain ⟨ho, hoch⟩ := mem_filter.mp ho
        exact Nat.lt_of_not_le fun hle =>
          hlate rfl o ho ⟨(of_decide_eq_true hoch).1, hle, .inr ⟨hdata, hsplit⟩⟩
      · refine lt_of_le_of_lt hle (hnum.send_lt hdated hdrawn hd hct hddata hdata ?_)
        exact lt_of_newer (hfresh d.seq hlast) (hnum.seq_lt hdrawn hct) (hnum.seq_lt hdrawn hd)
    have hpassed : ∀ o : Output, o.send ≤ ct.send →
        Passed sender.datagrams ct.channel { c.reasm with
          lastSeq := c.reasm.lastSeq.insert (ct.channel, windowKey ct.channel ct.body) ct.seq }
          (windowKey ct.channel ct.body) o :=
      fun o hle => .inr ⟨ct, hct, hdata, AList.lookup_insert _, hle⟩
    refine h.output rfl hnew ?_ ?_
    · exact fun win hw => AList.lookup_insert_ne fun hkey => hw (Prod.mk.inj hkey).2.symm
    · exact forall_mem_snoc (fun o ho => hpassed o (le_of_lt (hnew o ho))) (hpassed _ le_rfl)

namespace Session

variable {w : World} {s s' : Session} {x : Role} {channel : UInt8}

/-- The event does not bring the end a late message on the channel. -/
def inTime (x : Role) (channel : UInt8) (s : Session) : Event → Bool
  | .pollUdp y _ _ _ ct => y ≠ x || ct.channel ≠ channel ||
    (s.udp x).out.all fun o => ¬ Late (s.udp x.other).datagrams ct o
  | _ => true

/-- The other end draws fewer than `2 ^ 31` numbers, and no message on the channel is late. -/
def Timely (x : Role) (channel : UInt8) (s : Session) (e : Event) : Prop :=
  (s.udp x.other).drawn + draws x.other s e < 2 ^ 31 ∧ inTime x channel s e = true

instance decidableTimely (x : Role) (channel : UInt8) (s : Session) (e : Event) :
    Decidable (Timely x channel s e) :=
  inferInstanceAs (Decidable (_ ∧ _))

/-- What the sender seals and what the receiver has output agree on the channel. -/
structure Fresh (x : Role) (channel : UInt8) (s : Session) : Prop where
  numbered : ∃ idx, (s.udp x.other).Numbered idx
  dated : (s.udp x.other).Dated
  drawn : (s.udp x.other).drawn < 2 ^ 31
  latest : Latest (s.udp x.other).datagrams channel (s.udp x)

theorem fresh_init (mtu : Role → Nat) (sessionId : Bytes) (x : Role) (channel : UInt8) :
    Fresh x channel (init mtu sessionId) where
  numbered := ⟨_, numbered_init mtu sessionId x.other⟩
  dated := ⟨by simp [init, UdpHalf.new], by simp [init, UdpHalf.new]⟩
  drawn := by simp [init, UdpHalf.new]
  latest := ⟨by simp [UdpHalf.outFor, init, UdpHalf.new], by simp [UdpHalf.outFor, init, UdpHalf.new]⟩

/-- What the sender has sealed stays, in its order. -/
theorem exec_sender {e : Event} (hdated : (s.udp x.other).Dated) (he : exec w s e = some s') :
    (s'.udp x.other).Dated ∧
      ∀ d ∈ (s.udp x.other).datagrams, d ∈ (s'.udp x.other).datagrams := by
  rcases exec_udp he x.other with ⟨hsame, -⟩ | ⟨ch, msg, taken, rfl, hsent⟩ | ⟨rfl, hsent⟩ |
    ⟨dtype, ch, seq, ct, rfl, -, hread⟩
  · rw [hsame]
    exact ⟨hdated, fun d hd => hd⟩
  · rw [hsent]
    exact ⟨hdated.sendUdp ch msg taken, fun d hd => UdpHalf.datagrams_sendUdp _ ch msg taken hd⟩
  · rw [hsent]
    exact ⟨hdated.emit (by decide) 0 _, fun d hd => mem_append_left _ hd⟩
  · obtain ⟨-, -, -, hdata, hsends⟩ := pollUdp_sender (s.udp x.other) dtype ch seq ct
    rw [hread]
    refine ⟨⟨?_, ?_⟩, ?_⟩
    · rw [hdata, hsends]
      exact hdated.before
    · rw [hdata]
      exact hdated.increasing
    · rw [hdata]
      exact fun d hd => hd

theorem Fresh.exec {e : Event} (hch : channel ≠ 200) (h : Fresh x channel s)
    (hok : Timely x channel s e) (he : exec w s e = some s') : Fresh x channel s' := by
  obtain ⟨idx, hnum⟩ := h.numbered
  obtain ⟨hdated, hkept⟩ := exec_sender h.dated he
  refine ⟨exec_numbered hnum he, hdated, by rw [exec_drawn he]; exact hok.1, ?_⟩
  rcases exec_udp he x with ⟨hsame, -⟩ | ⟨ch, msg, taken, rfl, hsent⟩ | ⟨rfl, hsent⟩ |
    ⟨dtype, ch, seq, ct, rfl, hct, hread⟩
  · rw [hsame]
    exact h.latest.mono hkept rfl rfl
  · rw [hsent]
    obtain ⟨hout, hreasm⟩ := UdpHalf.receiver_sendUdp (s.udp x) ch msg taken
    exact h.latest.mono hkept hout hreasm
  · rw [hsent]
    exact h.latest.mono hkept rfl rfl
  · have hlate : ct.channel = channel →
        ∀ o ∈ (s.udp x).out, ¬ Late (s.udp x.other).datagrams ct o := by
      intro hchan
      simpa [inTime, hchan] using hok.2
    rw [hread]
    exact (h.latest.pollUdp hch hnum h.dated h.drawn hct hlate dtype ch seq).mono hkept rfl rfl

/-- In every run in which no message on the channel is late and fewer than `2 ^ 31` numbers are
drawn, the messages output for a window are in the order in which they were sent, each once. -/
theorem latest_wins {mtu : Role → Nat} {sessionId : Bytes} (x : Role) (channel : UInt8)
    (hch : channel ≠ 200)
    (hrun : GuardedRun (exec w) (Timely x channel) (init mtu sessionId) s) (win : UInt32) :
    ((s.udp x).out.filter fun o => o.channel = channel ∧ windowKey channel o.msg = win).Pairwise
      fun o o' => o.send < o'.send := by
  have h : Fresh x channel s := hrun.invariant (fresh_init mtu sessionId x channel)
    fun _ _ _ h hok he => h.exec hch hok he
  exact h.latest.ordered win

/-- A message in two fragments, and two more for its window, of which the second arrives first. -/
def overtaken : Option Session :=
  play (exec .plain) (fun s e => decide (Timely .host 2 s e)) (init (fun _ => 1200) [])
    [fun _ => .send .client 2 (List.replicate 1200 7) 2,
     fun _ => .send .client 2 [0, 0, 0, 0, 7, 7, 7, 7, 1] 0,
     fun _ => .send .client 2 [0, 0, 0, 0, 7, 7, 7, 7, 2] 0,
     fun s => .pollUdp .host dtFrag 2 2 ((s.udp .client).datagrams.getD 0 ⟨0, 0, 0, [], 0⟩),
     fun s => .pollUdp .host dtFrag 2 3 ((s.udp .client).datagrams.getD 1 ⟨0, 0, 0, [], 0⟩),
     fun s => .pollUdp .host dtData 2 5 ((s.udp .client).datagrams.getD 3 ⟨0, 0, 0, [], 0⟩),
     fun s => .pollUdp .host dtData 2 4 ((s.udp .client).datagrams.getD 2 ⟨0, 0, 0, [], 0⟩)]

theorem latest_wins_overtaken : ∃ s, overtaken = some s ∧
    (s.udp .host).out =
      [⟨2, List.replicate 1200 7, 0⟩, ⟨2, [0, 0, 0, 0, 7, 7, 7, 7, 2], 2⟩] ∧
    ((s.udp .host).out.filter fun o => o.channel = 2 ∧ windowKey 2 o.msg = 0x7070707).Pairwise
      fun o o' => o.send < o'.send := by
  refine exists_some (fun s => (s.udp .host).out =
    [⟨2, List.replicate 1200 7, 0⟩, ⟨2, [0, 0, 0, 0, 7, 7, 7, 7, 2], 2⟩])
    (by decide +kernel) fun s hs hout => ?_
  exact ⟨hout, latest_wins .host 2 (by decide)
    (guardedRun_play (fun _ _ h => of_decide_eq_true h) hs) 0x7070707⟩

/-- A message in two fragments, which arrive twice. -/
def replayed : Option Session :=
  play (exec .plain) (fun _ _ => true) (init (fun _ => 1200) [])
    [fun _ => .send .client 2 (List.replicate 1200 7) 2,
     fun s => .pollUdp .host dtFrag 2 2 ((s.udp .client).datagrams.getD 0 ⟨0, 0, 0, [], 0⟩),
     fun s => .pollUdp .host dtFrag 2 3 ((s.udp .client).datagrams.getD 1 ⟨0, 0, 0, [], 0⟩),
     fun s => .pollUdp .host dtFrag 2 2 ((s.udp .client).datagrams.getD 0 ⟨0, 0, 0, [], 0⟩),
     fun s => .pollUdp .host dtFrag 2 3 ((s.udp .client).datagrams.getD 1 ⟨0, 0, 0, [], 0⟩)]

/-- Fragments that are delivered again output their message again. -/
theorem fragments_repeat : ∃ s, replayed = some s ∧
    GuardedRun (exec .plain) (fun _ _ => True) (init (fun _ => 1200) []) s ∧
    (s.udp .client).datagrams.length = 2 ∧
    (s.udp .host).out = [⟨2, List.replicate 1200 7, 0⟩, ⟨2, List.replicate 1200 7, 0⟩] ∧
    ¬ ((s.udp .host).out.filter fun o => o.channel = 2 ∧
      windowKey 2 o.msg = windowKey 2 (List.replicate 1200 7)).Pairwise
        fun o o' => o.send < o'.send := by
  refine exists_some (fun s => (s.udp .client).datagrams.length = 2 ∧ (s.udp .host).out =
    [⟨2, List.replicate 1200 7, 0⟩, ⟨2, List.replicate 1200 7, 0⟩]) (by decide +kernel) ?_
  rintro s hs ⟨hlen, hout⟩
  refine ⟨guardedRun_play (fun _ _ _ => trivial) hs, hlen, hout, ?_⟩
  rw [hout]
  decide +kernel

end Session

end Telesthete.Spatial
