import Telesthete.Spatial.Conn
import Mathlib.Data.List.Nodup
import Telesthete.Lib.NumberedLog

/-!
# The nonces of datagrams

A datagram is sealed under `(type, channel, seq)`, and all three types draw `seq` from
one counter. `Numbered` says what that gives in every run: the sequence numbers of
the datagrams are those of an increasing list of draws, with the draws that the
fragment path throws away left out. The counter is a `u32` that wraps, so the numbers
are pairwise different as long as no more than `2 ^ 32` were drawn
(`Session.nonces_nodup`), and no longer: one more message on the same channel repeats
the first nonce (`Session.nonces_repeat`).
-/

namespace Telesthete.Spatial

open Telesthete.Lib List Option

/-- What the nonce of a datagram is made of. -/
def Sealed.nonce (d : Sealed) : UInt8 × UInt8 × UInt32 := (d.dtype, d.channel, d.seq)

namespace UdpHalf

variable {c : UdpHalf} {draws : List Nat}

/-- The datagrams carry the numbers of these draws, in order. -/
structure Numbered (c : UdpHalf) (draws : List Nat) : Prop where
  seqTx : c.seqTx = UInt32.ofNat (1 + c.drawn)
  sorted : draws.Pairwise (· < ·)
  lt : ∀ i ∈ draws, i < c.drawn
  seqs : c.datagrams.map Sealed.seq = draws.map fun i => UInt32.ofNat (1 + i)

theorem Numbered.draw (h : Numbered c draws) : Numbered c.draw draws where
  seqTx := by
    simp only [UdpHalf.draw, h.seqTx, ← Nat.add_assoc, UInt32.ofNat_add]
    rfl
  sorted := h.sorted
  lt i hi := Nat.lt_succ_of_lt (h.lt i hi)
  seqs := h.seqs

theorem Numbered.emit (h : Numbered c draws) (dtype channel : UInt8) (body : Bytes) :
    Numbered (c.emit dtype channel body) (draws ++ [c.drawn]) where
  seqTx := h.draw.seqTx
  sorted := by
    refine pairwise_append.mpr ⟨h.sorted, pairwise_singleton _ _, ?_⟩
    intro i hi j hj
    rw [mem_singleton.mp hj]
    exact h.lt i hi
  lt := forall_mem_snoc h.draw.lt (Nat.lt_succ_self _)
  seqs := by
    simp only [UdpHalf.emit, map_append, h.seqs, map_cons, map_nil, h.seqTx]

/-- What every fragment keeps, the loop over them keeps. -/
theorem emitFrags_invariant {P : UdpHalf → Prop} {channel : UInt8} {k : UInt32}
    {n : UInt16}
    (hstep : ∀ c idx slice, P c → P (c.emit dtFrag channel (fragBody k idx n slice)))
    (slices : List Bytes) : ∀ (i : Nat) (c : UdpHalf), P c →
      P (emitFrags channel k n i slices c) := by
  induction slices with
  | nil => exact fun i c h => h
  | cons slice rest ih => exact fun i c h => ih (i + 1) _ (hstep c _ _ h)

theorem Numbered.sendUdp (h : Numbered c draws) (channel : UInt8) (msg : Bytes) (taken : Nat) :
    ∃ draws', Numbered (c.sendUdp channel msg taken) draws' := by
  simp only [UdpHalf.sendUdp]
  split
  · obtain ⟨hseq, hsorted, hlt, hseqs⟩ := h.emit dtData channel msg
    exact ⟨_, hseq, hsorted, hlt, hseqs⟩
  · have hid : Numbered { c.draw with msgIdTx := c.draw.msgIdTx + 1 } draws :=
      ⟨h.draw.seqTx, h.sorted, h.draw.lt, h.seqs⟩
    have hemit : ∀ c body, (∃ draws, Numbered c draws) →
        ∃ draws, Numbered (c.emit dtFrag channel body) draws := by
      rintro c body ⟨draws, hc⟩
      exact ⟨_, hc.emit dtFrag channel body⟩
    obtain ⟨draws', hseq, hsorted, hlt, hseqs⟩ := emitFrags_invariant
      (k := c.draw.msgIdTx) (n := UInt16.ofNat (fragment msg c.mtu).length)
      (fun c _ _ => hemit c _)
      ((fragment msg c.mtu).take taken) 0 _ ⟨draws, hid⟩
    exact ⟨draws', hseq, hsorted, hlt, hseqs⟩

/-- The numbers of at most `2 ^ 32` draws are different. -/
theorem Numbered.nodup (h : Numbered c draws) (hdrawn : c.drawn ≤ 2 ^ 32) :
    (c.datagrams.map Sealed.nonce).Nodup := by
  have hseqs : (c.datagrams.map Sealed.seq).Nodup := by
    rw [h.seqs]
    have hdraws : draws.Nodup := h.sorted.imp fun hlt => Nat.ne_of_lt hlt
    refine hdraws.map_on ?_
    intro i hi j hj hij
    have hi' := h.lt i hi
    have hj' := h.lt j hj
    have hmod := congrArg UInt32.toNat hij
    simp only [UInt32.toNat_ofNat'] at hmod
    omega
  have hmap : c.datagrams.map Sealed.seq =
      (c.datagrams.map Sealed.nonce).map fun n => n.2.2 := by
    rw [List.map_map]
    rfl
  rw [hmap] at hseqs
  exact hseqs.of_map _

theorem drawn_emitFrags {channel : UInt8} {msgId : UInt32} {count : UInt16} (slices : List Bytes) :
    ∀ (i : Nat) (c : UdpHalf),
      (emitFrags channel msgId count i slices c).drawn = c.drawn + slices.length := by
  induction slices with
  | nil => exact fun i c => rfl
  | cons slice rest ih =>
    intro i c
    rw [emitFrags, ih, length_cons]
    simp only [emit, draw]
    omega

/-- The sequence numbers that a message takes. -/
def cost (mtu : Nat) (msg : Bytes) (taken : Nat) : Nat :=
  if (fragment msg mtu).length = 1 then 1 else 1 + min taken (fragment msg mtu).length

theorem drawn_sendUdp (c : UdpHalf) (channel : UInt8) (msg : Bytes) (taken : Nat) :
    (c.sendUdp channel msg taken).drawn = c.drawn + cost c.mtu msg taken := by
  simp only [sendUdp, cost]
  split
  · rfl
  · rw [drawn_emitFrags, length_take]
    simp only [draw]
    omega

end UdpHalf

namespace Session

variable {w : World} {s s' : Session} {x : Role}

/-- The sequence numbers that an event makes `x` draw. -/
def draws (x : Role) (s : Session) : Event → Nat
  | .sendUdp y _ msg taken => if y = x then UdpHalf.cost (s.udp x).mtu msg taken else 0
  | .sendUdpHello y => if y = x then 1 else 0
  | _ => 0

/-- What an event can do to the datagrams of `x`: nothing, a message or the hello sent, or a
datagram read. -/
theorem exec_udp {e : Event} (he : exec w s e = some s') (x : Role) :
    (s'.udp x = s.udp x ∧ draws x s e = 0) ∨
    (∃ channel msg taken, e = .sendUdp x channel msg taken ∧
      s'.udp x = (s.udp x).sendUdp channel msg taken) ∨
    (e = .sendUdpHello x ∧ s'.udp x = (s.udp x).sendUdpHello) ∨
    (∃ dtype channel seq ct, e = .pollUdp x dtype channel seq ct ∧
      ct ∈ (s.udp x.other).datagrams ∧
      s'.udp x = (s.udp x).pollUdp dtype channel seq ct) := by
  cases e with
  | sendTcp y channel msg =>
    obtain ⟨-, heq⟩ := ite_none_right_eq_some.mp he
    exact .inl ⟨by rw [← Option.some.inj heq]; rfl, rfl⟩
  | ping y =>
    obtain ⟨-, heq⟩ := ite_none_right_eq_some.mp he
    exact .inl ⟨by rw [← Option.some.inj heq]; rfl, rfl⟩
  | pollTcp y bytes closed =>
    obtain ⟨-, heq⟩ := ite_none_right_eq_some.mp he
    exact .inl ⟨by rw [← Option.some.inj heq]; rfl, rfl⟩
  | sendUdp y channel msg taken =>
    cases he
    rcases Role.eq_or_eq_other x y with rfl | rfl
    · exact .inr (.inl ⟨channel, msg, taken, rfl, by simp [setUdp]⟩)
    · exact .inl ⟨by simp [setUdp], by simp [draws]⟩
  | sendUdpHello y =>
    cases he
    rcases Role.eq_or_eq_other x y with rfl | rfl
    · exact .inr (.inr (.inl ⟨rfl, by simp [setUdp]⟩))
    · exact .inl ⟨by simp [setUdp], by simp [draws]⟩
  | pollUdp y dtype channel seq ct =>
    obtain ⟨hmem, heq⟩ := ite_none_right_eq_some.mp he
    cases heq
    rcases Role.eq_or_eq_other x y with rfl | rfl
    · exact .inr (.inr (.inr ⟨dtype, channel, seq, ct, rfl, hmem, by simp [setUdp]⟩))
    · exact .inl ⟨by simp [setUdp], rfl⟩

/-- Reading a datagram sends nothing. -/
theorem pollUdp_sender (c : UdpHalf) (dtype channel : UInt8) (seq : UInt32) (ct : Sealed) :
    (c.pollUdp dtype channel seq ct).seqTx = c.seqTx ∧
    (c.pollUdp dtype channel seq ct).drawn = c.drawn ∧
    (c.pollUdp dtype channel seq ct).mtu = c.mtu ∧
    (c.pollUdp dtype channel seq ct).datagrams = c.datagrams ∧
    (c.pollUdp dtype channel seq ct).sends = c.sends := by
  simp only [UdpHalf.pollUdp]
  split <;> exact ⟨rfl, rfl, rfl, rfl, rfl⟩

theorem exec_numbered {e : Event} {idx : List Nat} (h : (s.udp x).Numbered idx)
    (he : exec w s e = some s') : ∃ idx', (s'.udp x).Numbered idx' := by
  rcases exec_udp he x with ⟨hsame, -⟩ | ⟨channel, msg, taken, -, hsent⟩ | ⟨-, hsent⟩ |
    ⟨dtype, channel, seq, ct, -, -, hread⟩
  · exact ⟨idx, by rw [hsame]; exact h⟩
  · rw [hsent]
    exact h.sendUdp channel msg taken
  · rw [hsent]
    exact ⟨_, h.emit dtHello 0 _⟩
  · obtain ⟨hseq, hdrawn, -, hdata, -⟩ := pollUdp_sender (s.udp x) dtype channel seq ct
    rw [hread]
    exact ⟨idx, by rw [hseq, hdrawn]; exact h.seqTx, h.sorted, by rw [hdrawn]; exact h.lt,
      by rw [hdata]; exact h.seqs⟩

theorem exec_drawn {e : Event} (he : exec w s e = some s') :
    (s'.udp x).drawn = (s.udp x).drawn + draws x s e := by
  rcases exec_udp he x with ⟨hsame, hzero⟩ | ⟨channel, msg, taken, rfl, hsent⟩ | ⟨rfl, hsent⟩ |
    ⟨dtype, channel, seq, ct, rfl, -, hread⟩
  · rw [hsame, hzero]
    rfl
  · rw [hsent, UdpHalf.drawn_sendUdp]
    simp [draws]
  · rw [hsent]
    simp [draws, UdpHalf.sendUdpHello, UdpHalf.emit, UdpHalf.draw]
  · rw [hread, (pollUdp_sender _ dtype channel seq ct).2.1]
    rfl

theorem numbered_init (mtu : Role → Nat) (sessionId : Bytes) (x : Role) :
    ((init mtu sessionId).udp x).Numbered [] :=
  ⟨rfl, List.Pairwise.nil, by simp, rfl⟩

/-- In every run in which an end never draws more than `2 ^ 32` sequence numbers, it seals no two
datagrams under the same nonce. -/
theorem nonces_nodup {mtu : Role → Nat} {sessionId : Bytes} (x : Role)
    (hrun : GuardedRun (exec w) (fun s e => (s.udp x).drawn + draws x s e ≤ 2 ^ 32)
      (init mtu sessionId) s) :
    ((s.udp x).datagrams.map Sealed.nonce).Nodup := by
  have hinv : (∃ idx, (s.udp x).Numbered idx) ∧ (s.udp x).drawn ≤ 2 ^ 32 := by
    refine hrun.invariant (P := fun s => (∃ idx, (s.udp x).Numbered idx) ∧
      (s.udp x).drawn ≤ 2 ^ 32) ⟨⟨_, numbered_init mtu sessionId x⟩, Nat.zero_le _⟩ ?_
    rintro s e s' ⟨⟨idx, h⟩, -⟩ hok he
    exact ⟨exec_numbered h he, by rw [exec_drawn he]; exact hok⟩
  obtain ⟨⟨idx, h⟩, hdrawn⟩ := hinv
  exact h.nodup hdrawn

/-- The hello, a message in two fragments and one in a single datagram. -/
def mixed : Option Session :=
  play (exec .plain) (fun s e => (s.udp .client).drawn + draws .client s e ≤ 2 ^ 32)
    (init (fun _ => 32) [])
    [fun _ => .sendUdpHello .client, fun _ => .send .client 2 (List.replicate 12 7) 2,
     fun _ => .send .client 200 [1] 0]

theorem nonces_nodup_mixed : ∃ s, mixed = some s ∧ (s.udp .client).datagrams.length = 4 ∧
    (s.udp .client).drawn = 5 ∧ ((s.udp .client).datagrams.map Sealed.nonce).Nodup := by
  refine exists_some (fun s => (s.udp .client).datagrams.length = 4 ∧ (s.udp .client).drawn = 5)
    (by decide +kernel) ?_
  rintro s hs ⟨hlen, hdrawn⟩
  exact ⟨hlen, hdrawn,
    nonces_nodup .client (guardedRun_play (fun _ _ h => of_decide_eq_true h) hs)⟩

/-- The client has sent `n` empty messages on the audio channel. -/
def audio : Nat → Session
  | 0 => init (fun _ => 1200) []
  | n + 1 => (audio n).setUdp .client (((audio n).udp .client).sendUdp 200 [] 0)

theorem audio_run (n : Nat) :
    GuardedRun (exec .plain) (fun _ _ => True) (init (fun _ => 1200) []) (audio n) := by
  induction n with
  | zero => exact .refl
  | succ n ih => exact ih.tail ⟨.sendUdp .client 200 [] 0, trivial, rfl⟩

/-- The counter is the number of messages sent, and wraps with it. -/
theorem audio_udp (n : Nat) :
    ((audio n).udp .client).mtu = 1200 ∧
    ((audio n).udp .client).seqTx = UInt32.ofNat (1 + n) ∧
    ((audio n).udp .client).datagrams.map Sealed.nonce =
      (List.range n).map fun i => (dtData, 200, UInt32.ofNat (1 + i)) := by
  induction n with
  | zero => exact ⟨rfl, rfl, rfl⟩
  | succ n ih =>
    obtain ⟨hmtu, hseq, hnonces⟩ := ih
    have hsend : ((audio (n + 1)).udp .client) =
        { ((audio n).udp .client).emit dtData 200 [] with
          sends := ((audio n).udp .client).sends + 1 } := by
      rfl
    rw [hsend]
    refine ⟨hmtu, ?_, ?_⟩
    · simp only [UdpHalf.emit, UdpHalf.draw, hseq, ← Nat.add_assoc, UInt32.ofNat_add]
      rfl
    · rw [range_succ, map_append, ← hnonces]
      simp only [UdpHalf.emit, UdpHalf.draw, map_append, map_cons, map_nil,
        Sealed.nonce, hseq]

/-- After `2 ^ 32 + 1` messages on one channel, the last nonce is the first one again. -/
theorem nonces_repeat :
    GuardedRun (exec .plain) (fun _ _ => True) (init (fun _ => 1200) []) (audio (2 ^ 32 + 1)) ∧
    ¬ (((audio (2 ^ 32 + 1)).udp .client).datagrams.map Sealed.nonce).Nodup := by
  refine ⟨audio_run _, ?_⟩
  rw [(audio_udp _).2.2]
  intro hnodup
  have hwrap : UInt32.ofNat (1 + 2 ^ 32) = UInt32.ofNat (1 + 0) := rfl
  have hinj := inj_on_of_nodup_map hnodup (mem_range.mpr (by omega : 0 < 2 ^ 32 + 1))
    (mem_range.mpr (by omega : 2 ^ 32 < 2 ^ 32 + 1)) (by rw [hwrap])
  omega

end Session

end Telesthete.Spatial
