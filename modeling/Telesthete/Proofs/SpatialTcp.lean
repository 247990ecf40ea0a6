import Telesthete.Spatial.Conn
import Mathlib.Data.List.Infix

/-!
# What the stream of a session delivers

Records are opened under a counter that goes up only when a record opened. Whatever
an attacker does to the bytes, the record that opens at counter `n` is therefore the
`n`-th the peer sealed, and what has been output are the messages of the first
`rxCounter` records: a prefix of the messages sent, with the keepalive records left
out on both sides. This needs nothing of the bytes (`Received`).

If the bytes are the ones that were written, in any pieces, the buffer always starts
at a record boundary of the peer's stream (`Synced`), and a poll leaves no complete
record behind. When everything has arrived, nothing is left to output.
-/

namespace Telesthete.Spatial

open Telesthete.Lib List Option

variable {cipher : RecordCipher}
variable {channel : UInt8} {msg ct frame tail rest : Bytes} {peer' : List Bytes}

/-! ## Messages in a list of plaintexts -/

/-- The messages for the application in what an end has sealed. -/
def messages (plaintexts : List Bytes) : List (UInt8 × Bytes) :=
  (plaintexts.filterMap parseTcp).filter fun m => m.1 ≠ chKeepalive

@[simp] theorem messages_append (ps qs : List Bytes) :
    messages (ps ++ qs) = messages ps ++ messages qs := by
  simp [messages]

theorem messages_frameTcp (h : msg.length < 2 ^ 32) :
    messages [frameTcp channel msg] = if channel = chKeepalive then [] else [(channel, msg)] := by
  by_cases hc : channel = chKeepalive
  · simp [messages, parseTcp_frameTcp h, hc]
  · simp [messages, parseTcp_frameTcp h, hc]

/-- A keepalive record carries no message. -/
theorem messages_keepalive (b : UInt8) : messages [frameTcp chKeepalive [b]] = [] := by
  rw [messages_frameTcp (by simp), if_pos rfl]

/-! ## One end -/

/-- What an end has sealed are the messages it was given, and records a length field can hold. -/
structure Sound (c : TcpHalf) : Prop where
  sent : c.sent = messages c.plaintexts
  small : ∀ p ∈ c.plaintexts, p.length + 16 < 2 ^ 32

/-- What an end has output are the messages of the records it has opened. -/
structure Received (peer : List Bytes) (c : TcpHalf) : Prop where
  out : c.out = messages (peer.take c.rxCounter)
  le : c.rxCounter ≤ peer.length

/-- Nothing is taken back, and reading goes on where it was. -/
structure Sends (c c' : TcpHalf) : Prop where
  plaintexts : c.plaintexts <+: c'.plaintexts
  rxCounter : c'.rxCounter = c.rxCounter
  rxBuf : c'.rxBuf = c.rxBuf
  out : c'.out = c.out
  arrived : c'.arrived = c.arrived

variable {env : TcpEnv} {c c' : TcpHalf} {peer : List Bytes}

theorem sends_sendTcp (env : TcpEnv) (c : TcpHalf) (channel : UInt8) (msg : Bytes) :
    Sends c (c.sendTcp env channel msg) :=
  ⟨prefix_append _ _, rfl, rfl, rfl, rfl⟩

theorem Sends.received (h : Sends c c') (hr : Received peer c) : Received peer c' :=
  ⟨by rw [h.out, h.rxCounter, hr.out], by rw [h.rxCounter]; exact hr.le⟩

/-- More plaintexts of the peer change nothing about what was received. -/
theorem Received.mono (h : Received peer c) (hp : peer <+: peer') :
    Received peer' c := by
  obtain ⟨ext, rfl⟩ := hp
  refine ⟨?_, le_trans h.le (by simp)⟩
  rw [take_append_of_le_length h.le]
  exact h.out

theorem Sound.sendTcp (h : Sound c) (hc : channel ≠ chKeepalive) (hmsg : msg.length < 2 ^ 32 - 21) :
    Sound ((c.note (channel, msg)).sendTcp env channel msg) := by
  refine ⟨?_, ?_⟩
  · simp only [TcpHalf.sendTcp, TcpHalf.note, messages_append,
      messages_frameTcp (show msg.length < 2 ^ 32 by omega), if_neg hc, h.sent]
  · intro p hp
    rcases mem_append.mp hp with hp | hp
    · exact h.small p hp
    · rw [mem_singleton.mp hp, length_frameTcp]
      omega

theorem Sound.keepalive (h : Sound c) (b : UInt8) : Sound (c.sendTcp env chKeepalive [b]) := by
  refine ⟨?_, ?_⟩
  · simp only [TcpHalf.sendTcp, messages_append, messages_keepalive, append_nil]
    exact h.sent
  · intro p hp
    rcases mem_append.mp hp with hp | hp
    · exact h.small p hp
    · rw [mem_singleton.mp hp, length_frameTcp]
      simp

theorem onCtrl_cases (c : TcpHalf) (msg : Bytes) :
    c.onCtrl env msg = c ∨ c.onCtrl env msg = c.sendTcp env chKeepalive [dtPong] := by
  simp only [TcpHalf.onCtrl]
  split
  · exact .inr rfl
  · exact .inl rfl

/-- A record that opened adds its message to the output, and at most a PONG to the stream. -/
theorem onFrame_cases (env : TcpEnv) (c : TcpHalf) (frame : Bytes) :
    c.onFrame env frame = { c with out := c.out ++ messages [frame] } ∨
    (messages [frame] = [] ∧ c.onFrame env frame = c.sendTcp env chKeepalive [dtPong]) := by
  cases hp : parseTcp frame with
  | none =>
    left
    simp [TcpHalf.onFrame, messages, hp]
  | some m =>
    obtain ⟨channel, msg⟩ := m
    by_cases hc : channel = chKeepalive
    · subst hc
      have hnil : messages [frame] = [] := by simp [messages, hp]
      have hframe : c.onFrame env frame = c.onCtrl env msg := by
        simp only [TcpHalf.onFrame, hp, if_true]
      rw [hframe]
      rcases onCtrl_cases c msg with heq | heq
      · exact .inl (by rw [heq, hnil, append_nil])
      · exact .inr ⟨hnil, heq⟩
    · left
      simp [TcpHalf.onFrame, messages, hp, hc]

theorem onFrame_out (c : TcpHalf) (frame : Bytes) :
    (c.onFrame env frame).out = c.out ++ messages [frame] := by
  rcases onFrame_cases env c frame with h | ⟨hnil, h⟩
  · rw [h]
  · rw [h, hnil, append_nil]
    rfl

/-- Apart from the output, a record that opened is a send or nothing. -/
theorem onFrame_rest (env : TcpEnv) (c : TcpHalf) (frame : Bytes) :
    c.plaintexts <+: (c.onFrame env frame).plaintexts ∧
    (c.onFrame env frame).rxCounter = c.rxCounter ∧
    (c.onFrame env frame).rxBuf = c.rxBuf ∧
    (c.onFrame env frame).arrived = c.arrived ∧
    (Sound c → Sound (c.onFrame env frame)) := by
  rcases onFrame_cases env c frame with h | ⟨-, h⟩
  · rw [h]
    exact ⟨prefix_rfl, rfl, rfl, rfl, fun hs => ⟨hs.sent, hs.small⟩⟩
  · rw [h]
    have hs := sends_sendTcp env c chKeepalive [dtPong]
    exact ⟨hs.plaintexts, hs.rxCounter, hs.rxBuf, hs.arrived, fun hc => hc.keepalive _⟩

/-- The record that opens is the next one the peer sealed. -/
theorem openRecord_some {n : Nat} (h : openRecord cipher peer n ct = some frame) :
    peer[n]? = some frame ∧ cipher.enc n frame = ct := by
  obtain ⟨hget, henc⟩ := filter_eq_some_iff.mp h
  exact ⟨hget, of_decide_eq_true henc⟩

theorem Received.next (h : Received peer c) (hget : peer[c.rxCounter]? = some frame) :
    c.out ++ messages [frame] = messages (peer.take (c.rxCounter + 1)) ∧
      c.rxCounter + 1 ≤ peer.length := by
  obtain ⟨hlt, hval⟩ := List.getElem?_eq_some_iff.mp hget
  refine ⟨?_, hlt⟩
  rw [take_add_one, hget, messages_append, ← h.out]
  rfl

/-- Taking records keeps what an end knows about itself and the peer. -/
theorem drain_received (env : TcpEnv) (fuel : Nat) :
    ∀ c, Received peer c → Received peer (c.drain env peer fuel) ∧
      c.plaintexts <+: (c.drain env peer fuel).plaintexts ∧
      (Sound c → Sound (c.drain env peer fuel)) := by
  induction fuel with
  | zero => exact fun c h => ⟨h, prefix_rfl, id⟩
  | succ fuel ih =>
    intro c h
    cases hnext : nextRecord c.rxBuf with
    | none =>
      simp only [TcpHalf.drain, hnext]
      exact ⟨h, prefix_rfl, id⟩
    | some r =>
      obtain ⟨ct, rest⟩ := r
      cases hopen : openRecord env.rx peer c.rxCounter ct with
      | none =>
        simp only [TcpHalf.drain, hnext, hopen]
        exact ⟨⟨h.out, h.le⟩, prefix_rfl, fun hs => ⟨hs.sent, hs.small⟩⟩
      | some frame =>
        simp only [TcpHalf.drain, hnext, hopen]
        obtain ⟨hout, hle⟩ := h.next (openRecord_some hopen).1
        obtain ⟨hplain, hrx, -, -, hsound⟩ := onFrame_rest env
          { c with rxBuf := rest, rxCounter := c.rxCounter + 1 } frame
        have hreceived : Received peer
            ({ c with rxBuf := rest, rxCounter := c.rxCounter + 1 }.onFrame env frame) :=
          ⟨by rw [onFrame_out, hrx]; exact hout, by rw [hrx]; exact hle⟩
        obtain ⟨hr, hp, hs⟩ := ih _ hreceived
        exact ⟨hr, hplain.trans hp, fun hc => hs (hsound ⟨hc.sent, hc.small⟩)⟩

theorem pollTcp_received (env : TcpEnv) (h : Received peer c) (bytes : Bytes) (closed : Bool) :
    Received peer (c.pollTcp env peer bytes closed) ∧
      c.plaintexts <+: (c.pollTcp env peer bytes closed).plaintexts ∧
      (Sound c → Sound (c.pollTcp env peer bytes closed)) := by
  obtain ⟨hr, hp, hs⟩ := drain_received env (c.read bytes closed).rxBuf.length
    (c.read bytes closed) ⟨h.out, h.le⟩
  exact ⟨hr, hp, fun hc => hs ⟨hc.sent, hc.small⟩⟩

/-! ## Bytes that arrive as they were written -/

/-- The stream of an end that sealed `plaintexts` from counter `n` on. -/
def records (cipher : RecordCipher) : Nat → List Bytes → Bytes
  | _, [] => []
  | n, p :: ps => record (cipher.enc n p) ++ records cipher (n + 1) ps

theorem records_append (ps qs : List Bytes) : ∀ n,
    records cipher n (ps ++ qs) = records cipher n ps ++ records cipher (n + ps.length) qs := by
  induction ps with
  | nil => simp [records]
  | cons p ps ih =>
    intro n
    rw [cons_append, records, records, ih, append_assoc, length_cons,
      Nat.add_assoc, Nat.add_comm 1]

/-- A record at the front of what was written is taken as it is. -/
theorem nextRecord_isPrefix {buf ct ct' rest tail : Bytes} (hct : ct'.length < 2 ^ 32)
    (hbuf : buf <+: record ct' ++ tail) (h : nextRecord buf = some (ct, rest)) :
    ct = ct' ∧ buf = record ct' ++ rest := by
  simp only [nextRecord] at h
  split at h
  · exact absurd h (by simp)
  · next h4 =>
    have htake4 : buf.take 4 = toLe 4 ct'.length := by
      rw [prefix_iff_eq_take.mp hbuf, take_take, Nat.min_eq_left (by omega), record,
        append_assoc, take_left' (length_toLe 4 _)]
    have hlen : ofLe (buf.take 4) = ct'.length := by
      rw [htake4, ofLe_toLe (by omega)]
    rw [hlen] at h
    split at h
    · exact absurd h (by simp)
    · next hfull =>
      have htake : buf.take (4 + ct'.length) = record ct' := by
        rw [prefix_iff_eq_take.mp hbuf, take_take, Nat.min_eq_left (by omega)]
        exact take_left' (by simp [record])
      obtain ⟨hct', hrest⟩ := Prod.mk.inj (Option.some.inj h)
      have hmid : (buf.drop 4).take ct'.length = ct' := by
        rw [take_drop, htake, record, drop_left' (length_toLe 4 _)]
      exact ⟨by rw [← hct', hmid], by rw [← hrest, ← htake, take_append_drop]⟩

theorem nextRecord_record (hct : ct.length < 2 ^ 32) :
    nextRecord (record ct ++ tail) = some (ct, tail) := by
  have hlen : (record ct ++ tail).length = 4 + ct.length + tail.length := by
    simp [record]
    omega
  have h4 : ofLe ((record ct ++ tail).take 4) = ct.length := by
    rw [record, append_assoc, take_left' (length_toLe 4 _), ofLe_toLe (by omega)]
  have hmid : ((record ct ++ tail).drop 4).take ct.length = ct := by
    rw [record, append_assoc, drop_left' (length_toLe 4 _), take_left]
  have hrest : (record ct ++ tail).drop (4 + ct.length) = tail :=
    drop_left' (by simp [record])
  simp only [nextRecord, h4, hmid, hrest]
  rw [if_neg (by omega), if_neg (by omega)]

/-- The buffer starts where the records that were opened end. -/
structure Synced (cipher : RecordCipher) (peer : List Bytes) (c : TcpHalf) : Prop where
  arrived : c.arrived = records cipher 0 (peer.take c.rxCounter) ++ c.rxBuf
  isPrefix : c.arrived <+: records cipher 0 peer
  le : c.rxCounter ≤ peer.length

theorem Synced.rxBuf_isPrefix (h : Synced cipher peer c) :
    c.rxBuf <+: records cipher c.rxCounter (peer.drop c.rxCounter) := by
  have hall := h.isPrefix
  rw [h.arrived, ← take_append_drop c.rxCounter peer, records_append, Nat.zero_add,
    take_append_drop, length_take, Nat.min_eq_left h.le] at hall
  exact (prefix_append_right_inj _).mp hall

/-- A complete record in the buffer is the next one, and it opens. -/
theorem Synced.next (h : Synced env.rx peer c)
    (hsmall : ∀ p ∈ peer, p.length + 16 < 2 ^ 32) (hnext : nextRecord c.rxBuf = some (ct, rest)) :
    ∃ frame, openRecord env.rx peer c.rxCounter ct = some frame ∧
      Synced env.rx peer { c with rxBuf := rest, rxCounter := c.rxCounter + 1 } := by
  have hbuf := h.rxBuf_isPrefix
  rcases lt_or_ge c.rxCounter peer.length with hlt | hge
  · rw [drop_eq_getElem_cons hlt, records] at hbuf
    have hp := hsmall peer[c.rxCounter] (getElem_mem hlt)
    obtain ⟨hct, hrest⟩ := nextRecord_isPrefix (by rw [env.rx.length_enc]; exact hp) hbuf hnext
    refine ⟨peer[c.rxCounter], ?_, ?_, h.isPrefix, hlt⟩
    · simp [openRecord, getElem?_eq_getElem hlt, hct]
    · rw [h.arrived, hrest, take_succ_eq_append_getElem hlt, records_append, Nat.zero_add,
        length_take, Nat.min_eq_left h.le, append_assoc]
      simp [records]
  · rw [drop_eq_nil_of_le hge, records, prefix_nil] at hbuf
    rw [hbuf] at hnext
    exact absurd hnext (by simp [nextRecord])

/-- Taking records ends at one that is incomplete. -/
theorem drain_synced (hsmall : ∀ p ∈ peer, p.length + 16 < 2 ^ 32) (fuel : Nat) :
    ∀ c, Synced env.rx peer c → c.rxBuf.length ≤ fuel →
      Synced env.rx peer (c.drain env peer fuel) ∧
      nextRecord (c.drain env peer fuel).rxBuf = none := by
  induction fuel with
  | zero =>
    intro c h hfuel
    refine ⟨h, ?_⟩
    rw [TcpHalf.drain, length_eq_zero_iff.mp (Nat.le_zero.mp hfuel)]
    simp [nextRecord]
  | succ fuel ih =>
    intro c h hfuel
    cases hnext : nextRecord c.rxBuf with
    | none =>
      simp only [TcpHalf.drain, hnext]
      exact ⟨h, trivial⟩
    | some r =>
      obtain ⟨ct, rest⟩ := r
      obtain ⟨frame, hopen, hsync⟩ := h.next hsmall hnext
      simp only [TcpHalf.drain, hnext, hopen]
      obtain ⟨-, hrx, hbuf, harr, -⟩ := onFrame_rest env
        { c with rxBuf := rest, rxCounter := c.rxCounter + 1 } frame
      have hshort : rest.length < c.rxBuf.length := by
        simp only [nextRecord] at hnext
        split at hnext
        · exact absurd hnext (by simp)
        · split at hnext
          · exact absurd hnext (by simp)
          · obtain ⟨-, hrest⟩ := Prod.mk.inj (Option.some.inj hnext)
            rw [← hrest, length_drop]
            omega
      refine ih _ ⟨?_, ?_, ?_⟩ ?_
      · rw [harr, hrx, hbuf]
        exact hsync.arrived
      · rw [harr]
        exact hsync.isPrefix
      · rw [hrx]
        exact hsync.le
      · rw [hbuf]
        show rest.length ≤ fuel
        omega

/-- The next bytes of the stream arrive. -/
theorem pollTcp_synced (env : TcpEnv)
    (hsmall : ∀ p ∈ peer, p.length + 16 < 2 ^ 32) (h : Synced env.rx peer c)
    {bytes : Bytes} (hbytes : c.arrived ++ bytes <+: records env.rx 0 peer) (closed : Bool) :
    Synced env.rx peer (c.pollTcp env peer bytes closed) ∧
      nextRecord (c.pollTcp env peer bytes closed).rxBuf = none := by
  have hread : Synced env.rx peer (c.read bytes closed) := by
    refine ⟨?_, hbytes, h.le⟩
    simp only [TcpHalf.read, h.arrived, append_assoc]
  exact drain_synced hsmall _ _ hread (le_rfl)

theorem Synced.mono (h : Synced cipher peer c) (hp : peer <+: peer') : Synced cipher peer' c := by
  obtain ⟨ext, rfl⟩ := hp
  refine ⟨?_, ?_, le_trans h.le (by simp)⟩
  · rw [take_append_of_le_length h.le]
    exact h.arrived
  · rw [records_append]
    exact h.isPrefix.trans (prefix_append _ _)

theorem Synced.sends (h : Synced cipher peer c) (hs : Sends c c') :
    Synced cipher peer c' :=
  ⟨by rw [hs.arrived, hs.rxCounter, hs.rxBuf]; exact h.arrived, by rw [hs.arrived]; exact h.isPrefix,
    by rw [hs.rxCounter]; exact h.le⟩

/-- Everything has arrived and no complete record is left: every record was opened. -/
theorem Synced.all (h : Synced cipher peer c)
    (hsmall : ∀ p ∈ peer, p.length + 16 < 2 ^ 32) (hall : c.arrived = records cipher 0 peer)
    (hnone : nextRecord c.rxBuf = none) : c.rxCounter = peer.length := by
  rcases lt_or_ge c.rxCounter peer.length with hlt | hge
  · have hsplit := h.arrived
    rw [hall] at hsplit
    conv at hsplit => lhs; rw [← take_append_drop c.rxCounter peer]
    rw [records_append, Nat.zero_add, length_take, Nat.min_eq_left h.le,
      append_cancel_left_eq, drop_eq_getElem_cons hlt, records] at hsplit
    have hp := hsmall peer[c.rxCounter] (getElem_mem hlt)
    rw [← hsplit, nextRecord_record (by rw [cipher.length_enc]; exact hp)] at hnone
    exact absurd hnone (by simp)
  · exact le_antisymm h.le hge

/-- What an end has written are the records of what it sealed. -/
def Written (env : TcpEnv) (c : TcpHalf) : Prop := c.wire = records env.tx 0 c.plaintexts

theorem Written.sendTcp (h : Written env c) (hsocket : ∀ k, env.socket k = none)
    (channel : UInt8) (msg : Bytes) : Written env (c.sendTcp env channel msg) := by
  simp only [Written, TcpHalf.sendTcp, hsocket, Option.map_none, Option.getD_none, records_append,
    Nat.zero_add, records, append_nil]
  rw [h]

theorem Written.drain (hsocket : ∀ k, env.socket k = none) (fuel : Nat) :
    ∀ c, Written env c → Written env (c.drain env peer fuel) := by
  induction fuel with
  | zero => exact fun c h => h
  | succ fuel ih =>
    intro c h
    cases hnext : nextRecord c.rxBuf with
    | none =>
      simp only [TcpHalf.drain, hnext]
      exact h
    | some r =>
      obtain ⟨ct, rest⟩ := r
      cases hopen : openRecord env.rx peer c.rxCounter ct with
      | none =>
        simp only [TcpHalf.drain, hnext, hopen]
        exact h
      | some frame =>
        simp only [TcpHalf.drain, hnext, hopen]
        apply ih
        have hc : Written env { c with rxBuf := rest, rxCounter := c.rxCounter + 1 } := h
        rcases onFrame_cases env
          { c with rxBuf := rest, rxCounter := c.rxCounter + 1 } frame with heq | ⟨-, heq⟩
        · rw [heq]
          exact h
        · rw [heq]
          exact hc.sendTcp hsocket _ _

/-! ## The session -/

/-- The application sends on its own channels, and nothing too long for a record. -/
def Ordinary (_ : Session) : Event → Prop
  | .sendTcp _ channel msg => channel ≠ chKeepalive ∧ msg.length < 2 ^ 32 - 21
  | _ => True

/-- What `x` reads from the stream is what comes next of what the other end wrote. -/
def Unmodified (x : Role) (s : Session) : Event → Prop
  | .pollTcp y bytes _ => y = x → (s.tcp x).arrived ++ bytes <+: (s.tcp x.other).wire
  | _ => True

instance decidableOrdinary (s : Session) (e : Event) : Decidable (Ordinary s e) :=
  match e with
  | .sendTcp _ channel msg =>
    inferInstanceAs (Decidable (channel ≠ chKeepalive ∧ msg.length < 2 ^ 32 - 21))
  | .ping _ | .pollTcp _ _ _ | .sendUdp _ _ _ _ | .sendUdpHello _ | .pollUdp _ _ _ _ _ =>
    isTrue trivial

instance decidableUnmodified (x : Role) (s : Session) (e : Event) :
    Decidable (Unmodified x s e) :=
  match e with
  | .pollTcp y bytes _ =>
    inferInstanceAs (Decidable (y = x → (s.tcp x).arrived ++ bytes <+: (s.tcp x.other).wire))
  | .ping _ | .sendTcp _ _ _ | .sendUdp _ _ _ _ | .sendUdpHello _ | .pollUdp _ _ _ _ _ =>
    isTrue trivial

namespace Session

variable {w : World} {s s' : Session} {x : Role}
variable {e : Event}

/-- The two ends agree on what was received. -/
structure Inv (s : Session) : Prop where
  sound : ∀ x, Sound (s.tcp x)
  received : ∀ x, Received (s.tcp x.other).plaintexts (s.tcp x)

@[simp] theorem tcp_setTcp_self : (s.setTcp x c).tcp x = c := by
  simp [setTcp]

@[simp] theorem tcp_setTcp_other : (s.setTcp x c).tcp x.other = s.tcp x.other := by
  simp [setTcp]

theorem Inv.setTcp (h : Inv s) (hsound : Sound c)
    (hreceived : Received (s.tcp x.other).plaintexts c)
    (hgrown : (s.tcp x).plaintexts <+: c.plaintexts) : Inv (s.setTcp x c) where
  sound y := by
    rcases Role.eq_or_eq_other x y with rfl | rfl
    · simpa using hsound
    · simpa using h.sound x.other
  received y := by
    rcases Role.eq_or_eq_other x y with rfl | rfl
    · simpa using hreceived
    · simpa using (h.received x.other).mono (by simpa using hgrown)

/-- What an event can do to the streams: nothing, a record sent, or a poll. -/
theorem exec_cases (he : exec w s e = some s') :
    s'.tcp = s.tcp ∨
    (∃ x channel msg, e = .sendTcp x channel msg ∧
      s' = s.setTcp x (((s.tcp x).note (channel, msg)).sendTcp (w.env x) channel msg)) ∨
    (∃ x, e = .ping x ∧ s' = s.setTcp x ((s.tcp x).sendTcp (w.env x) chKeepalive [dtPing])) ∨
    (∃ x bytes closed, e = .pollTcp x bytes closed ∧
      s' = s.setTcp x
        ((s.tcp x).pollTcp (w.env x) (s.tcp x.other).plaintexts bytes closed)) := by
  cases e with
  | sendTcp x channel msg =>
    obtain ⟨-, heq⟩ := ite_none_right_eq_some.mp he
    exact .inr (.inl ⟨x, channel, msg, rfl, (Option.some.inj heq).symm⟩)
  | ping x =>
    obtain ⟨-, heq⟩ := ite_none_right_eq_some.mp he
    exact .inr (.inr (.inl ⟨x, rfl, (Option.some.inj heq).symm⟩))
  | pollTcp x bytes closed =>
    obtain ⟨-, heq⟩ := ite_none_right_eq_some.mp he
    exact .inr (.inr (.inr ⟨x, bytes, closed, rfl, (Option.some.inj heq).symm⟩))
  | sendUdp x channel msg taken =>
    cases he
    exact .inl rfl
  | sendUdpHello x =>
    cases he
    exact .inl rfl
  | pollUdp x dtype channel seq ct =>
    obtain ⟨-, heq⟩ := ite_none_right_eq_some.mp he
    cases heq
    exact .inl rfl

theorem Inv.exec (h : Inv s) (hok : Ordinary s e) (he : exec w s e = some s') :
    Inv s' := by
  rcases exec_cases he with hsame | ⟨x, channel, msg, rfl, rfl⟩ | ⟨x, rfl, rfl⟩ |
    ⟨x, bytes, closed, rfl, rfl⟩
  · exact ⟨by rw [hsame]; exact h.sound, by rw [hsame]; exact h.received⟩
  · exact h.setTcp ((h.sound x).sendTcp hok.1 hok.2)
      ((sends_sendTcp _ _ channel msg).received ⟨(h.received x).out, (h.received x).le⟩)
      (prefix_append _ _)
  · exact h.setTcp ((h.sound x).keepalive dtPing)
      ((sends_sendTcp _ _ chKeepalive [dtPing]).received (h.received x)) (prefix_append _ _)
  · obtain ⟨hr, hp, hs⟩ := pollTcp_received (w.env x) (h.received x) bytes closed
    exact h.setTcp (hs (h.sound x)) hr hp

theorem inv_init (mtu : Role → Nat) (sessionId : Bytes) : Inv (init mtu sessionId) where
  sound _ := ⟨rfl, by simp [init, TcpHalf.new]⟩
  received _ := ⟨rfl, Nat.le_refl 0⟩

/-- The end `x` has read a part of the other end's stream, up to an incomplete record. -/
structure Faithful (w : World) (x : Role) (s : Session) : Prop where
  inv : Inv s
  written : Written (w.env x.other) (s.tcp x.other)
  synced : Synced (w.cipher x.other) (s.tcp x.other).plaintexts (s.tcp x)
  incomplete : nextRecord (s.tcp x).rxBuf = none

theorem faithful_init (w : World) (x : Role) (mtu : Role → Nat) (sessionId : Bytes) :
    Faithful w x (init mtu sessionId) where
  inv := inv_init mtu sessionId
  written := rfl
  synced := ⟨rfl, prefix_rfl, Nat.le_refl 0⟩
  incomplete := rfl

/-- The end `x` sends something: its reading is not affected. -/
theorem Faithful.sends (h : Faithful w x s) (hinv : Inv (s.setTcp x c))
    (hs : Sends (s.tcp x) c) : Faithful w x (s.setTcp x c) where
  inv := hinv
  written := by simpa using h.written
  synced := by simpa using h.synced.sends hs
  incomplete := by simpa [hs.rxBuf] using h.incomplete

/-- The other end writes more. -/
theorem Faithful.grows (h : Faithful w x s) (hinv : Inv (s.setTcp x.other c))
    (hwritten : Written (w.env x.other) c)
    (hgrown : (s.tcp x.other).plaintexts <+: c.plaintexts) :
    Faithful w x (s.setTcp x.other c) := by
  have hx : (s.setTcp x.other c).tcp x = s.tcp x := by simp [Session.setTcp]
  exact ⟨hinv, by simpa using hwritten, by rw [hx]; simpa using h.synced.mono hgrown,
    by rw [hx]; exact h.incomplete⟩

theorem Faithful.exec (hsocket : ∀ k, w.socket x.other k = none)
    (h : Faithful w x s) (hok : Ordinary s e) (hun : Unmodified x s e)
    (he : exec w s e = some s') : Faithful w x s' := by
  have hinv := h.inv.exec hok he
  rcases exec_cases he with hsame | ⟨y, channel, msg, rfl, rfl⟩ | ⟨y, rfl, rfl⟩ |
    ⟨y, bytes, closed, rfl, rfl⟩
  · exact ⟨hinv, by rw [hsame]; exact h.written, by rw [hsame]; exact h.synced,
      by rw [hsame]; exact h.incomplete⟩
  · rcases Role.eq_or_eq_other x y with rfl | rfl
    · exact h.sends hinv ⟨prefix_append _ _, rfl, rfl, rfl, rfl⟩
    · have hnoted : Written (w.env x.other) ((s.tcp x.other).note (channel, msg)) := h.written
      exact h.grows hinv (hnoted.sendTcp hsocket channel msg) (prefix_append _ _)
  · rcases Role.eq_or_eq_other x y with rfl | rfl
    · exact h.sends hinv (sends_sendTcp _ _ chKeepalive [dtPing])
    · exact h.grows hinv (h.written.sendTcp hsocket _ _) (prefix_append _ _)
  · rcases Role.eq_or_eq_other x y with rfl | rfl
    · have hbytes := hun rfl
      rw [h.written] at hbytes
      obtain ⟨hsync, hnone⟩ := pollTcp_synced (w.env y) (h.inv.sound y.other).small
        h.synced hbytes closed
      exact ⟨hinv, by simpa using h.written, by rw [tcp_setTcp_self, tcp_setTcp_other]; exact hsync,
        by rw [tcp_setTcp_self]; exact hnone⟩
    · exact h.grows hinv (Written.drain hsocket _ _ h.written)
        (pollTcp_received _ (h.inv.received x.other) bytes closed).2.1

/-- Whatever bytes arrive, in whatever pieces, an end outputs a prefix of the messages the other
end sent; and if the bytes are those that were written, all of them once they have all arrived. -/
theorem tcp_integrity (w : World) (mtu : Role → Nat) (sessionId : Bytes) (x : Role) :
    (∀ s, GuardedRun (exec w) Ordinary (init mtu sessionId) s →
      (s.tcp x).out <+: (s.tcp x.other).sent) ∧
    (∀ s, (∀ k, w.socket x.other k = none) →
      GuardedRun (exec w) (fun s e => Ordinary s e ∧ Unmodified x s e) (init mtu sessionId) s →
      (s.tcp x).arrived = (s.tcp x.other).wire → (s.tcp x).out = (s.tcp x.other).sent) := by
  refine ⟨?_, ?_⟩
  · intro s hrun
    have hinv : Inv s := hrun.invariant (inv_init mtu sessionId) fun _ _ _ h hok he => h.exec hok he
    rw [(hinv.received x).out, (hinv.sound x.other).sent]
    conv => rhs; rw [← take_append_drop (s.tcp x).rxCounter (s.tcp x.other).plaintexts]
    rw [messages_append]
    exact prefix_append _ _
  · intro s hsocket hrun hall
    have h : Faithful w x s := hrun.invariant (faithful_init w x mtu sessionId)
      fun _ _ _ h hok he => h.exec hsocket hok.1 hok.2 he
    have hcount := h.synced.all (h.inv.sound x.other).small
      (by rw [hall, h.written]; rfl) h.incomplete
    rw [(h.inv.received x).out, (h.inv.sound x.other).sent, hcount, take_length]

/-- Two messages with a PING between them arrive in two pieces, cut inside the first record. -/
def sliced : Option Session :=
  play (exec World.plain) (fun s e => decide (Ordinary s e ∧ Unmodified .host s e))
    (init (fun _ => 1200) [])
    [fun _ => .send .client 0 [1, 2] 0, fun _ => .ping .client, fun _ => .send .client 1 [3] 0,
     fun s => .pollTcp .host ((s.tcp .client).wire.take 10) false,
     fun s => .pollTcp .host ((s.tcp .client).wire.drop 10) false]

/-- The same with the second record left out: the third does not open. -/
def cut : Option Session :=
  play (exec World.plain) (fun s e => decide (Ordinary s e)) (init (fun _ => 1200) [])
    [fun _ => .send .client 0 [1, 2] 0, fun _ => .ping .client, fun _ => .send .client 1 [3] 0,
     fun s => .pollTcp .host ((s.tcp .client).wire.take 27) false,
     fun s => .pollTcp .host ((s.tcp .client).wire.drop 53) false]

theorem tcp_integrity_sliced :
    (∃ s, sliced = some s ∧ (s.tcp .host).arrived = (s.tcp .client).wire ∧
      (s.tcp .client).sent.length = 2 ∧ (s.tcp .host).out = (s.tcp .client).sent) ∧
    (∃ s, cut = some s ∧ (s.tcp .host).out.length = 1 ∧
      (s.tcp .host).out <+: (s.tcp .client).sent) := by
  constructor
  · refine exists_some (fun s => (s.tcp .host).arrived = (s.tcp .client).wire ∧
      (s.tcp .client).sent.length = 2) (by decide +kernel) ?_
    rintro s hs ⟨hall, hlen⟩
    refine ⟨hall, hlen, ?_⟩
    exact (tcp_integrity World.plain (fun _ => 1200) [] .host).2 s (fun _ => rfl)
      (guardedRun_play (fun _ _ h => of_decide_eq_true h) hs) hall
  · refine exists_some (fun s => (s.tcp .host).out.length = 1) (by decide +kernel)
      fun t ht hone => ⟨hone, ?_⟩
    exact (tcp_integrity World.plain (fun _ => 1200) [] .host).1 t
      (guardedRun_play (fun _ _ h => of_decide_eq_true h) ht)

end Session

end Telesthete.Spatial
