import Telesthete.Spatial.Handshake
import Telesthete.Lib.NumberedLog

/-!
# The handshake agrees

The confirmations are the only terms that an end with a PSK ever sends under a key
made from it. So an attacker without that PSK can deliver such a confirmation only if
an end sent it (`Term.Derives.mac_released`), and the label and the transcript inside
say which end that was: a host for the one a client accepts, a client that accepted
for the one a host accepts. Equal confirmations are made of equal parts, hence the
same PSK, public keys and nonces, and the same keys.

Secrets are drawn once, so a public key names one end. An end that accepts the public
key of an end with another PSK would contradict that.
-/

namespace Telesthete.Spatial

open Telesthete.Lib List

variable {c : Client} {h : Host}

theorem publicKey_inj {x y : Atom} (h : publicKey x = publicKey y) : x = y := by
  injection h with _ hexp
  exact Multiset.singleton_inj.mp hexp

/-! ## What each end computed -/

namespace Host

def transcript (h : Host) : Msg := Spatial.transcript h.ec h.eh h.nc h.nh

def derived (h : Host) : Derived := derive (.pow h.secret h.ec) (.atom (.psk h.psk)) h.transcript

/-- The confirmation it sent. -/
def confirmH (h : Host) : Msg := confirm h.derived.h2c "host-confirm" h.transcript

/-- The keys are those it derived. -/
structure Ok (h : Host) : Prop where
  eh : h.eh = publicKey h.secret
  keys : h.keys =
    ⟨h.derived.h2c, h.derived.c2h, h.derived.uh2c, h.derived.uc2h, h.derived.sid⟩
  pending : h.pending = ⟨h.derived.c2h, h.transcript⟩

end Host

namespace Client

def transcript (c : Client) : Msg :=
  Spatial.transcript c.handshake.ecPub c.eh c.handshake.nc c.nh

def derived (c : Client) : Derived :=
  derive (.pow c.handshake.secret c.eh) (.atom (.psk c.handshake.psk)) c.transcript

/-- The confirmation it sent. -/
def confirmC (c : Client) : Msg := confirm c.derived.c2h "client-confirm" c.transcript

/-- The keys are those it derived. -/
def Ok (c : Client) : Prop :=
  c.keys = ⟨c.derived.c2h, c.derived.h2c, c.derived.uc2h, c.derived.uh2c, c.derived.sid⟩

end Client

/-- The two ends agree on everything, and transmit under the keys the other receives with. -/
structure Matches (c : Client) (h : Host) : Prop where
  psk : c.handshake.psk = h.psk
  ec : c.handshake.ecPub = h.ec
  eh : c.eh = h.eh
  nc : c.handshake.nc = h.nc
  nh : c.nh = h.nh
  sessionId : c.keys.sessionId = h.keys.sessionId
  tcpTx : c.keys.kTcpTx = h.keys.kTcpRx
  tcpRx : c.keys.kTcpRx = h.keys.kTcpTx
  udpTx : c.keys.kUdpTx = h.keys.kUdpRx
  udpRx : c.keys.kUdpRx = h.keys.kUdpTx

/-- The PSK and the transcript can be read off a derived key, and with the secret all of them. -/
theorem matches_of_derived (hc : c.Ok) (hh : h.Ok)
    (hpsk : c.handshake.psk = h.psk) (ht : c.transcript = h.transcript)
    (hd : c.derived = h.derived) : Matches c h := by
  simp only [Client.transcript, Host.transcript, Spatial.transcript, Term.pair.injEq] at ht
  obtain ⟨-, hec, heh, hnc, hnh⟩ := ht
  refine ⟨hpsk, hec, heh, hnc, hnh, ?_, ?_, ?_, ?_, ?_⟩ <;> rw [hc, hh.keys, hd]

/-- Equal confirmations of the host: the one sent and the one expected. -/
theorem matches_of_confirmH (hc : c.Ok) (hh : h.Ok)
    (heq : confirm c.derived.h2c "host-confirm" c.transcript = h.confirmH) : Matches c h := by
  simp only [Host.confirmH, confirm, Term.mac.injEq, Term.pair.injEq, true_and] at heq
  obtain ⟨hkey, ht⟩ := heq
  simp only [Client.derived, Host.derived, derive, Term.kdf.injEq, Term.pair.injEq,
    Term.atom.injEq, Atom.psk.injEq, true_and] at hkey
  obtain ⟨⟨hdh, hpsk⟩, -⟩ := hkey
  refine matches_of_derived hc hh hpsk ht ?_
  rw [Client.derived, Host.derived, hdh, hpsk, ht]

/-- Equal confirmations of the client. -/
theorem matches_of_confirmC (hc : c.Ok) (hh : h.Ok)
    (heq : c.confirmC = confirm h.derived.c2h "client-confirm" h.transcript) : Matches c h := by
  simp only [Client.confirmC, confirm, Term.mac.injEq, Term.pair.injEq, true_and] at heq
  obtain ⟨hkey, ht⟩ := heq
  simp only [Client.derived, Host.derived, derive, Term.kdf.injEq, Term.pair.injEq,
    Term.atom.injEq, Atom.psk.injEq, true_and] at hkey
  obtain ⟨⟨hdh, hpsk⟩, -⟩ := hkey
  refine matches_of_derived hc hh hpsk ht ?_
  rw [Client.derived, Host.derived, hdh, hpsk, ht]

/-- The two labels are different, so no confirmation serves both ways. -/
theorem confirmH_ne_confirm {key t : Msg} :
    confirm key "client-confirm" t ≠ h.confirmH := by
  intro heq
  simp only [Host.confirmH, confirm, Term.mac.injEq, Term.pair.injEq] at heq
  exact absurd heq.2.1 (by decide)

theorem confirmC_ne_confirm {key t : Msg} :
    confirm key "host-confirm" t ≠ c.confirmC := by
  intro heq
  simp only [Client.confirmC, confirm, Term.mac.injEq, Term.pair.injEq] at heq
  exact absurd heq.2.1 (by decide)

/-! ## What a move does -/

namespace Network

variable {n n' : Network} {leaked : Nat → Prop}
variable {t : Msg}

/-- A client takes an answer: it fails, or accepts the confirmation it expects. -/
theorem answer_cases (n : Network) (i : Nat) (c : ClientHandshake) (hello2 : Option Hello2) :
    n.answer i c hello2 = { n with waiting := n.waiting.eraseIdx i } ∨
    ∃ (m : Hello2) (client : Client), hello2 = some m ∧ client.handshake = c ∧ client.Ok ∧
      m.confirmH = confirm client.derived.h2c "host-confirm" client.transcript ∧
      n.answer i c hello2 =
        { n with
          waiting := n.waiting.eraseIdx i
          clients := n.clients ++ [client]
          sent := n.sent ++ [client.confirmC] } := by
  cases hello2 with
  | none => exact .inl rfl
  | some m =>
    let k := derive (.pow c.secret m.eh) (.atom (.psk c.psk)) (transcript c.ecPub m.eh c.nc m.nh)
    by_cases hok : confirm k.h2c "host-confirm" (transcript c.ecPub m.eh c.nc m.nh) = m.confirmH
    · refine .inr ⟨m, ⟨c, m.eh, m.nh, ⟨k.c2h, k.h2c, k.uc2h, k.uh2c, k.sid⟩⟩, rfl, rfl, rfl,
        hok.symm, ?_⟩
      simp only [k] at hok
      simp only [answer, ClientHandshake.recvHello2, ne_eq, hok, not_true_eq_false, if_false]
      rfl
    · left
      simp only [k] at hok
      simp only [answer, ClientHandshake.recvHello2, ne_eq, hok, not_false_eq_true, if_true]

/-- A host refuses a first message or answers it. -/
theorem respond_cases (n : Network) (psk : Nat) (hello1 : Hello1) (udpPort : UInt16) :
    n.respond psk hello1 udpPort = { n with drawn := n.drawn + 2 } ∨
    ∃ (ec nc : Msg) (port : UInt16) (h : Host), hello1.body = some (ec, nc, port) ∧ h.Ok ∧
      h.ec = ec ∧ h.nc = nc ∧ h.secret = .fresh n.drawn ∧ h.nh = .atom (.fresh (n.drawn + 1)) ∧
      n.respond psk hello1 udpPort =
        { n with
          hosts := n.hosts ++ [h]
          sent := n.sent ++ [h.eh, h.nh, h.confirmH]
          drawn := n.drawn + 2 } := by
  cases hbody : hello1.body with
  | none => exact .inl (by simp only [respond, hbody])
  | some body =>
    obtain ⟨ec, nc, port⟩ := body
    by_cases hv : hello1.version = some version
    · let eh := publicKey (.fresh n.drawn)
      let t := transcript ec eh nc (.atom (.fresh (n.drawn + 1)))
      let k := derive (.pow (.fresh n.drawn) ec) (.atom (.psk psk)) t
      refine .inr ⟨ec, nc, port, ⟨psk, .fresh n.drawn, ec, nc, eh, .atom (.fresh (n.drawn + 1)),
        ⟨k.h2c, k.c2h, k.uh2c, k.uc2h, k.sid⟩, ⟨k.c2h, t⟩⟩, rfl, ⟨rfl, rfl, rfl⟩, rfl, rfl, rfl,
        rfl, ?_⟩
      simp only [respond, hostRespond, hbody, hv, ne_eq, not_true_eq_false, if_false]
      rfl
    · left
      simp only [respond, hostRespond, hbody, hv, ne_eq, not_false_eq_true, if_true]

/-- A host takes a confirmation: it refuses, or it got the one it expects. -/
theorem verify_cases (n : Network) (h : Host) (confirm3 : Option Msg) :
    n.verify h confirm3 = n ∨
    (confirm3 = some (confirm h.pending.kC2h "client-confirm" h.pending.transcript) ∧
      n.verify h confirm3 = { n with accepted := n.accepted ++ [h] }) := by
  cases confirm3 with
  | none => exact .inl rfl
  | some tag =>
    by_cases hok : confirm h.pending.kC2h "client-confirm" h.pending.transcript = tag
    · refine .inr ⟨by rw [hok], ?_⟩
      simp only [verify, PendingConfirm.verify, hok, if_true]
    · left
      simp only [verify, PendingConfirm.verify, hok, if_false]

/-! ## The invariant -/

/-- The PSKs that have not leaked. -/
def Secret (leaked : Nat → Prop) (a : Atom) : Prop := ∃ k, a = .psk k ∧ ¬ leaked k

/-- The confirmations that were sent. -/
def Released (n : Network) (t : Msg) : Prop :=
  (∃ h ∈ n.hosts, t = h.confirmH) ∨ ∃ c ∈ n.clients, t = c.confirmC

structure Inv (leaked : Nat → Prop) (n : Network) : Prop where
  waiting : ∀ c ∈ n.waiting, c ∈ n.begun
  begun : ∀ c ∈ n.begun, c.ecPub = publicKey c.secret ∧ ∃ i < n.drawn, c.secret = .fresh i
  begunOnce : ∀ c ∈ n.begun, ∀ c' ∈ n.begun, c.secret = c'.secret → c = c'
  host : ∀ h ∈ n.hosts, h.Ok ∧ ∃ i < n.drawn, h.secret = .fresh i
  hostOnce : ∀ h ∈ n.hosts, ∀ h' ∈ n.hosts, h.secret = h'.secret → h = h'
  client : ∀ c ∈ n.clients, c.Ok ∧ c.handshake ∈ n.begun
  accepted : ∀ h ∈ n.accepted, h ∈ n.hosts
  sent : ∀ t ∈ n.sent, t.Public (Secret leaked) n.Released
  clientPeer : ∀ c ∈ n.clients, ¬ leaked c.handshake.psk → ∃ h ∈ n.hosts, Matches c h
  hostPeer : ∀ h ∈ n.accepted, ¬ leaked h.psk → ∃ c ∈ n.clients, Matches c h

theorem inv_init (leaked : Nat → Prop) : Inv leaked init := by
  constructor <;> simp [init]

theorem Released.mono (h : n.Released t) (hhosts : ∀ h ∈ n.hosts, h ∈ n'.hosts)
    (hclients : ∀ c ∈ n.clients, c ∈ n'.clients) : n'.Released t := by
  rcases h with ⟨h, hmem, heq⟩ | ⟨c, hmem, heq⟩
  · exact .inl ⟨h, hhosts h hmem, heq⟩
  · exact .inr ⟨c, hclients c hmem, heq⟩

/-- Everything the attacker has seen is public. -/
theorem Inv.seen (h : Inv leaked n) (ht : Seen leaked n t) :
    t.Public (Secret leaked) n.Released := by
  cases ht with
  | sent hmem => exact h.sent t hmem
  | psk hleak =>
    rintro ⟨k, heq, hk⟩
    rw [← Atom.psk.inj heq] at hk
    exact hk hleak
  | own k =>
    rintro ⟨k, heq, -⟩
    exact absurd heq (by simp)

/-- A key made from a PSK that has not leaked is not public. -/
theorem not_public_kdf {psk slot : Nat} {dh t info : Msg} {released : Msg → Prop}
    (hpsk : ¬ leaked psk) :
    ¬ (Term.kdf slot (.pair dh (.atom (.psk psk))) t info).Public (Secret leaked) released := by
  rintro ⟨⟨-, hnot⟩, -⟩
  exact hnot ⟨psk, rfl, hpsk⟩

/-- Values drawn at random are sent in the clear. -/
theorem public_fresh (i : Nat) (released : Msg → Prop) :
    (Term.atom (.fresh i)).Public (Secret leaked) released := by
  rintro ⟨k, heq, -⟩
  exact absurd heq (by simp)

theorem public_publicKey (x : Atom) (released : Msg → Prop) :
    (publicKey x).Public (Secret leaked) released := trivial

theorem Inv.begin (h : Inv leaked n) (psk : Nat) (udpPort : UInt16) :
    Inv leaked (n.begin psk udpPort) where
  waiting := by
    intro c hc
    rcases mem_append.mp hc with hc | hc
    · exact mem_append_left _ (h.waiting c hc)
    · exact mem_append_right _ hc
  begun := by
    refine forall_mem_snoc (fun c hc => ?_)
      ⟨rfl, n.drawn, Nat.lt_add_of_pos_right (by decide), rfl⟩
    obtain ⟨hpub, i, hi, hsecret⟩ := h.begun c hc
    exact ⟨hpub, i, Nat.lt_add_right 2 hi, hsecret⟩
  begunOnce := by
    have hnew : ∀ c ∈ n.begun, c.secret ≠ .fresh n.drawn := by
      intro c hc heq
      obtain ⟨-, i, hi, hsecret⟩ := h.begun c hc
      have := Atom.fresh.inj (hsecret.symm.trans heq)
      omega
    exact unique_snoc h.begunOnce hnew
  host := by
    intro host hhost
    obtain ⟨hok, i, hi, hsecret⟩ := h.host host hhost
    exact ⟨hok, i, Nat.lt_add_right 2 hi, hsecret⟩
  hostOnce := h.hostOnce
  client := fun c hc => ⟨(h.client c hc).1, mem_append_left _ (h.client c hc).2⟩
  accepted := h.accepted
  sent := by
    intro t ht
    rcases mem_append.mp ht with ht | ht
    · exact h.sent t ht
    · rcases mem_pair.mp ht with rfl | rfl
      · exact public_publicKey _ _
      · exact public_fresh _ _
  clientPeer := h.clientPeer
  hostPeer := h.hostPeer

/-- The confirmation that a client accepts was sent by a host. -/
theorem Inv.host_of_confirmH {client : Client} (h : Inv leaked n) (hok : client.Ok)
    (hpsk : ¬ leaked client.handshake.psk)
    (hd : Term.Derives (Seen leaked n)
      (confirm client.derived.h2c "host-confirm" client.transcript)) :
    ∃ host ∈ n.hosts, Matches client host := by
  rcases hd.mac_released (fun _ => h.seen) (not_public_kdf hpsk) with ⟨host, hmem, heq⟩ | ⟨c, -, heq⟩
  · exact ⟨host, hmem, matches_of_confirmH hok (h.host host hmem).1 heq⟩
  · exact absurd heq confirmC_ne_confirm

theorem Inv.answer {i : Nat} {c : ClientHandshake} {hello2 : Option Hello2} (h : Inv leaked n)
    (hc : n.waiting[i]? = some c) (hdel : Deliverable leaked n (.answer i hello2)) :
    Inv leaked (n.answer i c hello2) := by
  have hbegun : c ∈ n.begun := h.waiting c (mem_of_getElem? hc)
  have hwaiting : ∀ c' ∈ n.waiting.eraseIdx i, c' ∈ n.begun :=
    fun c' hc' => h.waiting c' (mem_of_mem_eraseIdx hc')
  rcases n.answer_cases i c hello2 with heq | ⟨m, client, hm, rfl, hok, hconfirm, heq⟩
  · rw [heq]
    exact { h with waiting := hwaiting }
  · rw [heq]
    have hkeep : ∀ t, n.Released t → Released
        { n with
          waiting := n.waiting.eraseIdx i
          clients := n.clients ++ [client]
          sent := n.sent ++ [client.confirmC] } t :=
      fun t ht => ht.mono (fun _ hmem => hmem) fun _ hmem => mem_append_left _ hmem
    refine { h with waiting := hwaiting, client := ?_, sent := ?_, clientPeer := ?_, hostPeer := ?_ }
    · exact forall_mem_snoc h.client ⟨hok, hbegun⟩
    · exact forall_mem_snoc (fun t ht => (h.sent t ht).mono hkeep)
        (.inr (.inr ⟨client, mem_append_right _ (mem_singleton_self _), rfl⟩))
    · refine forall_mem_snoc h.clientPeer fun hpsk => ?_
      have hd := (hdel m hm).2.2
      rw [hconfirm] at hd
      exact h.host_of_confirmH hok hpsk hd
    · intro host hhost hpsk
      obtain ⟨c', hc', hmatch⟩ := h.hostPeer host hhost hpsk
      exact ⟨c', mem_append_left _ hc', hmatch⟩

theorem Inv.respond (h : Inv leaked n) (psk : Nat) (hello1 : Hello1) (udpPort : UInt16) :
    Inv leaked (n.respond psk hello1 udpPort) := by
  have hbegun : ∀ c ∈ n.begun,
      c.ecPub = publicKey c.secret ∧ ∃ i < n.drawn + 2, c.secret = .fresh i := by
    intro c hc
    obtain ⟨hpub, i, hi, hsecret⟩ := h.begun c hc
    exact ⟨hpub, i, Nat.lt_add_right 2 hi, hsecret⟩
  have hhost : ∀ host ∈ n.hosts, host.Ok ∧ ∃ i < n.drawn + 2, host.secret = .fresh i := by
    intro host hmem
    obtain ⟨hok, i, hi, hsecret⟩ := h.host host hmem
    exact ⟨hok, i, Nat.lt_add_right 2 hi, hsecret⟩
  rcases n.respond_cases psk hello1 udpPort with heq |
    ⟨ec, nc, port, host, -, hok, -, -, hsecret, hnh, heq⟩
  · rw [heq]
    exact { h with begun := hbegun, host := hhost }
  · rw [heq]
    have hnew : ∀ h' ∈ n.hosts, h'.secret ≠ host.secret := by
      intro h' hmem heq'
      obtain ⟨-, i, hi, hs⟩ := h.host h' hmem
      have := Atom.fresh.inj (hs.symm.trans (heq'.trans hsecret))
      omega
    refine ⟨h.waiting, hbegun, h.begunOnce, ?_, ?_, h.client, ?_, ?_, ?_, h.hostPeer⟩
    · exact forall_mem_snoc hhost ⟨hok, n.drawn, Nat.lt_add_of_pos_right (by decide), hsecret⟩
    · exact unique_snoc h.hostOnce hnew
    · exact fun h' hmem => mem_append_left _ (h.accepted h' hmem)
    · intro t ht
      rcases mem_append.mp ht with ht | ht
      · exact (h.sent t ht).mono fun u hu =>
          hu.mono (fun _ hmem => mem_append_left _ hmem) fun _ hmem => hmem
      · simp only [mem_cons, not_mem_nil, or_false] at ht
        rcases ht with rfl | rfl | rfl
        · rw [hok.eh]
          exact public_publicKey _ _
        · rw [hnh]
          exact public_fresh _ _
        · exact .inr (.inl ⟨host, mem_append_right _ (mem_singleton_self _), rfl⟩)
    · intro c hc hpsk
      obtain ⟨h', hmem, hmatch⟩ := h.clientPeer c hc hpsk
      exact ⟨h', mem_append_left _ hmem, hmatch⟩

theorem Inv.verify {j : Nat} {host : Host} {confirm3 : Option Msg} (h : Inv leaked n)
    (hhost : n.hosts[j]? = some host) (hdel : Deliverable leaked n (.verify j confirm3)) :
    Inv leaked (n.verify host confirm3) := by
  have hmem : host ∈ n.hosts := mem_of_getElem? hhost
  rcases n.verify_cases host confirm3 with heq | ⟨hconfirm, heq⟩
  · rw [heq]
    exact h
  · rw [heq]
    have hok := (h.host host hmem).1
    refine { h with accepted := ?_, hostPeer := ?_ }
    · exact forall_mem_snoc h.accepted hmem
    · refine forall_mem_snoc h.hostPeer fun hpsk => ?_
      have hd := hdel _ hconfirm
      rw [hok.pending] at hd
      -- the label says that a client sent it, and only one that accepted did
      rcases hd.mac_released (fun _ => h.seen) (not_public_kdf hpsk) with ⟨h'', -, heq'⟩ |
        ⟨c, hc, heq'⟩
      · exact absurd heq' confirmH_ne_confirm
      · exact ⟨c, hc, matches_of_confirmC (h.client c hc).1 hok heq'.symm⟩

theorem Inv.exec {m : Move} (h : Inv leaked n) (hdel : Deliverable leaked n m)
    (he : n.exec m = some n') : Inv leaked n' := by
  cases m with
  | begin psk port =>
    cases he
    exact h.begin psk port
  | answer i hello2 =>
    obtain ⟨c, hc, rfl⟩ := Option.map_eq_some_iff.mp he
    exact h.answer hc hdel
  | respond psk hello1 port =>
    cases he
    exact h.respond psk hello1 port
  | verify j confirm3 =>
    obtain ⟨host, hhost, rfl⟩ := Option.map_eq_some_iff.mp he
    exact h.verify hhost hdel

/-- Whatever an attacker does that has not got the PSK in question: a host that accepts has a client
that accepted with the same PSK, public keys, nonces and keys; a client that accepts has such a
host; and neither accepts an end with another PSK. -/
theorem agreement (leaked : Nat → Prop) (hreach : Reachable leaked n) :
    (∀ h ∈ n.accepted, ¬ leaked h.psk → ∃ c ∈ n.clients, Matches c h) ∧
    (∀ c ∈ n.clients, ¬ leaked c.handshake.psk → ∃ h ∈ n.hosts, Matches c h) ∧
    (∀ c ∈ n.clients, ∀ h ∈ n.hosts, ¬ leaked c.handshake.psk →
      c.handshake.psk ≠ h.psk → c.eh ≠ h.eh) ∧
    (∀ h ∈ n.accepted, ∀ c ∈ n.begun, ¬ leaked h.psk → h.psk ≠ c.psk → h.ec ≠ c.ecPub) := by
  have hinv : Inv leaked n := hreach.invariant (inv_init leaked) fun _ _ _ h hdel he => h.exec hdel he
  refine ⟨hinv.hostPeer, hinv.clientPeer, ?_, ?_⟩
  · intro c hc h hh hpsk hne heq
    obtain ⟨h', hh', hmatch⟩ := hinv.clientPeer c hc hpsk
    have hpub : publicKey h'.secret = publicKey h.secret := by
      rw [← (hinv.host h' hh').1.eh, ← (hinv.host h hh).1.eh, ← heq, hmatch.eh]
    rw [hinv.hostOnce h' hh' h hh (publicKey_inj hpub)] at hmatch
    exact hne hmatch.psk
  · intro h hh c hc hpsk hne heq
    obtain ⟨c', hc', hmatch⟩ := hinv.hostPeer h hh hpsk
    have hbegun := (hinv.client c' hc').2
    have hpub : publicKey c'.handshake.secret = publicKey c.secret := by
      rw [← (hinv.begun _ hbegun).1, ← (hinv.begun c hc).1, ← heq, hmatch.ec]
    rw [← hinv.begunOnce _ hbegun c hc (publicKey_inj hpub)] at hne
    exact hne hmatch.psk.symm

/-- The message is made of terms that were sent as they are. -/
def passedOn (n : Network) : Move → Bool
  | .begin _ _ => true
  | .answer _ hello2 => hello2.all fun m =>
    decide (m.eh ∈ n.sent) && decide (m.nh ∈ n.sent) && decide (m.confirmH ∈ n.sent)
  | .respond _ hello1 _ => hello1.body.all fun b =>
    decide (b.1 ∈ n.sent) && decide (b.2.1 ∈ n.sent)
  | .verify _ confirm3 => confirm3.all fun tag => decide (tag ∈ n.sent)

theorem deliverable_of_passedOn {m : Move} (h : n.passedOn m = true) : Deliverable leaked n m := by
  cases m with
  | begin psk port => trivial
  | answer i hello2 =>
    rintro m rfl
    simp only [passedOn, Option.all_some, Bool.and_eq_true, decide_eq_true_eq] at h
    exact ⟨.seen (.sent h.1.1), .seen (.sent h.1.2), .seen (.sent h.2)⟩
  | respond psk hello1 port =>
    intro ec nc udp hbody
    simp only [passedOn, hbody, Option.all_some, Bool.and_eq_true, decide_eq_true_eq] at h
    exact ⟨.seen (.sent h.1), .seen (.sent h.2)⟩
  | verify j confirm3 =>
    rintro tag rfl
    simp only [passedOn, Option.all_some, decide_eq_true_eq] at h
    exact .seen (.sent h)

/-- A handshake under the PSK `0` whose messages are passed on as they are. -/
def carried : Option Network :=
  play exec passedOn init
    [fun _ => .begin 0 40000,
     fun n => .respond 0 ⟨some version, some (n.sent.getD 0 basePoint, n.sent.getD 1 basePoint,
       40000)⟩ 40001,
     fun n => .answer 0 (some ⟨n.sent.getD 2 basePoint, n.sent.getD 3 basePoint,
       n.sent.getD 4 basePoint, 40001⟩),
     fun n => .verify 0 (some (n.sent.getD 5 basePoint))]

theorem agreement_carried : ∃ n, carried = some n ∧ n.accepted.length = 1 ∧
    (∀ h ∈ n.accepted, h.psk ≠ 1) ∧
    (∀ h ∈ n.accepted, ¬ h.psk = 1 → ∃ c ∈ n.clients, Matches c h) := by
  refine exists_some (fun n => n.accepted.length = 1 ∧ ∀ h ∈ n.accepted, h.psk ≠ 1)
    (by decide +kernel) ?_
  rintro n hn ⟨hlen, hpsk⟩
  exact ⟨hlen, hpsk,
    (agreement (· = 1) (guardedRun_play (fun _ _ => deliverable_of_passedOn) hn)).1⟩

/-! ## Secrecy -/

/-- One of the four keys of the records and the datagrams. -/
def Traffic (s : SessionKeys) (k : Msg) : Prop :=
  k = s.kTcpTx ∨ k = s.kTcpRx ∨ k = s.kUdpTx ∨ k = s.kUdpRx

/-- The keys of an end whose PSK has not leaked are beyond the attacker, and no two hosts share
one. -/
theorem keys_secret (leaked : Nat → Prop) (hreach : Reachable leaked n) :
    (∀ h ∈ n.hosts, ¬ leaked h.psk → ∀ k, Traffic h.keys k → ¬ Term.Derives (Seen leaked n) k) ∧
    (∀ c ∈ n.clients, ¬ leaked c.handshake.psk → ∀ k, Traffic c.keys k →
      ¬ Term.Derives (Seen leaked n) k) ∧
    ∀ h ∈ n.hosts, ∀ h' ∈ n.hosts, ∀ k, Traffic h.keys k → Traffic h'.keys k → h = h' := by
  have hinv : Inv leaked n := hreach.invariant (inv_init _) fun _ _ _ h hdel he => h.exec hdel he
  have hhost : ∀ h ∈ n.hosts, ∀ k, Traffic h.keys k →
      ∃ slot dh info, k = .kdf slot (.pair dh (.atom (.psk h.psk))) h.transcript info := by
    intro h hh k hk
    rw [(hinv.host h hh).1.keys] at hk
    rcases hk with rfl | rfl | rfl | rfl <;> exact ⟨_, _, _, rfl⟩
  refine ⟨fun h hh hpsk k hk hd => ?_, fun c hc hpsk k hk hd => ?_, fun h hh h' hh' k hk hk' => ?_⟩
  · obtain ⟨slot, dh, info, rfl⟩ := hhost h hh k hk
    exact not_public_kdf hpsk (hd.isPublic fun _ => hinv.seen)
  · rw [(hinv.client c hc).1] at hk
    rcases hk with rfl | rfl | rfl | rfl <;>
      exact not_public_kdf hpsk (hd.isPublic fun _ => hinv.seen)
  · obtain ⟨slot, dh, info, rfl⟩ := hhost h hh k hk
    obtain ⟨slot', dh', info', heq⟩ := hhost h' hh' _ hk'
    -- the transcript is part of a key, and the host's public key part of the transcript
    injection heq with _ _ ht _
    simp only [Host.transcript, Spatial.transcript, Term.pair.injEq] at ht
    refine hinv.hostOnce h hh h' hh' (publicKey_inj ?_)
    rw [← (hinv.host h hh).1.eh, ← (hinv.host h' hh').1.eh, ht.2.2.1]

theorem keys_secret_carried : ∃ n, carried = some n ∧ n.hosts.length = 1 ∧
    ∀ h ∈ n.hosts, ¬ h.psk = 1 → ∀ k, Traffic h.keys k → ¬ Term.Derives (Seen (· = 1) n) k := by
  refine exists_some (fun n => n.hosts.length = 1) (by decide +kernel) fun n hn hlen => ⟨hlen, ?_⟩
  exact (keys_secret (· = 1) (guardedRun_play (fun _ _ => deliverable_of_passedOn) hn)).1

end Network

end Telesthete.Spatial
