import Telesthete.Proofs.Squatting

/-!
# A rebound peer takes its route id along

A peer whose NAT mapping changes comes back from another port of its IP. Its old
entry is a dead address that still holds the id, and `supersedeRebound` takes
the id from it. That runs at two moments only, when an entry declares an id and
when it passes validation. The relation it establishes holds at all others:
no UDP entry that fell silent before an eligible one of its IP appeared holds
that one's id.

What carries it is the order of the readings (`Timely`). An entry is heard from
when the clock is at its latest, so later than any entry appeared, and the UDP
loop declares for a packet right after it observed it: no entry can have
appeared in between.
-/

namespace Telesthete.Relay

open Telesthete.Lib Telesthete.Wire Option Registry
open Telesthete.Band (SocketAddr)

variable {S : Type} {r r' : Registry S} {band b : BandId} {key k : PeerKey} {addr : SocketAddr}
  {op : Op S} {p q : Peer S} {limits : Limits} {clock : Nat}
  {held : Option (BandId × SocketAddr)}

/-- The readings of the clock an operation makes under the lock. Idle eviction reads it before. -/
def Op.readings : Op S → List Nat
  | .connect _ _ _ now later => [now, later]
  | .observeUdp _ _ _ now later => [now, later]
  | .touch _ _ now => [now]
  | _ => []

/-- The packet the UDP loop has observed and not forwarded, after the operation. -/
def Op.holding (held : Option (BandId × SocketAddr)) : Op S → Option (BandId × SocketAddr)
  | .observeUdp band addr _ _ _ => some (band, addr)
  | .forward _ (.udp _) _ => none
  | _ => held

/-- The UDP loop forwards the packet it has just observed. -/
def Op.Follows (held : Option (BandId × SocketAddr)) : Op S → Prop
  | .forward band (.udp addr) _ => held = some (band, addr)
  | _ => True

instance Op.decidableFollows (held : Option (BandId × SocketAddr)) :
    (op : Op S) → Decidable (op.Follows held)
  | .forward band (.udp addr) _ => inferInstanceAs (Decidable (held = some (band, addr)))
  | .forward _ (.conn _) _ | .connect _ _ _ _ _ | .observeUdp _ _ _ _ _ | .touch _ _ _
  | .injectFromLink _ _ | .disconnect _ _ | .prune _ _ => instDecidableTrue

/-- Among any operations of the other transports, those of the UDP loop come as it makes them. -/
def Driven : Option (BandId × SocketAddr) → List (Op S) → Prop
  | _, [] => True
  | held, op :: ops => op.Follows held ∧ Driven (op.holding held) ops

instance decidableDriven : ∀ (held : Option (BandId × SocketAddr)) (ops : List (Op S)),
    Decidable (Driven held ops)
  | _, [] => instDecidableTrue
  | held, op :: ops =>
    have := decidableDriven (op.holding held) ops
    inferInstanceAs (Decidable (op.Follows held ∧ Driven (op.holding held) ops))

/-! ## Losing an id -/

/-- An entry that lost its id was silent when the one that took it appeared. -/
theorem lastSeen_lt_of_superseded {found : Option (Peer S)}
    (h : superseded key found k q ≠ q) : ∃ p, found = some p ∧ q.lastSeen < p.firstSeen := by
  cases key with
  | conn id => exact absurd rfl h
  | udp addr =>
    cases found with
    | none => exact absurd rfl h
    | some p =>
      refine ⟨p, rfl, ?_⟩
      by_contra hge
      refine h ?_
      unfold superseded
      dsimp only
      split
      · next id _ _ =>
        have hnot : rebound addr id p.firstSeen k q = false := by
          cases k with
          | conn _ => rfl
          | udp a => simp [rebound, hge]
        rw [hnot]
        rfl
      · rfl

/-- What keeps an eligible entry's id next to it was heard from since that one appeared. -/
theorem firstSeen_le_of_superseded {a : SocketAddr} {id : UInt16} (ha : a ≠ addr)
    (hip : a.ip = addr.ip) (heligible : p.eligible = true) (hroute : p.route = some id)
    (h : (superseded (.udp addr) (some p) (.udp a) q).route = some id) :
    p.firstSeen ≤ q.lastSeen := by
  by_contra hlt
  unfold superseded at h
  simp only [hroute, heligible] at h
  split at h
  · exact absurd h.symm (some_ne_none id)
  · next hnot =>
    exact hnot (by simp [rebound, ha, hip, h, not_le.mp hlt])

/-- Only the arrival, validation or declaration of an entry that appeared after `q` was last heard
from changes `q`, among all that others do. -/
theorem Registry.lastSeen_lt_of_changed {src : PeerKey} (hsource : op.source = some src)
    (hne : src ≠ k) (hq : r.peer? b k = some q)
    (hlost : (r.apply op).registry.peer? b k ≠ some q) :
    ∃ p, (r.apply op).registry.peer? b src = some p ∧ q.lastSeen < p.firstSeen := by
  cases op with
  | connect band id sink now later =>
    obtain rfl := Option.some.inj hsource
    exact absurd ((peer?_insert_of_ne hne.symm).trans hq) hlost
  | observeUdp band addr sink now later =>
    obtain rfl := Option.some.inj hsource
    have hlost' : (r.observeUdp band addr sink now later).registry.peer? b k ≠ some q := hlost
    show ∃ p, (r.observeUdp band addr sink now later).registry.peer? b _ = some p ∧ _
    cases hpeer : r.peer? band (.udp addr) with
    | none =>
      rw [observeUdp_of_none hpeer] at hlost'
      exact absurd ((peer?_insert_of_ne hne.symm).trans hq) hlost'
    | some p =>
      rw [peer?_observeUdp hpeer] at hlost' ⊢
      by_cases hb : b = band
      · subst hb
        simp only [if_true, hpeer, hq, Option.map_some, if_neg hne.symm] at hlost' ⊢
        by_cases hpro : promotes r.limits now p = true
        · rw [if_pos hpro] at hlost'
          obtain ⟨_, hp, hlt⟩ := lastSeen_lt_of_superseded fun heq =>
            hlost' (congrArg some heq)
          obtain rfl := Option.some.inj hp
          exact ⟨_, rfl, hlt⟩
        · exact absurd (if_neg hpro ▸ rfl) hlost'
      · rw [if_neg hb] at hlost'
        exact absurd hq hlost'
  | touch band id now =>
    obtain rfl := Option.some.inj hsource
    refine absurd ?_ hlost
    show (r.touch band (.conn id) now).registry.peer? b k = some q
    rw [peer?_touch, if_neg fun heq => hne heq.2.symm, hq]
  | forward band s frame =>
    obtain rfl := Option.some.inj hsource
    have hlost' : (r.forward band s frame).registry.peer? b k ≠ some q := hlost
    show ∃ p, (r.forward band s frame).registry.peer? b s = some p ∧ _
    rcases registry_forward r band s frame with heq | ⟨id, heq⟩
    · rw [heq] at hlost'
      exact absurd hq hlost'
    · rw [heq, peer?_declare] at hlost' ⊢
      by_cases hb : b = band
      · subst hb
        simp only [if_true, hq, Option.map_some, if_neg hne.symm] at hlost' ⊢
        obtain ⟨p, hfound, hlt⟩ := lastSeen_lt_of_superseded fun heq =>
          hlost' (congrArg some heq)
        obtain ⟨p, hp, rfl⟩ := map_eq_some_iff.mp hfound
        refine ⟨routed id p, ?_, hlt⟩
        rw [hp, Option.map_some, superseded_self]
      · rw [if_neg hb] at hlost'
        exact absurd hq hlost'
  | injectFromLink band frame => exact absurd hsource.symm (some_ne_none src)
  | disconnect band s =>
    obtain rfl := Option.some.inj hsource
    refine absurd ?_ hlost
    show (r.disconnect band s).registry.peer? b k = some q
    rw [peer?_disconnect, if_neg fun heq => hne heq.2.symm, hq]
  | prune ttl now => exact absurd hsource.symm (some_ne_none src)

/-! ## The order of the readings -/

/-- No entry is younger than the clock, the packet in hand was heard of after every UDP entry of its
band appeared, and no id is held twice where one holder was silent when the other appeared. -/
structure Timely (r : Registry S) (clock : Nat) (held : Option (BandId × SocketAddr)) : Prop where
  born : ∀ b a p, r.peer? b (.udp a) = some p → p.firstSeen ≤ clock
  fresh : ∀ b addr q, held = some (b, addr) → r.peer? b (.udp addr) = some q →
    ∀ a p, r.peer? b (.udp a) = some p → p.firstSeen ≤ q.lastSeen
  apart : ∀ b a a' p q id, r.peer? b (.udp a) = some p → r.peer? b (.udp a') = some q →
    a' ≠ a → a'.ip = a.ip → p.eligible = true → p.route = some id → q.route = some id →
    p.firstSeen ≤ q.lastSeen

theorem timely_new {fed : Bool} : Timely (Registry.new limits fed : Registry S) 0 none where
  born _ _ _ hp := absurd hp.symm (some_ne_none _)
  fresh _ _ _ hheld := absurd hheld.symm (some_ne_none _)
  apart _ _ _ _ _ _ hp := absurd hp.symm (some_ne_none _)

/-- The entry is as it was, but for an id it may have lost. -/
def Kept (p p' : Peer S) : Prop := p' = p ∨ p' = { p with route := none }

namespace Kept

theorem firstSeen (h : Kept p q) : q.firstSeen = p.firstSeen := by
  rcases h with rfl | rfl
  · rfl
  · rfl

theorem lastSeen (h : Kept p q) : q.lastSeen = p.lastSeen := by
  rcases h with rfl | rfl
  · rfl
  · rfl

theorem eligible (h : Kept p q) : q.eligible = p.eligible := by
  rcases h with rfl | rfl
  · rfl
  · rfl

theorem route {id : UInt16} (h : Kept p q) (hid : q.route = some id) : p.route = some id := by
  rcases h with rfl | rfl
  · exact hid
  · exact absurd hid.symm (some_ne_none id)

end Kept

namespace Timely

/-- Two entries that an operation kept are still apart. -/
theorem apart_of_kept (h : Timely r clock held) {a a' : SocketAddr} {p' q' : Peer S} {id : UInt16}
    (hp : r.peer? b (.udp a) = some p) (hq : r.peer? b (.udp a') = some q) (hkp : Kept p p')
    (hkq : Kept q q') (hne : a' ≠ a) (hip : a'.ip = a.ip) (heligible : p'.eligible = true)
    (hrp : p'.route = some id) (hrq : q'.route = some id) : p'.firstSeen ≤ q'.lastSeen := by
  rw [hkp.firstSeen, hkq.lastSeen]
  exact h.apart b a a' p q id hp hq hne hip (hkp.eligible ▸ heligible) (hkp.route hrp)
    (hkq.route hrq)

/-- An operation that brings no UDP entry, and tells of none. -/
theorem of_kept (h : Timely r clock held) {clock' : Nat} (hle : clock ≤ clock')
    (hkept : ∀ b a p', r'.peer? b (.udp a) = some p' →
      ∃ p, r.peer? b (.udp a) = some p ∧ Kept p p') : Timely r' clock' held where
  born := by
    intro b a p' hp'
    obtain ⟨p, hp, hk⟩ := hkept b a p' hp'
    rw [hk.firstSeen]
    exact le_trans (h.born b a p hp) hle
  fresh := by
    intro b addr q' hheld hq' a p' hp'
    obtain ⟨p, hp, hkp⟩ := hkept b a p' hp'
    obtain ⟨q, hq, hkq⟩ := hkept b addr q' hq'
    rw [hkp.firstSeen, hkq.lastSeen]
    exact h.fresh b addr q hheld hq a p hp
  apart := by
    intro b a a' p' q' id hp' hq' hne hip heligible hrp hrq
    obtain ⟨p, hp, hkp⟩ := hkept b a p' hp'
    obtain ⟨q, hq, hkq⟩ := hkept b a' q' hq'
    exact h.apart_of_kept hp hq hkp hkq hne hip heligible hrp hrq

/-- The UDP loop took another packet, and the entry it came from is the one heard of last. -/
theorem of_heard (h : Timely r clock held) {now : Nat} (hnow : clock ≤ now)
    (hself : ∀ q, r'.peer? band (.udp addr) = some q → q.firstSeen ≤ now ∧ now ≤ q.lastSeen)
    (hother : ∀ b a p', (b, a) ≠ (band, addr) → r'.peer? b (.udp a) = some p' →
      ∃ p, r.peer? b (.udp a) = some p ∧ Kept p p')
    (htaken : ∀ a p q id, a ≠ addr → a.ip = addr.ip → r'.peer? band (.udp addr) = some p →
      r'.peer? band (.udp a) = some q → p.eligible = true → p.route = some id →
      q.route = some id → p.firstSeen ≤ q.lastSeen) :
    Timely r' now (some (band, addr)) := by
  have hborn : ∀ b a p, r'.peer? b (.udp a) = some p → p.firstSeen ≤ now := by
    intro b a p' hp'
    by_cases heq : (b, a) = (band, addr)
    · obtain ⟨rfl, rfl⟩ := Prod.mk.inj heq
      exact (hself p' hp').1
    · obtain ⟨p, hp, hk⟩ := hother b a p' heq hp'
      rw [hk.firstSeen]
      exact le_trans (h.born b a p hp) hnow
  refine ⟨hborn, ?_, ?_⟩
  · rintro b a q ⟨⟩ hq a' p hp
    exact le_trans (hborn _ _ p hp) (hself q hq).2
  · intro b a a' p' q' id hp' hq' hne hip heligible hrp hrq
    by_cases hq : (b, a') = (band, addr)
    · obtain ⟨rfl, rfl⟩ := Prod.mk.inj hq
      exact le_trans (hborn _ _ p' hp') (hself q' hq').2
    · obtain ⟨q, hold, hkq⟩ := hother b a' q' hq hq'
      by_cases hp : (b, a) = (band, addr)
      · obtain ⟨rfl, rfl⟩ := Prod.mk.inj hp
        exact htaken a' p' q' id hne hip hp' hq' heligible hrp hrq
      · obtain ⟨p, hold', hkp⟩ := hother b a p' hp hp'
        exact h.apart_of_kept hold' hold hkp hkq hne hip heligible hrp hrq

/-- A UDP source is admitted: it has no id yet. -/
theorem insert (h : Timely r clock held) (hnone : r.peer? band (.udp addr) = none) {sink : S}
    {now later : Nat} (hnow : clock ≤ now) (hlater : now ≤ later) :
    Timely (r.insert band (.udp addr) sink false now later).registry now (some (band, addr)) := by
  rw [insert_eq]
  cases r.refusal band with
  | some e =>
    refine h.of_heard hnow ?_ (fun b a p _ hp => ⟨p, hp, .inl rfl⟩) ?_
    · intro q hq
      exact absurd (hq.symm.trans hnone) (some_ne_none q)
    · intro a p q id _ _ hp
      exact absurd (hp.symm.trans hnone) (some_ne_none p)
  | none =>
    have hself : ∀ q, (r.register band (.udp addr)
        (Registry.newPeer r.limits sink false now later)).peer? band (.udp addr) = some q →
        q = Registry.newPeer r.limits sink false now later := by
      intro q hq
      rw [peer?_register, if_pos ⟨rfl, rfl⟩] at hq
      exact (Option.some.inj hq).symm
    refine h.of_heard hnow ?_ ?_ ?_
    · intro q hq
      rw [hself q hq]
      exact ⟨Nat.le_refl now, hlater⟩
    · intro b a p hne hp
      rw [peer?_register, if_neg ?_] at hp
      · exact ⟨p, hp, .inl rfl⟩
      · exact fun heq => hne (Prod.ext heq.1 (PeerKey.udp.inj heq.2))
    · intro a p q id _ _ hp _ _ hroute
      rw [hself p hp] at hroute
      exact absurd hroute.symm (some_ne_none id)

theorem observeUdp (h : Timely r clock held) {sink : S} {now later : Nat} (hnow : clock ≤ now)
    (hlater : now ≤ later) :
    Timely (r.observeUdp band addr sink now later).registry now (some (band, addr)) := by
  cases hpeer : r.peer? band (.udp addr) with
  | none =>
    rw [observeUdp_of_none hpeer]
    exact h.insert hpeer hnow hlater
  | some p₀ =>
    have hself : ∀ q,
        (r.observeUdp band addr sink now later).registry.peer? band (.udp addr) = some q →
        q = Registry.observe r.limits sink now p₀ := by
      intro q hq
      rw [peer?_observeUdp hpeer, if_pos rfl, hpeer, Option.map_some, if_pos rfl] at hq
      exact (Option.some.inj hq).symm
    have hfields : ∀ {x : Peer S}, x = Registry.observe r.limits sink now p₀ →
        x.firstSeen = p₀.firstSeen ∧ x.lastSeen = now ∧ x.route = p₀.route := by
      rintro x rfl
      unfold Registry.observe
      split
      · exact ⟨rfl, rfl, rfl⟩
      · exact ⟨rfl, rfl, rfl⟩
    refine h.of_heard hnow ?_ ?_ ?_
    · intro q hq
      obtain ⟨hfirst, hlast, -⟩ := hfields (hself q hq)
      rw [hfirst, hlast]
      exact ⟨le_trans (h.born _ _ _ hpeer) hnow, Nat.le_refl now⟩
    · intro b a p' hne hp'
      rw [peer?_observeUdp hpeer] at hp'
      by_cases hb : b = band
      · subst hb
        have hk : PeerKey.udp a ≠ .udp addr := fun heq =>
          hne (Prod.ext rfl (PeerKey.udp.inj heq))
        rw [if_pos rfl] at hp'
        obtain ⟨p, hp, rfl⟩ := map_eq_some_iff.mp hp'
        refine ⟨p, hp, ?_⟩
        rw [if_neg hk]
        split
        · exact superseded_cases _ _ _ _
        · exact .inl rfl
      · rw [if_neg hb] at hp'
        exact ⟨p', hp', .inl rfl⟩
    · intro a p' q' id hne hip hp' hq' heligible hrp hrq
      have hself' := hself p' hp'
      obtain ⟨hfirst, -, hroute⟩ := hfields hself'
      have hk : PeerKey.udp a ≠ .udp addr := fun heq => hne (PeerKey.udp.inj heq)
      rw [peer?_observeUdp hpeer, if_pos rfl] at hq'
      obtain ⟨q, hq, rfl⟩ := map_eq_some_iff.mp hq'
      rw [if_neg hk] at hrq ⊢
      by_cases hpro : Registry.promotes r.limits now p₀ = true
      · -- it has just been validated, and took its id from who was silent
        rw [if_pos hpro, ← hself'] at hrq ⊢
        have hkept : Kept q (superseded (.udp addr) (some p') (.udp a) q) :=
          superseded_cases _ _ _ _
        rw [hkept.lastSeen]
        exact firstSeen_le_of_superseded hne hip heligible hrp hrq
      · rw [if_neg hpro] at hrq ⊢
        rw [hfirst]
        refine h.apart band addr a p₀ q id hpeer hq hne hip ?_ (hroute ▸ hrp) hrq
        have hobserve : Registry.observe r.limits sink now p₀ = p₀.observed now := if_neg hpro
        rw [hself', hobserve] at heligible
        exact heligible

/-- The source of the packet in hand declares an id. -/
theorem declare (h : Timely r clock (some (band, addr))) (id : UInt16) :
    Timely (r.declare band (.udp addr) id) clock none := by
  have hself : ∀ q, (r.declare band (.udp addr) id).peer? band (.udp addr) = some q →
      ∃ p, r.peer? band (.udp addr) = some p ∧ q = Registry.routed id p := by
    intro q hq
    rw [peer?_declare, if_pos rfl] at hq
    obtain ⟨p, hp, rfl⟩ := map_eq_some_iff.mp hq
    exact ⟨p, hp, by rw [superseded_self, if_pos rfl]⟩
  have hother : ∀ b a p', (b, a) ≠ (band, addr) →
      (r.declare band (.udp addr) id).peer? b (.udp a) = some p' →
      ∃ p, r.peer? b (.udp a) = some p ∧ Kept p p' ∧ (b = band →
        p' = superseded (.udp addr) ((r.peer? band (.udp addr)).map (Registry.routed id))
          (.udp a) p) := by
    intro b a p' hne hp'
    rw [peer?_declare] at hp'
    by_cases hb : b = band
    · subst hb
      have hk : PeerKey.udp a ≠ .udp addr := fun heq => hne (Prod.ext rfl (PeerKey.udp.inj heq))
      rw [if_pos rfl] at hp'
      obtain ⟨p, hp, rfl⟩ := map_eq_some_iff.mp hp'
      rw [if_neg hk]
      exact ⟨p, hp, superseded_cases _ _ _ _, fun _ => rfl⟩
    · rw [if_neg hb] at hp'
      exact ⟨p', hp', .inl rfl, fun heq => absurd heq hb⟩
  refine ⟨?_, fun _ _ _ hheld => absurd hheld.symm (some_ne_none _), ?_⟩
  · intro b a p' hp'
    by_cases heq : (b, a) = (band, addr)
    · obtain ⟨rfl, rfl⟩ := Prod.mk.inj heq
      obtain ⟨p, hp, rfl⟩ := hself p' hp'
      exact h.born _ _ p hp
    · obtain ⟨p, hp, hk, -⟩ := hother b a p' heq hp'
      rw [hk.firstSeen]
      exact h.born b a p hp
  · intro b a a' p' q' x hp' hq' hne hip heligible hrp hrq
    by_cases heq : (b, a') = (band, addr)
    · -- it was heard of last, so after the other appeared
      obtain ⟨rfl, rfl⟩ := Prod.mk.inj heq
      obtain ⟨q, hq, rfl⟩ := hself q' hq'
      obtain ⟨p, hp, hk, -⟩ := hother b a p' (fun heq => hne (Prod.mk.inj heq).2.symm) hp'
      rw [hk.firstSeen]
      exact h.fresh _ _ q rfl hq a p hp
    · obtain ⟨q, hq, hkq, hsuper⟩ := hother b a' q' heq hq'
      by_cases heq' : (b, a) = (band, addr)
      · obtain ⟨rfl, rfl⟩ := Prod.mk.inj heq'
        obtain ⟨p, hp, rfl⟩ := hself p' hp'
        rw [hkq.lastSeen]
        rw [hsuper rfl, hp] at hrq
        exact firstSeen_le_of_superseded hne hip heligible hrp hrq
      · obtain ⟨p, hp, hkp, -⟩ := hother b a p' heq' hp'
        exact h.apart_of_kept hp hq hkp hkq hne hip heligible hrp hrq

/-- One operation, at readings no earlier than any before. -/
theorem apply (h : Timely r clock held) (hfollows : op.Follows held)
    (hclock : ∀ t ∈ op.readings, clock ≤ t) (horder : op.readings.Pairwise (· ≤ ·)) :
    ∃ clock', (clock' = clock ∨ clock' ∈ op.readings) ∧
      Timely (r.apply op).registry clock' (op.holding held) := by
  cases op with
  | connect band id sink now later =>
    refine ⟨clock, .inl rfl, h.of_kept (le_rfl) fun b a p hp => ?_⟩
    have hne : PeerKey.udp a ≠ .conn id := PeerKey.noConfusion
    exact ⟨p, (peer?_insert_of_ne hne).symm.trans hp, .inl rfl⟩
  | observeUdp band addr sink now later =>
    refine ⟨now, .inr List.mem_cons_self, h.observeUdp (hclock now List.mem_cons_self) ?_⟩
    exact (List.pairwise_cons.mp horder).1 later (List.mem_singleton.mpr rfl)
  | touch band id now =>
    refine ⟨clock, .inl rfl, h.of_kept (le_rfl) fun b a p hp => ?_⟩
    have hp' : (r.touch band (.conn id) now).registry.peer? b (.udp a) = some p := hp
    rw [peer?_touch, if_neg fun heq => PeerKey.noConfusion heq.2] at hp'
    exact ⟨p, hp', .inl rfl⟩
  | forward band src frame =>
    refine ⟨clock, .inl rfl, ?_⟩
    show Timely (r.forward band src frame).registry clock _
    cases src with
    | udp addr =>
      obtain rfl : held = some (band, addr) := hfollows
      rcases registry_forward r band (.udp addr) frame with heq | ⟨id, heq⟩
      · rw [heq]
        exact ⟨h.born, fun _ _ _ hheld => absurd hheld.symm (some_ne_none _), h.apart⟩
      · rw [heq]
        exact h.declare id
    | conn id =>
      refine h.of_kept (le_rfl) fun b a p hp => ?_
      rcases registry_forward r band (.conn id) frame with heq | ⟨id', heq⟩
      · rw [heq] at hp
        exact ⟨p, hp, .inl rfl⟩
      · rw [heq, peer?_declare] at hp
        split at hp
        · obtain ⟨q, hq, rfl⟩ := map_eq_some_iff.mp hp
          have hne : PeerKey.udp a ≠ .conn id := PeerKey.noConfusion
          rw [if_neg hne]
          exact ⟨q, hq, .inl rfl⟩
        · exact ⟨p, hp, .inl rfl⟩
  | injectFromLink band frame =>
    refine ⟨clock, .inl rfl, ?_⟩
    show Timely (r.injectFromLink band frame).registry clock held
    rw [registry_injectFromLink]
    exact h
  | disconnect band key =>
    refine ⟨clock, .inl rfl, h.of_kept (le_rfl) fun b a p hp => ?_⟩
    have hp' : (r.disconnect band key).registry.peer? b (.udp a) = some p := hp
    rw [peer?_disconnect] at hp'
    exact ⟨p, (ite_none_left_eq_some.mp hp').2, .inl rfl⟩
  | prune ttl now =>
    refine ⟨clock, .inl rfl, h.of_kept (le_rfl) fun b a p hp => ?_⟩
    have hp' : (r.pruned ttl now).peer? b (.udp a) = some p := hp
    rw [peer?_pruned] at hp'
    exact ⟨p, (filter_eq_some_iff.mp hp').1, .inl rfl⟩

theorem run : ∀ (ops : List (Op S)) (r : Registry S) (clock : Nat)
    (held : Option (BandId × SocketAddr)), Timely r clock held → Driven held ops →
    (∀ t ∈ ops.flatMap Op.readings, clock ≤ t) → (ops.flatMap Op.readings).Pairwise (· ≤ ·) →
    ∃ clock' held', Timely (r.run ops) clock' held' := by
  intro ops
  induction ops with
  | nil => exact fun r clock held h _ _ _ => ⟨clock, held, h⟩
  | cons op ops ih =>
    intro r clock held h hdriven hclock horder
    rw [List.flatMap_cons] at hclock horder
    obtain ⟨hhead, htail, hsep⟩ := List.pairwise_append.mp horder
    obtain ⟨clock', hfrom, h'⟩ := h.apply hdriven.1
      (fun t ht => hclock t (List.mem_append_left _ ht)) hhead
    refine ih (r.apply op).registry clock' (op.holding held) h' hdriven.2 ?_ htail
    intro t ht
    rcases hfrom with rfl | hmem
    · exact hclock t (List.mem_append_right _ ht)
    · exact hsep clock' hmem t ht

end Timely

/-- An id follows its holder to a new port: an entry that fell silent before an eligible one of its
IP appeared does not hold that one's id, and only such an entry loses an id to another. -/
theorem nat_rebind {fed : Bool} {ops : List (Op S)} (hdriven : Driven none ops)
    (hclock : (ops.flatMap Op.readings).Pairwise (· ≤ ·)) :
    (∀ b a a' p q id, ((Registry.new limits fed).run ops).peer? b (.udp a) = some p →
      ((Registry.new limits fed).run ops).peer? b (.udp a') = some q → a' ≠ a → a'.ip = a.ip →
      p.eligible = true → p.route = some id → q.route = some id → ¬ q.lastSeen < p.firstSeen) ∧
    (∀ op b k k' q, op.source = some k' → k' ≠ k →
      ((Registry.new limits fed).run ops).peer? b k = some q →
      (((Registry.new limits fed).run ops).apply op).registry.peer? b k ≠ some q →
      ∃ p, (((Registry.new limits fed).run ops).apply op).registry.peer? b k' = some p ∧
        q.lastSeen < p.firstSeen) := by
  constructor
  · obtain ⟨clock, held, h⟩ := Timely.run ops (Registry.new limits fed) 0 none timely_new hdriven
      (fun t _ => Nat.zero_le t) hclock
    intro b a a' p q id hp hq hne hip heligible hrp hrq
    exact not_lt.mpr (h.apart b a a' p q id hp hq hne hip heligible hrp hrq)
  · intro op b k k' q hsource hne hq hlost
    exact lastSeen_lt_of_changed hsource hne hq hlost

/-- A peer declares the id 7, is validated and falls silent; its packets come back from another
port, which declares 7 before it is validated. -/
def moved : List (Op Nat) :=
  let declare7 := zeroBand.bytes ++ [5, 0, 7] ++ List.replicate 24 0
  [.observeUdp zeroBand ⟨9, 40⟩ 1 1 2, .forward zeroBand (.udp ⟨9, 40⟩) declare7,
   .observeUdp zeroBand ⟨9, 40⟩ 1 3 3, .forward zeroBand (.udp ⟨9, 40⟩) declare7,
   .observeUdp zeroBand ⟨9, 41⟩ 2 5 5, .connect zeroBand 1 3 6 6,
   .forward zeroBand (.udp ⟨9, 41⟩) declare7, .observeUdp zeroBand ⟨9, 41⟩ 2 7 7]

theorem nat_rebind_moved :
    ∃ p q, ((Registry.new ⟨4, 4, 2⟩ false).run moved).peer? zeroBand (.udp ⟨9, 41⟩) = some p ∧
      p.route = some 7 ∧
      ((Registry.new ⟨4, 4, 2⟩ false).run moved).peer? zeroBand (.udp ⟨9, 40⟩) = some q ∧
      q.lastSeen < p.firstSeen ∧ q.route ≠ some 7 := by
  have hnew : ((((Registry.new ⟨4, 4, 2⟩ false).run moved).peer? zeroBand (.udp ⟨9, 41⟩)).any
      fun p => decide (p.eligible = true ∧ p.route = some 7 ∧ p.firstSeen = 5)) = true := by
    decide +kernel
  have hold : ((((Registry.new ⟨4, 4, 2⟩ false).run moved).peer? zeroBand (.udp ⟨9, 40⟩)).any
      fun q => decide (q.lastSeen < 5)) = true := by
    decide +kernel
  obtain ⟨p, hp, heligible, hroute, hfirst⟩ := some_of_any hnew
  obtain ⟨q, hq, hlast⟩ := some_of_any hold
  have hlt : q.lastSeen < p.firstSeen := hfirst ▸ hlast
  refine ⟨p, q, hp, hroute, hq, hlt, fun hheld => ?_⟩
  exact (@nat_rebind Nat ⟨4, 4, 2⟩ false moved (by decide +kernel) (by decide +kernel)).1
    zeroBand ⟨9, 41⟩ ⟨9, 40⟩ p q 7 hp hq (by decide) rfl heligible hroute hheld hlt

end Telesthete.Relay
