import Mathlib.Order.Defs.Unbundled
import Telesthete.Lib.HighWater
import Telesthete.Lib.NumberedLog

/-!
# Acceptance across sessions

A receiver knows for each key the session of the sender it is in, and within
the session admits sequences by a high-water mark. When a sender starts a newer
session its mark may be dropped, since no packet of an older session is
accepted any more. What is accepted for a key is then strictly increasing in
the session, and within a session in the sequence.

`Guarded` is the invariant that says so: `Guarded.raise` is a packet of the
current session, `Guarded.restart` a newer session.
-/

namespace Telesthete.Lib.SessionLog

variable {κ E π : Type*} [DecidableEq κ] [LT E]

section Defs

variable (epoch : π → E) (seq : π → Nat)

/-- Of one key, `q` is of a later session than `p`, or of the same and has a
higher sequence. -/
def Before (p q : κ × π) : Prop :=
  p.1 = q.1 → epoch p.2 < epoch q.2 ∨ epoch p.2 = epoch q.2 ∧ seq p.2 < seq q.2

/-- The session of `p` is over, or the mark covers it. -/
def Spent (sessions : AList fun _ : κ => E) (marks : AList fun _ : κ => Nat) (p : κ × π) : Prop :=
  ∃ s, sessions.lookup p.1 = some s ∧
    (epoch p.2 < s ∨ epoch p.2 = s ∧ HighWater.Covers marks p.1 (seq p.2))

/-- What was accepted came in order and cannot be accepted again. -/
structure Guarded (sessions : AList fun _ : κ => E) (marks : AList fun _ : κ => Nat)
    (accepted : List (κ × π)) : Prop where
  order : accepted.Pairwise (Before epoch seq)
  spent : ∀ p ∈ accepted, Spent epoch seq sessions marks p

end Defs

variable {epoch : π → E} {seq : π → Nat} {sessions : AList fun _ : κ => E}
  {marks marks' : AList fun _ : κ => Nat} {accepted : List (κ × π)} {key : κ} {p : π} {s : E}

theorem Guarded.nil : Guarded epoch seq sessions marks [] :=
  ⟨.nil, fun _ h => absurd h List.not_mem_nil⟩

theorem Guarded.append (h : Guarded epoch seq sessions marks accepted)
    (hbefore : ∀ q ∈ accepted, Before epoch seq q (key, p))
    (hspent : Spent epoch seq sessions marks (key, p)) :
    Guarded epoch seq sessions marks (accepted ++ [(key, p)]) := by
  refine ⟨List.pairwise_append.mpr ⟨h.order, List.pairwise_singleton _ _, ?_⟩, ?_⟩
  · intro q hq r hr
    rw [List.mem_singleton.mp hr]
    exact hbefore q hq
  · exact forall_mem_snoc h.spent hspent

/-- A packet of the current session above the mark. -/
theorem Guarded.raise (h : Guarded epoch seq sessions marks accepted)
    (hsession : sessions.lookup key = some (epoch p))
    (hraise : HighWater.raise marks key (seq p) = some marks') :
    Guarded epoch seq sessions marks' (accepted ++ [(key, p)]) := by
  have hkept : Guarded epoch seq sessions marks' accepted := by
    refine ⟨h.order, fun q hq => ?_⟩
    obtain ⟨s, hs, hspent⟩ := h.spent q hq
    exact ⟨s, hs, hspent.imp_right fun ⟨heq, hcovers⟩ => ⟨heq, hcovers.raise hraise⟩⟩
  refine hkept.append (fun q hq hkey => ?_)
    ⟨epoch p, hsession, .inr ⟨rfl, HighWater.covers_of_raise hraise⟩⟩
  obtain ⟨s, hs, hspent⟩ := h.spent q hq
  rw [hkey, hsession] at hs
  cases hs
  rw [hkey] at hspent
  exact hspent.imp_right fun ⟨heq, hcovers⟩ => ⟨heq, hcovers.lt_of_raise hraise⟩

variable [IsStrictOrder E (· < ·)]

/-- What is spent is of an older session than a newer one. -/
theorem Spent.lt_of_newer {q : κ × π} (h : Spent epoch seq sessions marks q) (hkey : q.1 = key)
    (hnewer : ∀ t, sessions.lookup key = some t → t < s) : epoch q.2 < s := by
  obtain ⟨t, ht, hspent⟩ := h
  rw [hkey] at ht
  rcases hspent with hlt | ⟨heq, -⟩
  · exact IsTrans.trans _ _ _ hlt (hnewer t ht)
  · rw [heq]
    exact hnewer t ht

/-- A newer session; the mark of its key is free to change. -/
theorem Guarded.restart (h : Guarded epoch seq sessions marks accepted)
    (hnewer : ∀ t, sessions.lookup key = some t → t < s)
    (hmarks : ∀ k, k ≠ key → marks'.lookup k = marks.lookup k) :
    Guarded epoch seq (sessions.insert key s) marks' accepted := by
  refine ⟨h.order, fun q hq => ?_⟩
  by_cases hkey : q.1 = key
  · exact ⟨s, by rw [hkey, AList.lookup_insert], .inl ((h.spent q hq).lt_of_newer hkey hnewer)⟩
  · obtain ⟨t, ht, hspent⟩ := h.spent q hq
    refine ⟨t, by rw [AList.lookup_insert_ne hkey, ht], hspent.imp_right ?_⟩
    rintro ⟨heq, mark, hmark, hle⟩
    exact ⟨heq, mark, by rw [hmarks q.1 hkey, hmark], hle⟩

/-- The first packet of a newer session. -/
theorem Guarded.start (h : Guarded epoch seq sessions marks accepted)
    (hnewer : ∀ t, sessions.lookup key = some t → t < epoch p) :
    Guarded epoch seq (sessions.insert key (epoch p)) (marks.insert key (seq p))
      (accepted ++ [(key, p)]) := by
  have hrestart : Guarded epoch seq (sessions.insert key (epoch p)) (marks.insert key (seq p))
      accepted := h.restart hnewer fun k hk => AList.lookup_insert_ne hk
  exact hrestart.append (fun q hq hkey => .inl ((h.spent q hq).lt_of_newer hkey hnewer))
    ⟨epoch p, AList.lookup_insert _, .inr ⟨rfl, seq p, AList.lookup_insert _, le_rfl⟩⟩

/-- Nothing is accepted twice. -/
theorem Guarded.nodup (h : Guarded epoch seq sessions marks accepted) : accepted.Nodup := by
  refine h.order.imp ?_
  rintro p q hbefore rfl
  rcases hbefore rfl with hlt | ⟨-, hlt⟩
  · exact irrefl _ hlt
  · exact lt_irrefl _ hlt

end Telesthete.Lib.SessionLog
