import Telesthete.Lib.Bytes
import Mathlib.Data.Multiset.AddSub

/-!
# Ideal cryptography: symbolic messages, and encryption of byte strings

Messages are terms. Exponentiation in a group commutes: `pow x t` collects exponents
in a multiset, so the order of two of them is lost and nothing else is. A key
derivation and a message authentication code are free constructors: their outputs are
equal only if their inputs are.

`Derives K t` says that an attacker who has seen the terms `K` can make `t`: it can
take pairs apart, exponentiate by an exponent it knows, and apply the two functions to
what it has. It cannot invert them. `Public` is an upper bound for what it makes: a
set of terms that contains no secret atom and no code under a key made from one, the
codes that were released excepted, and that derivation does not leave.
-/

namespace Telesthete.Lib

inductive Term (α : Type) where
  | atom (a : α)
  | const (bytes : Bytes)
  | pair (s t : Term α)
  | exp (base : Term α) (exponents : Multiset α)
  | kdf (slot : Nat) (ikm salt info : Term α)
  | mac (key msg : Term α)

namespace Term

variable {α : Type}

/-- Equality of terms, by computation; the multisets in them keep it from being derived. -/
def same [DecidableEq α] : Term α → Term α → Bool
  | atom a, atom b => a = b
  | const bs, const bs' => bs = bs'
  | pair s t, pair s' t' => same s s' && same t t'
  | exp base xs, exp base' xs' => same base base' && xs = xs'
  | kdf slot ikm salt info, kdf slot' ikm' salt' info' =>
    slot = slot' && same ikm ikm' && same salt salt' && same info info'
  | mac key msg, mac key' msg' => same key key' && same msg msg'
  | _, _ => false

theorem same_iff [DecidableEq α] (s : Term α) : ∀ t, same s t = true ↔ s = t := by
  induction s with
  | atom a => intro t; cases t <;> simp [same]
  | const bs => intro t; cases t <;> simp [same]
  | pair s t ihs iht => intro u; cases u <;> simp [same, ihs, iht]
  | exp base xs ih => intro t; cases t <;> simp [same, ih]
  | kdf slot ikm salt info ih ihs ihf =>
    intro t
    cases t <;> simp [same, ih, ihs, ihf, and_assoc]
  | mac key msg ihk ihm => intro t; cases t <;> simp [same, ihk, ihm]

instance decidableEqTerm [DecidableEq α] : DecidableEq (Term α) :=
  fun s t => decidable_of_iff (same s t = true) (same_iff s t)

/-- A group element to the power of `x`. -/
def pow (x : α) : Term α → Term α
  | exp base exponents => exp base (x ::ₘ exponents)
  | t => exp t {x}

/-- What an attacker makes of the terms it has seen. -/
inductive Derives (K : Term α → Prop) : Term α → Prop where
  | seen {t : Term α} : K t → Derives K t
  | const (bytes : Bytes) : Derives K (.const bytes)
  | pair {s t : Term α} : Derives K s → Derives K t → Derives K (.pair s t)
  | fst {s t : Term α} : Derives K (.pair s t) → Derives K s
  | snd {s t : Term α} : Derives K (.pair s t) → Derives K t
  | pow {x : α} {t : Term α} : Derives K (.atom x) → Derives K t → Derives K (.pow x t)
  | kdf {ikm salt info : Term α} (slot : Nat) : Derives K ikm → Derives K salt →
      Derives K info → Derives K (.kdf slot ikm salt info)
  | mac {key msg : Term α} : Derives K key → Derives K msg → Derives K (.mac key msg)

/-- No secret atom is in sight, and only released codes are under a key made from one. -/
def Public (secret : α → Prop) (released : Term α → Prop) : Term α → Prop
  | atom a => ¬ secret a
  | const _ => True
  | pair s t => s.Public secret released ∧ t.Public secret released
  | exp base _ => base.Public secret released
  | kdf _ ikm salt info =>
    ikm.Public secret released ∧ salt.Public secret released ∧ info.Public secret released
  | mac key msg =>
    (key.Public secret released ∧ msg.Public secret released) ∨ released (.mac key msg)

variable {secret : α → Prop} {released released' : Term α → Prop} {K : Term α → Prop}

theorem Public.pow {t : Term α} (h : t.Public secret released) (x : α) :
    (Term.pow x t).Public secret released := by
  cases t <;> exact h

theorem Public.mono {t : Term α} (h : t.Public secret released)
    (hsub : ∀ u, released u → released' u) : t.Public secret released' := by
  induction t with
  | atom a => exact h
  | const bytes => exact h
  | pair s t ihs iht => exact ⟨ihs h.1, iht h.2⟩
  | exp base exponents ih => exact ih h
  | kdf slot ikm salt info ih ihs ihi => exact ⟨ih h.1, ihs h.2.1, ihi h.2.2⟩
  | mac key msg ihk ihm =>
    rcases h with h | h
    · exact .inl ⟨ihk h.1, ihm h.2⟩
    · exact .inr (hsub _ h)

/-- The attacker never leaves what is public. -/
theorem Derives.isPublic {t : Term α} (h : Derives K t)
    (hseen : ∀ u, K u → u.Public secret released) : t.Public secret released := by
  induction h with
  | seen hK => exact hseen _ hK
  | const bytes => exact trivial
  | pair _ _ ihs iht => exact ⟨ihs, iht⟩
  | fst _ ih => exact ih.1
  | snd _ ih => exact ih.2
  | pow _ _ _ iht => exact iht.pow _
  | kdf slot _ _ _ ihi ihs ihf => exact ⟨ihi, ihs, ihf⟩
  | mac _ _ ihk ihm => exact .inl ⟨ihk, ihm⟩

/-- A code under a key that is not public was released by someone who has the key. -/
theorem Derives.mac_released {key msg : Term α} (h : Derives K (.mac key msg))
    (hseen : ∀ u, K u → u.Public secret released) (hkey : ¬ key.Public secret released) :
    released (.mac key msg) := by
  rcases h.isPublic hseen with hmade | hreleased
  · exact absurd hmade.1 hkey
  · exact hreleased

end Term

/-! ## Ideal authenticated encryption

Where messages are byte strings, an AEAD scheme is a pair of functions, and encrypting may be
refused. It is ideal when decrypting succeeds on exactly what encrypting the answer gives. That
says nothing about two keys: for those there are `Apart` and, which is less, `Separated`. -/

structure Aead (S K : Type) where
  encrypt : S → K → Bytes → Bytes → Bytes → Option Bytes
  decrypt : S → K → Bytes → Bytes → Bytes → Option Bytes

namespace Aead

variable {S K : Type}

/-- Decryption inverts encryption and accepts nothing else; a tag of fixed length is added. -/
structure Ideal (A : Aead S K) (tagLen : Nat) : Prop where
  decrypt_iff : ∀ {s k nonce aad c p},
    A.decrypt s k nonce aad c = some p ↔ A.encrypt s k nonce aad p = some c
  length : ∀ {s k nonce aad p c},
    A.encrypt s k nonce aad p = some c → c.length = p.length + tagLen

/-- No ciphertext stands for two plaintexts under the two keys. -/
def Separated (A : Aead S K) (x y : S × K) : Prop :=
  ∀ nonce aad p q c, A.encrypt x.1 x.2 nonce aad p = some c →
    A.encrypt y.1 y.2 nonce aad q = some c → p = q

/-- No ciphertext comes from both keys. -/
def Apart (A : Aead S K) (x y : S × K) : Prop :=
  ∀ nonce aad p q c, A.encrypt x.1 x.2 nonce aad p = some c →
    A.encrypt y.1 y.2 nonce aad q ≠ some c

theorem Apart.separated {A : Aead S K} {x y : S × K} (h : A.Apart x y) : A.Separated x y :=
  fun nonce aad p q c hp hq => absurd hq (h nonce aad p q c hp)

end Aead

end Telesthete.Lib
