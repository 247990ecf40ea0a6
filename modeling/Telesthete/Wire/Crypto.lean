import Telesthete.Lib.Bytes

/-!
# Keys, suites and ideal AEAD (SPEC §3)

Key derivation, cipher selection and the two AEAD suites. HKDF, SHA-256 and
the ciphers themselves are taken as ideal, in the usual symbolic way: a
derived key is named by the secret and the info string it was derived from,
a band id by its secret, and a ciphertext by everything that went into it,
so that it opens under the suite, key, nonce and associated data that sealed
it and under nothing else.

What is not assumed is that different purposes use different info strings:
`deriveSessionKey_inj` and `deriveSessionKey_ne_deriveKey` read that off the
strings the code builds, whatever text a peer sent as a cipher id.
-/

namespace Telesthete.Crypto

open Telesthete.Lib

/-- The mandatory AEAD suite every conformant peer implements (§3.2). -/
def baselineCipher : String := "chacha20-poly1305"

/-- The UTF-8 bytes of a string. -/
def utf8 (s : String) : Bytes := s.toByteArray.data.toList

theorem utf8_inj {s t : String} (h : utf8 s = utf8 t) : s = t := by
  have hdata : s.toByteArray.data = t.toByteArray.data := Array.toList_inj.mp h
  exact String.toByteArray_inj.mp (ByteArray.ext hdata)

/-- `SHA256(psk)[:16]`, named by the secret. -/
structure BandId where
  psk : Bytes
deriving DecidableEq, Repr

/-- An output of HKDF-SHA256 with the band's salt, named by its inputs. -/
structure Key where
  psk : Bytes
  info : Bytes
deriving DecidableEq, Repr

def deriveBandId (psk : Bytes) : BandId := ⟨psk⟩

def deriveKeyFor (psk : Bytes) (cipherId : String) : Key :=
  ⟨psk, utf8 "encryption-" ++ utf8 cipherId⟩

/-- The base key: the baseline suite's, with no epoch in it (§3.1). -/
def deriveKey (psk : Bytes) : Key := deriveKeyFor psk baselineCipher

/-- The per-session data key (§3.1): the sender's epoch is a fixed 8-byte
suffix of the info string. -/
def deriveSessionKey (psk : Bytes) (cipherId : String) (session : UInt64) : Key :=
  ⟨psk, utf8 "encryption-" ++ utf8 cipherId ++ utf8 "-session-" ++ toBe 8 session.toNat⟩

/-- The cipher id and the epoch can be read back off a session key. -/
theorem deriveSessionKey_inj {psk psk' : Bytes} {c c' : String} {e e' : UInt64}
    (h : deriveSessionKey psk c e = deriveSessionKey psk' c' e') :
    psk = psk' ∧ c = c' ∧ e = e' := by
  obtain ⟨hpsk, hinfo⟩ := Key.mk.inj h
  obtain ⟨hhead, hepoch⟩ := List.append_inj' hinfo (by simp)
  obtain ⟨hname, -⟩ := List.append_inj' hhead rfl
  have hc : c = c' := utf8_inj (List.append_cancel_left hname)
  have he : e.toNat = e'.toNat := by
    have hval := congrArg ofBe hepoch
    rwa [ofBe_toBe (by simpa using e.toNat_lt), ofBe_toBe (by simpa using e'.toNat_lt)] at hval
  exact ⟨hpsk, hc, UInt64.toNat_inj.mp he⟩

/-- The epoch in a session key. -/
def Key.epoch (k : Key) : UInt64 := UInt64.ofNat (ofBe (k.info.drop (k.info.length - 8)))

@[simp] theorem epoch_deriveSessionKey (psk : Bytes) (c : String) (e : UInt64) :
    (deriveSessionKey psk c e).epoch = e := by
  have hlen : ∀ l : Bytes, (l ++ toBe 8 e.toNat).length - 8 = l.length := by simp
  simp only [Key.epoch, deriveSessionKey, hlen, List.drop_left,
    ofBe_toBe (show e.toNat < 256 ^ 8 by simpa using e.toNat_lt), UInt64.ofNat_toNat]

/-- No session key is a base key: the base info string is too short to end
in the session suffix. -/
theorem deriveSessionKey_ne_deriveKey {psk psk' : Bytes} {c : String} {e : UInt64} :
    deriveSessionKey psk c e ≠ deriveKey psk' := by
  intro h
  obtain ⟨-, hinfo⟩ := Key.mk.inj h
  simp only [List.append_assoc] at hinfo
  have hrest := List.append_cancel_left hinfo
  have hlen : (utf8 c).length = 0 := by
    have hl := congrArg List.length hrest
    simp only [List.length_append, length_toBe] at hl
    have h9 : (utf8 "-session-").length = 9 := rfl
    have h17 : (utf8 baselineCipher).length = 17 := rfl
    omega
  rw [List.length_eq_zero_iff.mp hlen, List.nil_append] at hrest
  have hfirst : some (45 : UInt8) = some 99 := congrArg List.head? hrest
  exact absurd hfirst (by decide)

/-- AEAD suites (§3.2). -/
inductive Suite where
  | chaCha20Poly1305
  | aes256Gcm
deriving DecidableEq, Repr

namespace Suite

/-- Map a `cipher_id` to a suite (`none` for unknown ids). -/
def fromId (cipherId : String) : Option Suite :=
  if cipherId = "chacha20-poly1305" then some .chaCha20Poly1305
  else if cipherId = "aes256-gcm" then some .aes256Gcm
  else none

end Suite

/-- The suite a committed cipher id is registered with: unknown ids get the
baseline suite (under a key that still carries the unknown id). -/
def suiteFor (committed : String) : Suite :=
  (Suite.fromId committed).getD .chaCha20Poly1305

/-- The negotiated suite (§3.5): the first of the initiator's preferences
that is the baseline or that the responder also lists. -/
def selectCipher (initiatorPrefs responderSupported : List String) : String :=
  (initiatorPrefs.find? fun cid =>
    cid = baselineCipher ∨ cid ∈ responderSupported).getD baselineCipher

theorem selectCipher_mem (initiator responder : List String) :
    selectCipher initiator responder = baselineCipher ∨
      selectCipher initiator responder ∈ initiator ∧
        selectCipher initiator responder ∈ responder := by
  unfold selectCipher
  cases hfind : initiator.find? fun cid => cid = baselineCipher ∨ cid ∈ responder with
  | none => exact .inl rfl
  | some cid =>
    have hmem := List.mem_of_find?_eq_some hfind
    have hok := List.find?_some hfind
    rcases of_decide_eq_true hok with hbase | hresp
    · exact .inl hbase
    · exact .inr ⟨hmem, hresp⟩

/-- The 12-byte nonce: 4 zero bytes, then the sequence (§3.2). -/
def nonceBytes (seq : Nat) : Bytes := [0, 0, 0, 0] ++ toBe 8 seq

/-- 3-byte associated data: `[channel_type, channel_id_hi, channel_id_lo]`. -/
def buildAad (channelType : UInt8) (channelId : UInt16) : Bytes :=
  [channelType, (channelId >>> 8).toUInt8, channelId.toUInt8]

/-- What an ideal AEAD outputs. -/
structure Ciphertext (π : Type) where
  suite : Suite
  key : Key
  nonce : Bytes
  aad : Bytes
  plaintext : π
deriving DecidableEq, Repr

variable {π : Type}

def encryptSuite (suite : Suite) (key : Key) (seq : Nat) (aad : Bytes) (plaintext : π) :
    Ciphertext π :=
  ⟨suite, key, nonceBytes seq, aad, plaintext⟩

def decryptSuite (suite : Suite) (key : Key) (seq : Nat) (aad : Bytes) (c : Ciphertext π) :
    Option π :=
  if c.suite = suite ∧ c.key = key ∧ c.nonce = nonceBytes seq ∧ c.aad = aad then
    some c.plaintext
  else none

end Telesthete.Crypto
