import Telesthete.Band.Raw
import Telesthete.Lib.Assoc

/-!
# What the receive loop dispatches

Parsing a header and writing it are inverse to each other, and for an ideal AEAD
so are decrypting and encrypting. Decoding a packet under a key therefore
succeeds on exactly what encoding under that key gives, byte for byte
(`decodePacketSuite_iff`). The band id is in neither the nonce nor the
associated data, but it is in the header, which is among those bytes, and the
loop compares it.

Two keys are tried, and the first that opens the packet decides. Which packets
the loop dispatches thus depends on more than the key that sealed them, unless
the two keys are separated.
-/

namespace Telesthete.Band.Raw

open Telesthete.Lib Telesthete.Crypto Telesthete.Wire Telesthete.Relay List

theorem toU8_of_fromU8 : ∀ b : UInt8, ∀ t ∈ ChannelType.fromU8 b, t.toU8 = b :=
  forall_byte (by decide +kernel)

namespace Header

theorem length_write (h : Header) : h.write.length = headerLen := by
  simp only [write, length_append, h.bandId.length_bytes, length_toBe, length_cons,
    length_nil, bandIdLen, headerLen]

/-- Where the fields of a written header are. -/
theorem write_fields (h : Header) (ct : Bytes) :
    slice (h.write ++ ct) 0 16 = h.bandId.bytes ∧
      (h.write ++ ct).getD 16 0 = h.channelType.toU8 ∧
      slice (h.write ++ ct) 17 19 = toBe 2 h.channelId.toNat ∧
      slice (h.write ++ ct) 19 27 = toBe 8 h.sequence.toNat := by
  have hband : h.bandId.bytes.length = 16 := h.bandId.length_bytes
  have hbytes : h.write ++ ct = h.bandId.bytes ++ ([h.channelType.toU8] ++
      (toBe 2 h.channelId.toNat ++ (toBe 8 h.sequence.toNat ++ ct))) := by
    simp only [write, append_assoc]
  rw [hbytes]
  refine ⟨?_, getD_append hband 0, ?_, ?_⟩
  · exact slice_append (a := []) (b := h.bandId.bytes) rfl (by rw [hband])
  · rw [← append_assoc]
    exact slice_append (by simp [hband]) (by rw [length_toBe])
  · rw [← append_assoc, ← append_assoc]
    exact slice_append (by simp [hband]) (by rw [length_toBe])

theorem parse_write (h : Header) (ct : Bytes) : parse (h.write ++ ct) = .ok h := by
  obtain ⟨hband, htype, hid, hseq⟩ := h.write_fields ct
  have hlen : ¬ (h.write ++ ct).length < headerLen := by
    rw [length_append, length_write]
    omega
  have htype' : ChannelType.fromU8 ((h.write ++ ct).getD 16 0) = some h.channelType := by
    rw [htype, ChannelType.fromU8_toU8]
  rw [parse, dif_neg hlen]
  simp only [htype', hband, hid, hseq, ofBe_uint16, ofBe_uint64]

/-- Every input long enough, with a known type, starts with the bytes of a header. -/
theorem exists_write {input : Bytes} {t : ChannelType} (hlen : headerLen ≤ input.length)
    (ht : ChannelType.fromU8 (input.getD 16 0) = some t) :
    ∃ h ct, input = write h ++ ct := by
  simp only [headerLen] at hlen
  obtain ⟨band, tail, hband, rfl⟩ := exists_append input 16 (by omega)
  rw [getD_append hband 0] at ht
  rw [length_append, hband] at hlen
  obtain ⟨b, tail, rfl⟩ := exists_cons_of_length_pos (l := tail) (by omega)
  rw [length_cons] at hlen
  obtain ⟨id, tail, hid, rfl⟩ := exists_append tail 2 (by omega)
  rw [length_append, hid] at hlen
  obtain ⟨seq, ct, hseq, rfl⟩ := exists_append tail 8 (by omega)
  have hb : t.toU8 = b := toU8_of_fromU8 b t ht
  refine ⟨⟨⟨band, hband⟩, t, UInt16.ofNat (ofBe id), UInt64.ofNat (ofBe seq)⟩, ct, ?_⟩
  simp only [write, hb, toBe_uint16 hid, toBe_uint64 hseq, append_assoc, cons_append,
    nil_append]

/-- A header is parsed off exactly the inputs that start with its bytes. -/
theorem parse_eq_ok_iff {input : Bytes} {h : Header} :
    parse input = .ok h ↔ ∃ ct, input = h.write ++ ct := by
  constructor
  · intro hparse
    obtain ⟨h', ct, rfl⟩ : ∃ h' ct, input = write h' ++ ct := by
      rw [parse] at hparse
      split at hparse
      · cases hparse
      · next hlen =>
        cases ht : ChannelType.fromU8 (input.getD 16 0) with
        | none =>
          rw [ht] at hparse
          cases hparse
        | some t => exact exists_write (not_lt.mp hlen) ht
    rw [parse_write] at hparse
    obtain rfl := Except.ok.inj hparse
    exact ⟨ct, rfl⟩
  · rintro ⟨ct, rfl⟩
    exact parse_write h ct

/-- A hub reads off a packet what its sender wrote into the header. -/
theorem routeInfo_write (h : Header) {ct : Bytes} (hct : tagLen ≤ ct.length) :
    routeInfo (h.write ++ ct) = some ⟨h.bandId, some h.channelType, h.channelId⟩ := by
  obtain ⟨hband, htype, hid, -⟩ := h.write_fields ct
  have hlen : minPacketLen ≤ (h.write ++ ct).length := by
    rw [length_append, length_write]
    exact Nat.add_le_add_left hct headerLen
  have hpair : slice (h.write ++ ct) 17 19 =
      [(h.write ++ ct).getD 17 0, (h.write ++ ct).getD 18 0] := by
    simp only [minPacketLen] at hlen
    rw [slice, take_drop_two (by omega)]
  have hband' : (h.write ++ ct).take bandIdLen = h.bandId.bytes := hband
  simp only [routeInfo, dif_pos hlen, htype, ChannelType.fromU8_toU8, ← hpair, hid, ofBe_uint16,
    hband']

end Header

section codec

variable {K : Type} {A : Aead Suite K} {suite : Suite} {key : K} {packet plaintext : Bytes}
  {header : Header}

theorem encodePacketSuite_eq_ok_iff :
    encodePacketSuite A suite key header plaintext = .ok packet ↔
      ∃ ct, A.encrypt suite key (nonceBytes header.sequence.toNat) header.aad plaintext = some ct ∧
        packet = header.write ++ ct := by
  rw [encodePacketSuite]
  cases A.encrypt suite key (nonceBytes header.sequence.toNat) header.aad plaintext with
  | none =>
    refine iff_of_false (fun h => by cases h) ?_
    rintro ⟨ct, h, -⟩
    cases h
  | some ct =>
    constructor
    · intro h
      exact ⟨ct, rfl, (Except.ok.inj h).symm⟩
    · rintro ⟨ct', hct, rfl⟩
      cases hct
      rfl

theorem decodePacketSuite_eq_ok_iff :
    decodePacketSuite A suite key packet = .ok (header, plaintext) ↔
      minPacketLen ≤ packet.length ∧ Header.parse packet = .ok header ∧
        A.decrypt suite key (nonceBytes header.sequence.toNat) header.aad
          (packet.drop headerLen) = some plaintext := by
  rw [decodePacketSuite]
  by_cases hshort : packet.length < minPacketLen
  · rw [if_pos hshort]
    exact iff_of_false (fun h => by cases h) fun h => not_le.mpr hshort h.1
  rw [if_neg hshort, and_iff_right (not_lt.mp hshort)]
  cases Header.parse packet with
  | error e => exact iff_of_false (fun h => by cases h) fun h => by cases h.1
  | ok header' =>
    show ((A.decrypt suite key _ _ _).elim _ fun p => Except.ok (header', p)) = _ ↔ _
    cases hopen : A.decrypt suite key (nonceBytes header'.sequence.toNat) header'.aad
        (packet.drop headerLen) with
    | none =>
      refine iff_of_false (fun h => by cases h) ?_
      rintro ⟨h, hsome⟩
      cases h
      rw [hopen] at hsome
      cases hsome
    | some p =>
      constructor
      · intro h
        cases h
        exact ⟨rfl, hopen⟩
      · rintro ⟨h, hsome⟩
        cases h
        rw [hopen] at hsome
        cases hsome
        rfl

/-- Decoding under a key succeeds on exactly what encoding under it gives. -/
theorem decodePacketSuite_iff (hA : A.Ideal tagLen) :
    decodePacketSuite A suite key packet = .ok (header, plaintext) ↔
      encodePacketSuite A suite key header plaintext = .ok packet := by
  rw [encodePacketSuite_eq_ok_iff, decodePacketSuite_eq_ok_iff, Header.parse_eq_ok_iff]
  constructor
  · rintro ⟨-, ⟨ct, rfl⟩, hopen⟩
    rw [drop_left' header.length_write] at hopen
    exact ⟨ct, hA.decrypt_iff.mp hopen, rfl⟩
  · rintro ⟨ct, hct, rfl⟩
    have hlen := hA.length hct
    refine ⟨?_, ⟨ct, rfl⟩, ?_⟩
    · rw [length_append, Header.length_write, hlen]
      simp only [minPacketLen, headerLen, tagLen]
      omega
    · rw [drop_left' header.length_write]
      exact hA.decrypt_iff.mpr hct

/-- Headers of one packet are equal, whatever sealed it. -/
theorem header_eq_of_encode {suite' : Suite} {key' : K} {header' : Header} {plaintext' : Bytes}
    (h : encodePacketSuite A suite key header plaintext = .ok packet)
    (h' : encodePacketSuite A suite' key' header' plaintext' = .ok packet) : header' = header := by
  obtain ⟨ct, -, rfl⟩ := encodePacketSuite_eq_ok_iff.mp h
  obtain ⟨ct', -, heq⟩ := encodePacketSuite_eq_ok_iff.mp h'
  exact Except.ok.inj ((Header.parse_eq_ok_iff.mpr ⟨ct', heq⟩).symm.trans
    (Header.parse_write header ct))

end codec

/-! ## Packets that remember what they were made from

The packets of `Wire.Framing` are these, seen through an AEAD whose keys are apart: decoding one is
decoding its bytes. -/

section symbolic

variable {A : Aead Suite Key} (bandBytes : Crypto.BandId → Relay.BandId)

/-- The header on the wire, for a way to hash secrets into band ids. -/
def rawHeader (h : Wire.Header) : Header :=
  ⟨bandBytes h.bandId, h.channelType, h.channelId, UInt64.ofNat h.sequence⟩

/-- The bytes spell the packet: its ciphertext was made as its header says, and they are what
encoding gives. -/
structure Spells (A : Aead Suite Key) (bytes : Bytes) (packet : Packet Bytes) : Prop where
  sequence_lt : packet.header.sequence < 2 ^ 64
  nonce : packet.ciphertext.nonce = nonceBytes packet.header.sequence
  aad : packet.ciphertext.aad = packet.header.aad
  encode : encodePacketSuite A packet.ciphertext.suite packet.ciphertext.key
    (rawHeader bandBytes packet.header) packet.ciphertext.plaintext = .ok bytes

/-- Decoding the bytes of a packet gives what decoding the packet gives. -/
theorem decode_spells (hA : A.Ideal tagLen) {suite : Suite} {key : Key} {bytes : Bytes}
    {packet : Packet Bytes} (h : Spells bandBytes A bytes packet)
    (hapart : (packet.ciphertext.suite, packet.ciphertext.key) ≠ (suite, key) →
      A.Apart (packet.ciphertext.suite, packet.ciphertext.key) (suite, key)) :
    (decodePacketSuite A suite key bytes).toOption =
      (Wire.decodePacketSuite suite key packet).map fun opened =>
        (rawHeader bandBytes opened.1, opened.2) := by
  by_cases hkey : (packet.ciphertext.suite, packet.ciphertext.key) = (suite, key)
  · obtain ⟨rfl, rfl⟩ := Prod.mk.inj hkey
    have hraw := (decodePacketSuite_iff hA).mpr h.encode
    rw [hraw, Wire.decodePacketSuite, decryptSuite, if_pos ⟨rfl, rfl, h.nonce, h.aad⟩]
    rfl
  · have hsymbolic : Wire.decodePacketSuite suite key packet = none := by
      rw [Wire.decodePacketSuite, decryptSuite,
        if_neg (fun hall => hkey (Prod.ext hall.1 hall.2.1))]
      rfl
    rw [hsymbolic, Option.map_none]
    cases hraw : decodePacketSuite A suite key bytes with
    | error e => rfl
    | ok opened =>
      obtain ⟨header, plaintext⟩ := opened
      have hencode := (decodePacketSuite_iff hA).mp hraw
      obtain rfl := header_eq_of_encode h.encode hencode
      obtain ⟨ct, hct, rfl⟩ := encodePacketSuite_eq_ok_iff.mp h.encode
      obtain ⟨ct', hct', heq⟩ := encodePacketSuite_eq_ok_iff.mp hencode
      obtain rfl := append_cancel_left heq
      exact absurd hct' (hapart hkey _ _ _ _ _ hct)

end symbolic

/-! ## The loop -/

namespace RecvLoop

variable {K : Type} {A : Aead Suite K} {t : RecvLoop K} {source : SocketAddr} {packet : Bytes}
  {header : Header} {payload : Bytes}

/-- The packet is what encoding the payload with this header gives, under the key registered for
the address. -/
def SealedByPeer (A : Aead Suite K) (t : RecvLoop K) (source : SocketAddr) (packet : Bytes)
    (header : Header) (payload : Bytes) : Prop :=
  ∃ registered, t.peerKeys.lookup source = some registered ∧
    encodePacketSuite A registered.2 registered.1 header payload = .ok packet

/-- The same, under the base key and the baseline suite. -/
def SealedByBase (A : Aead Suite K) (t : RecvLoop K) (packet : Bytes) (header : Header)
    (payload : Bytes) : Prop :=
  encodePacketSuite A .chaCha20Poly1305 t.baseKey header payload = .ok packet

theorem toOption_eq_some {ε α : Type} {x : Except ε α} {a : α} :
    x.toOption = some a ↔ x = .ok a := by
  cases x with
  | error e => exact iff_of_false (fun h => by cases h) fun h => by cases h
  | ok b => exact ⟨fun h => congrArg Except.ok (Option.some.inj h),
      fun h => congrArg some (Except.ok.inj h)⟩

/-- The first of the two keys that opens the packet decides. -/
theorem openPacket_eq_some_iff (hA : A.Ideal tagLen) :
    t.openPacket A source packet = some (header, payload) ↔
      SealedByPeer A t source packet header payload ∨
        SealedByBase A t packet header payload ∧
          ∀ header' payload', ¬ SealedByPeer A t source packet header' payload' := by
  have hpeer : ∀ header' payload',
      ((t.peerKeys.lookup source).bind fun registered =>
        (decodePacketSuite A registered.2 registered.1 packet).toOption) =
          some (header', payload') ↔
      SealedByPeer A t source packet header' payload' := by
    intro header' payload'
    rw [Option.bind_eq_some_iff]
    refine exists_congr fun registered => and_congr_right fun _ => ?_
    rw [toOption_eq_some, decodePacketSuite_iff hA]
  rw [openPacket, Option.or_eq_some_iff, hpeer, toOption_eq_some, decodePacketSuite_iff hA,
    Option.eq_none_iff_forall_ne_some, and_comm (a := ∀ a, _)]
  refine or_congr Iff.rfl (and_congr Iff.rfl ?_)
  rw [Prod.forall]
  exact forall₂_congr fun header' payload' => not_congr (hpeer header' payload')

theorem dispatch_eq_some_iff :
    t.dispatch A source packet = some ⟨source, header, payload⟩ ↔
      header.bandId = t.bandId ∧ t.openPacket A source packet = some (header, payload) := by
  rw [dispatch]
  cases t.openPacket A source packet with
  | none => exact iff_of_false (fun h => by cases h) fun h => by cases h.2
  | some opened =>
    obtain ⟨header', payload'⟩ := opened
    dsimp only
    by_cases hband : header'.bandId ≠ t.bandId
    · rw [if_pos hband]
      refine iff_of_false (fun h => by cases h) ?_
      rintro ⟨h, heq⟩
      cases heq
      exact hband h
    · rw [if_neg hband]
      constructor
      · intro h
        cases h
        exact ⟨not_not.mp hband, rfl⟩
      · rintro ⟨-, heq⟩
        cases heq
        rfl

/-- A turn of the loop hands on what is dispatched, if somebody subscribed to its type, and notes
when its source was heard. -/
theorem receive_spec (t : RecvLoop K) (source : SocketAddr) (packet : Bytes) (now : Nat) :
    (t.receive A source packet now).2 = (t.dispatch A source packet).filter
      (fun inbound => t.routes.contains inbound.header.channelType) ∧
    ∀ a, (t.receive A source packet now).1.lastSeen.lookup a =
      if a = source ∧ (t.dispatch A source packet).isSome then some now
      else t.lastSeen.lookup a := by
  rw [receive]
  cases t.dispatch A source packet with
  | none => simp
  | some inbound => simp [lookup_insert_ite, Option.filter]

/-- A packet that both keys open, separated keys open alike. -/
theorem sealedByPeer_of_separated {header' : Header} {payload' : Bytes}
    (hsep : ∀ registered, t.peerKeys.lookup source = some registered →
      A.Separated (registered.2, registered.1) (.chaCha20Poly1305, t.baseKey))
    (hbase : SealedByBase A t packet header payload)
    (hpeer : SealedByPeer A t source packet header' payload') :
    SealedByPeer A t source packet header payload := by
  obtain ⟨registered, hreg, hencode⟩ := hpeer
  obtain rfl := header_eq_of_encode hbase hencode
  obtain ⟨ct, hct, rfl⟩ := encodePacketSuite_eq_ok_iff.mp hencode
  obtain ⟨ct', hct', heq⟩ := encodePacketSuite_eq_ok_iff.mp hbase
  obtain rfl := append_cancel_left heq
  obtain rfl := hsep registered hreg _ _ _ _ _ hct hct'
  exact ⟨registered, hreg, hencode⟩

theorem routeInfo_of_encode (hA : A.Ideal tagLen) {s : Suite} {k : K}
    (h : encodePacketSuite A s k header payload = .ok packet) :
    routeInfo packet = some ⟨header.bandId, some header.channelType, header.channelId⟩ := by
  obtain ⟨ct, hct, rfl⟩ := encodePacketSuite_eq_ok_iff.mp h
  refine Header.routeInfo_write header ?_
  rw [hA.length hct]
  exact Nat.le_add_left _ _

/-- With an ideal AEAD the loop dispatches a packet of its band with a header and a payload exactly
when it is, byte for byte, what encoding them gives under the key registered for the address, or
under the base key and nothing under the registered one. When the two keys are separated, that is
under either key. A hub reads such a packet's band and channel as its sender wrote them. -/
theorem packet_authentic (hA : A.Ideal tagLen) (t : RecvLoop K) (source : SocketAddr)
    (packet : Bytes) (header : Header) (payload : Bytes) :
    (t.dispatch A source packet = some ⟨source, header, payload⟩ ↔
      header.bandId = t.bandId ∧
        (SealedByPeer A t source packet header payload ∨
          SealedByBase A t packet header payload ∧
            ∀ header' payload', ¬ SealedByPeer A t source packet header' payload')) ∧
    ((∀ registered, t.peerKeys.lookup source = some registered →
        A.Separated (registered.2, registered.1) (.chaCha20Poly1305, t.baseKey)) →
      (t.dispatch A source packet = some ⟨source, header, payload⟩ ↔
        header.bandId = t.bandId ∧
          (SealedByPeer A t source packet header payload ∨
            SealedByBase A t packet header payload))) ∧
    (SealedByPeer A t source packet header payload ∨ SealedByBase A t packet header payload →
      routeInfo packet = some ⟨header.bandId, some header.channelType, header.channelId⟩) := by
  have hexact : t.dispatch A source packet = some ⟨source, header, payload⟩ ↔
      header.bandId = t.bandId ∧
        (SealedByPeer A t source packet header payload ∨
          SealedByBase A t packet header payload ∧
            ∀ header' payload', ¬ SealedByPeer A t source packet header' payload') := by
    rw [dispatch_eq_some_iff, openPacket_eq_some_iff hA]
  refine ⟨hexact, fun hsep => hexact.trans (and_congr_right fun _ => ?_), ?_⟩
  · constructor
    · rintro (hpeer | ⟨hbase, -⟩)
      · exact .inl hpeer
      · exact .inr hbase
    · rintro (hpeer | hbase)
      · exact .inl hpeer
      · by_cases hany : ∃ header' payload', SealedByPeer A t source packet header' payload'
        · obtain ⟨header', payload', hpeer⟩ := hany
          exact .inl (sealedByPeer_of_separated hsep hbase hpeer)
        · exact .inr ⟨hbase, fun header' payload' hpeer => hany ⟨header', payload', hpeer⟩⟩
  · rintro (⟨registered, -, hencode⟩ | hbase)
    · exact routeInfo_of_encode hA hencode
    · exact routeInfo_of_encode hA hbase

/-- A toy scheme that is ideal: sixteen times the key is the tag. -/
def tagged : Aead Suite UInt8 where
  encrypt _ k _ _ p := some (p ++ List.replicate tagLen k)
  decrypt _ k _ _ c :=
    if c.drop (c.length - tagLen) = List.replicate tagLen k then some (c.take (c.length - tagLen))
    else none

theorem tagged_ideal : tagged.Ideal tagLen where
  decrypt_iff {s k nonce aad c p} := by
    simp only [tagged, Option.ite_none_right_eq_some, Option.some.injEq]
    constructor
    · rintro ⟨htag, rfl⟩
      rw [← htag, take_append_drop]
    · rintro rfl
      simp
  length h := by
    cases h
    simp

theorem tagged_apart {s s' : Suite} {k k' : UInt8} (h : k ≠ k') :
    tagged.Apart (s, k) (s', k') := by
  intro nonce aad p q c hp hq
  have heq : p ++ List.replicate tagLen k = q ++ List.replicate tagLen k' :=
    Option.some.inj (hp.trans hq.symm)
  obtain ⟨-, htag⟩ := append_inj' heq (by simp)
  exact absurd (head_eq_of_cons_eq htag) h

/-- A loop that knows one peer. -/
def knowsPeer : RecvLoop UInt8 where
  baseKey := 2
  peerKeys := (∅ : AList fun _ : SocketAddr => UInt8 × Suite).insert ⟨7, 9999⟩ (1, .aes256Gcm)
  bandId := zeroBand
  lastSeen := ∅
  routes := [.control]

/-- A HELLO of the peer, under the base key. -/
theorem packet_authentic_base_key :
    knowsPeer.dispatch tagged ⟨7, 9999⟩
        (Header.write ⟨zeroBand, .control, 3, 9⟩ ++ ([5, 6] ++ List.replicate 16 2)) =
      some ⟨⟨7, 9999⟩, ⟨zeroBand, .control, 3, 9⟩, [5, 6]⟩ ∧
    routeInfo (Header.write ⟨zeroBand, .control, 3, 9⟩ ++ ([5, 6] ++ List.replicate 16 2)) =
      some ⟨zeroBand, some .control, 3⟩ := by
  obtain ⟨-, hdispatch, hroute⟩ := packet_authentic tagged_ideal knowsPeer ⟨7, 9999⟩
    (Header.write ⟨zeroBand, .control, 3, 9⟩ ++ ([5, 6] ++ List.replicate 16 2))
    ⟨zeroBand, .control, 3, 9⟩ [5, 6]
  refine ⟨(hdispatch fun registered hreg => ?_).mpr ⟨rfl, .inr rfl⟩, hroute (.inr rfl)⟩
  cases hreg
  exact (tagged_apart (by decide)).separated

/-- The scheme with the first byte of the secret for a key. -/
def keyed : Aead Suite Key where
  encrypt s k := tagged.encrypt s (k.psk.headD 0)
  decrypt s k := tagged.decrypt s (k.psk.headD 0)

/-- A packet under its own key, and under the key of another secret. -/
theorem decode_spells_two_keys :
    let p := Wire.encodePacketSuite .aes256Gcm (deriveKey [1]) ⟨deriveBandId [1], .control, 3, 9⟩
      ([5] : Bytes)
    ∃ bytes, Spells (fun _ => zeroBand) keyed bytes p ∧
      (decodePacketSuite keyed .aes256Gcm (deriveKey [1]) bytes).toOption =
        some (⟨zeroBand, .control, 3, 9⟩, [5]) ∧
      (decodePacketSuite keyed .aes256Gcm (deriveKey [2]) bytes).toOption = none := by
  intro p
  have hideal : keyed.Ideal tagLen :=
    ⟨fun {s k n a _ _} => @tagged_ideal.decrypt_iff s (k.psk.headD 0) n a _ _,
      fun {s k n a _ _} => @tagged_ideal.length s (k.psk.headD 0) n a _ _⟩
  have hspells : Spells (fun _ => zeroBand) keyed _ p := ⟨by decide, rfl, rfl, rfl⟩
  have hapart : keyed.Apart (.aes256Gcm, deriveKey [1]) (.aes256Gcm, deriveKey [2]) :=
    @tagged_apart .aes256Gcm .aes256Gcm 1 2 (by decide)
  refine ⟨_, hspells, (decode_spells _ hideal hspells fun h => absurd rfl h).trans ?_,
    (decode_spells _ hideal hspells fun _ => hapart).trans ?_⟩
  · decide +kernel
  · decide +kernel

end RecvLoop

end Telesthete.Band.Raw
