import Telesthete.Wire.Discovery

/-!
# Which announces can be read back

Packing a name and parsing the result gives back what the first 255 bytes of the
name spell, if they spell anything. They do when the name is no longer than that,
or when byte 255 is where a character starts; a longer name whose character
straddles that byte is announced in a form no reader takes. The two
implementations agree on every byte of this, in both directions.
-/

namespace Telesthete.Wire

open Telesthete.Lib Telesthete.Crypto List

/-- The announce is read back with its port and a beginning of the name, all of it if it fits. -/
def AnnounceReadable (hostname : String) (port : UInt16) : Prop :=
  ∃ name, parseAnnounce (packAnnounce hostname port) = some (name, port) ∧
    name.toList <+: hostname.toList ∧ ((utf8 hostname).length ≤ maxHostname → name = hostname)

/-- The six bytes before the name. -/
def announceHead (len : Nat) : Bytes := announceMagic ++ [protocolVersion, UInt8.ofNat len]

theorem length_announceHead (len : Nat) : (announceHead len).length = 6 := rfl

/-- A packet with the head of an announce parses as what the counted bytes spell and the two bytes
after them. -/
theorem parseAnnounce_append {hb : Bytes} (hlen : hb.length ≤ maxHostname) (hi lo : UInt8) :
    parseAnnounce (announceHead hb.length ++ (hb ++ [hi, lo])) =
      (fromUtf8 hb).map fun name => (name, UInt16.ofNat (ofBe [hi, lo])) := by
  have hcount : (UInt8.ofNat hb.length).toNat = hb.length := by
    rw [UInt8.toNat_ofNat']
    exact Nat.mod_eq_of_lt (Nat.lt_succ_of_le hlen)
  have hstop : ((announceHead hb.length ++ (hb ++ [hi, lo])).getD 5 0).toNat = hb.length := hcount
  have hlength : (announceHead hb.length ++ (hb ++ [hi, lo])).length = 6 + hb.length + 2 := by
    simp [length_announceHead]
    omega
  have hname : ((announceHead hb.length ++ (hb ++ [hi, lo])).take (6 + hb.length)).drop 6 = hb := by
    rw [← append_assoc, take_left' (by simp [length_announceHead]),
      drop_left' (length_announceHead _)]
  have hhi : (announceHead hb.length ++ (hb ++ [hi, lo])).getD (6 + hb.length) 0 = hi := by
    rw [← append_assoc, getD_eq_getElem?_getD,
      getElem?_append_right (by simp [length_announceHead])]
    simp [length_announceHead]
  have hlo : (announceHead hb.length ++ (hb ++ [hi, lo])).getD (6 + hb.length + 1) 0 = lo := by
    rw [← append_assoc, getD_eq_getElem?_getD,
      getElem?_append_right (by simp [length_announceHead])]
    simp [length_announceHead]
  have hhead : ¬ ((announceHead hb.length ++ (hb ++ [hi, lo])).length < 8 ∨
      (announceHead hb.length ++ (hb ++ [hi, lo])).take 4 ≠ announceMagic ∨
      (announceHead hb.length ++ (hb ++ [hi, lo])).getD 4 0 ≠ protocolVersion) := by
    rintro (hshort | hmagic | hversion)
    · omega
    · exact hmagic rfl
    · exact hversion rfl
  rw [parseAnnounce, if_neg hhead]
  rw [hstop, hlength, if_neg (lt_irrefl _), hname, hhi, hlo]

theorem packAnnounce_eq (hostname : String) (port : UInt16) :
    packAnnounce hostname port =
      announceHead ((utf8 hostname).take maxHostname).length ++
        ((utf8 hostname).take maxHostname ++ toBe 2 port.toNat) := by
  have hcut : (utf8 hostname).take (min (utf8 hostname).length maxHostname) =
      (utf8 hostname).take maxHostname := by
    rw [Nat.min_comm, ← take_eq_take_min]
  rw [packAnnounce, hcut]
  rfl

/-- What an announce parses as: the text its first bytes spell. -/
theorem parseAnnounce_packAnnounce (hostname : String) (port : UInt16) :
    parseAnnounce (packAnnounce hostname port) =
      (fromUtf8 ((utf8 hostname).take maxHostname)).map fun name => (name, port) := by
  obtain ⟨hi, lo, hbytes⟩ : ∃ hi lo, toBe 2 port.toNat = [hi, lo] := ⟨_, _, rfl⟩
  have hport : UInt16.ofNat (ofBe [hi, lo]) = port := by
    rw [← hbytes, ofBe_uint16]
  rw [packAnnounce_eq, hbytes, parseAnnounce_append (length_take_le _ _), hport]

theorem announceReadable_iff {hostname : String} {port : UInt16} :
    AnnounceReadable hostname port ↔
      (utf8 hostname).length ≤ maxHostname ∨ isCharBoundary (utf8 hostname) maxHostname = true := by
  rw [utf8, ← isSome_fromUtf8_take, Option.isSome_iff_exists]
  constructor
  · rintro ⟨name, hparse, -⟩
    rw [parseAnnounce_packAnnounce] at hparse
    obtain ⟨name', hname', -⟩ := Option.map_eq_some_iff.mp hparse
    exact ⟨name', hname'⟩
  · rintro ⟨name, hname⟩
    have hbytes := fromUtf8_eq_some.mp hname
    refine ⟨name, ?_, toList_isPrefix hbytes, fun hfits => ?_⟩
    · rw [parseAnnounce_packAnnounce, utf8, hname]
      rfl
    · exact utf8_inj (hbytes.trans (take_of_length_le hfits))

/-! ## The two implementations -/

theorem python_packAnnounce (hostname : String) (port : UInt16) :
    Python.packAnnounce hostname port.toNat = some (packAnnounce hostname port) := by
  have hcut : (if (utf8 hostname).length > maxHostname then (utf8 hostname).take maxHostname
      else utf8 hostname) = (utf8 hostname).take maxHostname := by
    split
    · rfl
    · next hfits => rw [take_of_length_le (not_lt.mp hfits)]
  rw [Python.packAnnounce, packAnnounce_eq, hcut, if_pos port.toNat_lt]
  exact congrArg some (append_assoc _ _ _)

theorem toNat_ofNat_ofBe (hi lo : UInt8) :
    (UInt16.ofNat (ofBe [hi, lo])).toNat = ofBe [hi, lo] := by
  have hhi := hi.toNat_lt
  have hlo := lo.toNat_lt
  rw [UInt16.toNat_ofNat']
  refine Nat.mod_eq_of_lt ?_
  simp only [ofBe, length_cons, length_nil]
  omega

theorem python_parseAnnounce (data : Bytes) :
    Python.parseAnnounce data = (parseAnnounce data).map fun r => (r.1, r.2.toNat) := by
  have hmagic : announceMagic.isPrefixOf data = true ↔ data.take 4 = announceMagic := by
    rw [List.isPrefixOf_iff_prefix, prefix_iff_eq_take]
    exact eq_comm
  unfold Python.parseAnnounce parseAnnounce
  by_cases hshort : data.length < 8
  · rw [if_pos (.inl hshort), if_pos (.inl hshort)]
    rfl
  by_cases hm : data.take 4 = announceMagic
  · by_cases hv : data.getD 4 0 = protocolVersion
    · rw [if_neg (not_or.mpr ⟨hshort, not_not_intro (hmagic.mpr hm)⟩), if_neg (not_not_intro hv),
        if_neg (not_or.mpr ⟨hshort, not_or.mpr ⟨not_not_intro hm, not_not_intro hv⟩⟩)]
      by_cases hcut : data.length < 6 + (data.getD 5 0).toNat + 2
      · rw [if_pos hcut, if_pos hcut]
        rfl
      · rw [if_neg hcut, if_neg hcut, take_drop_two (not_lt.mp hcut)]
        cases fromUtf8 ((data.take (6 + (data.getD 5 0).toNat)).drop 6) with
        | none => rfl
        | some name => simp only [Option.map_some, toNat_ofNat_ofBe]
    · rw [if_neg (not_or.mpr ⟨hshort, not_not_intro (hmagic.mpr hm)⟩), if_pos hv,
        if_pos (.inr (.inr hv))]
      rfl
  · rw [if_pos (.inr fun h => hm (hmagic.mp h)), if_pos (.inr (.inl hm))]
    rfl

/-- An announce is readable exactly when the name fits its length byte or can be cut there, and the
two implementations write the same announces and read them alike. -/
theorem announce_readable (hostname : String) (port : UInt16) :
    (AnnounceReadable hostname port ↔
      (utf8 hostname).length ≤ maxHostname ∨ isCharBoundary (utf8 hostname) maxHostname = true) ∧
    Python.packAnnounce hostname port.toNat = some (packAnnounce hostname port) ∧
    Python.parseAnnounce (packAnnounce hostname port) =
      (parseAnnounce (packAnnounce hostname port)).map fun r => (r.1, r.2.toNat) :=
  ⟨announceReadable_iff, python_packAnnounce hostname port, python_parseAnnounce _⟩

/-- A two-byte character after 254 letters is cut in half. -/
theorem announce_cut_character :
    parseAnnounce (packAnnounce (String.ofList (List.replicate 254 'a' ++ ['é'])) 9999) = none ∧
      Python.parseAnnounce (packAnnounce (String.ofList (List.replicate 254 'a' ++ ['é'])) 9999) =
        none ∧
      ¬ AnnounceReadable (String.ofList (List.replicate 254 'a' ++ ['é'])) 9999 := by
  have hcut : ¬ ((utf8 (String.ofList (List.replicate 254 'a' ++ ['é']))).length ≤ maxHostname ∨
      isCharBoundary (utf8 (String.ofList (List.replicate 254 'a' ++ ['é']))) maxHostname =
        true) := by
    decide +kernel
  have hparse :
      parseAnnounce (packAnnounce (String.ofList (List.replicate 254 'a' ++ ['é'])) 9999) =
        none := by
    rw [parseAnnounce_packAnnounce, Option.map_eq_none_iff]
    exact Option.not_isSome_iff_eq_none.mp fun h => hcut (isSome_fromUtf8_take.mp h)
  refine ⟨hparse, ?_, fun h => hcut (announceReadable_iff.mp h)⟩
  rw [python_parseAnnounce, hparse]
  rfl

end Telesthete.Wire
