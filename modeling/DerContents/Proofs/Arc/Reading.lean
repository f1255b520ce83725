import DerContents.Proofs.Arc.Decimal
import DerContents.Utf8.RoundTrip

/-!
# Numerals read from text

A text is read as an arc exactly when it is a numeral, and the arc is then the one that is
written as the text.  It makes no difference whether the characters are read or the octets
of UTF-8, since no octet of a character beyond ASCII is a digit.
-/

namespace DerContents

namespace Arc

def appendOctet? (arc : Arc) (octet : UInt8) : Option Arc :=
  if 0x30 ≤ octet ∧ octet ≤ 0x39 then
    some (arc.mulAdd 10 (octet - 0x30).toUInt32)
  else
    none

/-- The arc of a numeral in octets: at least one, and no zero in front of others. -/
def ofOctets? (octets : Octets) : Option Arc :=
  if octets = [] ∨ octets.head? = some 0x30 ∧ 1 < octets.length then
    none
  else
    octets.foldlM appendOctet? zero

theorem appendOctet?_of_le (arc : Arc) {octet : UInt8} (h : 0x80 ≤ octet) :
    appendOctet? arc octet = none := by
  have hle : 128 ≤ octet.toNat := h
  have hdigit : ¬ (0x30 ≤ octet ∧ octet ≤ 0x39) := by
    simp only [UInt8.le_iff_toNat_le, UInt8.reduceToNat]
    omega
  rw [appendOctet?, if_neg hdigit]

theorem appendDigit?_of_le (arc : Arc) {c : Char} (h : 128 ≤ c.toNat) :
    appendDigit? arc c = none := by
  have hdigit : ¬ c.isDigit = true := by
    intro hdigit
    have hrange := toNat_of_isDigit hdigit
    omega
  rw [appendDigit?, if_neg hdigit]

theorem appendOctet?_ofNat (arc : Arc) {c : Char} (h : c.toNat < 128) :
    appendOctet? arc (UInt8.ofNat c.toNat) = appendDigit? arc c := by
  have hoctet : (UInt8.ofNat c.toNat).toNat = c.toNat := Utf8.toNat_ofNat_of_lt (by omega)
  have hdigit :
      (0x30 ≤ UInt8.ofNat c.toNat ∧ UInt8.ofNat c.toNat ≤ 0x39) ↔ c.isDigit = true := by
    rw [UInt8.le_iff_toNat_le, UInt8.le_iff_toNat_le, hoctet, Char.isDigit_iff_toNat]
    rfl
  unfold appendOctet? appendDigit?
  by_cases hc : c.isDigit = true
  · have hvalue : (UInt8.ofNat c.toNat - 0x30).toUInt32 = c.val - '0'.val := by
      apply UInt32.toNat_inj.1
      rw [UInt8.toNat_toUInt32, UInt8.toNat_sub_of_le _ _ (hdigit.2 hc).1, hoctet,
        toNat_digit_word hc]
      rfl
    rw [if_pos (hdigit.2 hc), if_pos hc, hvalue]
  · rw [if_neg (fun hrange => hc (hdigit.1 hrange)), if_neg hc]

theorem foldlM_appendOctet?_encode (arc : Arc) (text : List Char) :
    (Utf8.encode text).foldlM appendOctet? arc = text.foldlM appendDigit? arc := by
  induction text generalizing arc with
  | nil => rfl
  | cons c rest ih =>
    rw [Utf8.encode_cons, List.foldlM_cons]
    by_cases hascii : c.toNat < 128
    · rw [Utf8.utf8EncodeChar_of_lt hascii, List.singleton_append, List.foldlM_cons,
        appendOctet?_ofNat arc hascii]
      simp only [ih]
    · have hle := Nat.not_lt.1 hascii
      rcases Utf8.exists_utf8EncodeChar_cons hle with ⟨first, more, hoctets, hfirst⟩
      rw [hoctets, List.cons_append, List.foldlM_cons, appendOctet?_of_le arc hfirst,
        appendDigit?_of_le arc hle]
      rfl

theorem eq_zero_of_head?_encode {c : Char} {rest : List Char}
    (h : (Utf8.encode (c :: rest)).head? = some 0x30) : c = '0' := by
  rw [Utf8.encode_cons] at h
  by_cases hascii : c.toNat < 128
  · rw [Utf8.utf8EncodeChar_of_lt hascii, List.singleton_append, List.head?_cons] at h
    have hvalue := congrArg UInt8.toNat (Option.some.inj h)
    rw [Utf8.toNat_ofNat_of_lt (by omega)] at hvalue
    exact Char.toNat_inj.1 hvalue
  · rcases Utf8.exists_utf8EncodeChar_cons (Nat.not_lt.1 hascii) with
      ⟨first, more, hoctets, hfirst⟩
    rw [hoctets, List.cons_append, List.head?_cons] at h
    rw [Option.some.inj h] at hfirst
    exact absurd hfirst (by decide)

theorem encode_ne_nil {text : List Char} (h : text ≠ []) : Utf8.encode text ≠ [] := by
  cases text with
  | nil => exact absurd rfl h
  | cons c rest => exact List.append_ne_nil_of_left_ne_nil (Utf8.utf8EncodeChar_ne_nil c) _

theorem ofOctets?_encode (text : List Char) : ofOctets? (Utf8.encode text) = ofDigits? text := by
  unfold ofDigits?
  -- No character, a zero in front of others, and all texts besides.
  split
  next => rfl
  next next rest =>
    have hlength : 0 < (Utf8.encode (next :: rest)).length :=
      List.length_pos_iff.2 (encode_ne_nil (List.cons_ne_nil next rest))
    have hzero : Utf8.encode ('0' :: next :: rest) = 0x30 :: Utf8.encode (next :: rest) := rfl
    rw [hzero, ofOctets?, if_pos (Or.inr ⟨rfl, by rw [List.length_cons]; omega⟩)]
  next hne hpadded =>
    have hread : ¬ (Utf8.encode text = [] ∨
        (Utf8.encode text).head? = some 0x30 ∧ 1 < (Utf8.encode text).length) := by
      rintro (hnil | ⟨hhead, hlength⟩)
      · exact encode_ne_nil hne hnil
      · match text with
        | [] => exact hne rfl
        | [c] =>
          rw [eq_zero_of_head?_encode hhead] at hlength
          exact absurd hlength (by decide)
        | c :: next :: rest =>
          rw [eq_zero_of_head?_encode hhead] at hpadded
          exact hpadded next rest rfl
    rw [ofOctets?, if_neg hread, foldlM_appendOctet?_encode]

theorem ofDecimal?_eq (text : String) :
    ofDecimal? text =
      if IsNumeral text.toList then some (ofNat (Nat.ofDigitChars 10 text.toList 0)) else none :=
  ofDigits?_eq text.toList

theorem text_ofNat_of_isNumeral {input : String} (h : IsNumeral input.toList) :
    (ofNat (Nat.ofDigitChars 10 input.toList 0)).text = input := by
  rw [text, digits_ofNat_ofDigitChars h, String.ofList_toList]

theorem ofDecimal?_text {arc : Arc} (h : arc.Normal) : ofDecimal? arc.text = some arc := by
  rw [ofDecimal?_eq, h.toList_text, if_pos (isNumeral_toDigits _), Nat.ofDigitChars_ten_toDigits,
    h.ofNat_toNat]

theorem ofDecimal?_eq_some_iff {input : String} {arc : Arc} :
    ofDecimal? input = some arc ↔ arc.Normal ∧ arc.text = input := by
  constructor
  · intro h
    rw [ofDecimal?_eq] at h
    split at h
    next hnumeral =>
      cases h
      exact ⟨normal_ofNat _, text_ofNat_of_isNumeral hnumeral⟩
    next => cases h
  · intro h
    rcases h with ⟨hnormal, rfl⟩
    exact ofDecimal?_text hnormal

theorem ofDecimal?_eq_none_iff {input : String} :
    ofDecimal? input = none ↔ ¬ IsNumeral input.toList := by
  rw [ofDecimal?_eq]
  by_cases hnumeral : IsNumeral input.toList
  · simp [hnumeral]
  · simp [hnumeral]

/--
A text is read as an arc exactly when it is a numeral, and then as the arc of the number
that it denotes, which is written as the text again.  Nothing else is read, and reading
octet by octet gives the same.
-/
theorem ofDecimal?_reads_numerals (input : String) :
    (∀ arc, ofDecimal? input = some arc ↔
      IsNumeral input.toList ∧ arc.Normal ∧
        arc.toNat = Nat.ofDigitChars 10 input.toList 0 ∧ arc.text = input) ∧
    (∀ arc, ofDecimal? input = some arc ↔ arc.Normal ∧ arc.text = input) ∧
    (ofDecimal? input = none ↔ ¬ IsNumeral input.toList) ∧
    ofOctets? (Utf8.encode input.toList) = ofDecimal? input := by
  refine ⟨?_, fun arc => ofDecimal?_eq_some_iff, ofDecimal?_eq_none_iff,
    ofOctets?_encode input.toList⟩
  intro arc
  rw [ofDecimal?_eq_some_iff]
  constructor
  · intro h
    rcases h with ⟨hnormal, rfl⟩
    rw [hnormal.toList_text, Nat.ofDigitChars_ten_toDigits]
    exact ⟨isNumeral_toDigits arc.toNat, hnormal, rfl, rfl⟩
  · intro h
    exact ⟨h.2.1, h.2.2.2⟩

end Arc

end DerContents
