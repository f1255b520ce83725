import DerContents.Proofs.Oid.Contents
import DerContents.Proofs.Oid.Text

/-!
# Sizes of text and contents

A number below a power of 128 has at most three times as many decimal digits as octets,
and one digit less than twice as many at least.  With the dots this leaves the text of a
valid identifier between two and four times as long as its contents, so limits in that
proportion never separate the two forms.
-/

namespace DerContents

open Base128

theorem length_toDigits_le {number length : Nat} (hlength : 0 < length)
    (h : number < 128 ^ length) : (Nat.toDigits 10 number).length ≤ 3 * length := by
  rw [Nat.length_toDigits_le_iff (by omega) (by omega)]
  calc
    number < 128 ^ length := h
    _ ≤ 1000 ^ length := Nat.pow_le_pow_left (by omega) length
    _ = 10 ^ (3 * length) := (pow_mul 10 3 length).symm

theorem lt_length_toDigits {number length : Nat} (h : 10 ^ length ≤ number) :
    length < (Nat.toDigits 10 number).length := by
  by_cases hzero : length = 0
  · rw [hzero]
    exact List.length_pos_iff.2 Nat.toDigits_ne_nil
  · apply Nat.lt_of_not_le
    rw [Nat.length_toDigits_le_iff (by omega) (by omega)]
    exact Nat.not_lt.2 h

/-- A dot and the digits of a number are at most four times as many as its octets. -/
theorem length_toDigits_lt_four_mul (number : Nat) :
    (Nat.toDigits 10 number).length + 1 ≤ 4 * (shortest number).length := by
  have hpos := length_shortest_pos number
  have hdigits := length_toDigits_le hpos (lt_pow_length_shortest number)
  omega

theorem two_mul_length_shortest_le (number : Nat) :
    2 * (shortest number).length ≤ (Nat.toDigits 10 number).length + 1 := by
  obtain ⟨length, hlength⟩ := Nat.exists_eq_succ_of_ne_zero
    (Nat.ne_of_gt (length_shortest_pos number))
  by_cases hzero : length = 0
  · have hdigits : 0 < (Nat.toDigits 10 number).length :=
      List.length_pos_iff.2 Nat.toDigits_ne_nil
    omega
  · have hdigits : 2 * length < (Nat.toDigits 10 number).length := by
      apply lt_length_toDigits
      calc
        10 ^ (2 * length) = 100 ^ length := pow_mul 10 2 length
        _ ≤ 128 ^ length := Nat.pow_le_pow_left (by omega) length
        _ ≤ number := pow_le_of_lt_length_shortest (by omega) (by omega)
    omega

theorem length_firstTwo_le {first second : Nat} (hfirst : first ≤ 2)
    (hsecond : first < 2 → second < 40) :
    (Nat.toDigits 10 first).length + 1 + (Nat.toDigits 10 second).length ≤
      4 * (shortest (40 * first + second)).length := by
  have hone : (Nat.toDigits 10 first).length = 1 := by
    rw [Nat.toDigits_of_lt_base (by omega), List.length_singleton]
  have hpos := length_shortest_pos (40 * first + second)
  have hlt := lt_pow_length_shortest (40 * first + second)
  by_cases hsingle : (shortest (40 * first + second)).length = 1
  · rw [hsingle] at hlt ⊢
    have hdigits : (Nat.toDigits 10 second).length ≤ 2 := by
      rw [Nat.length_toDigits_le_iff (by omega) (by omega)]
      omega
    omega
  · have hdigits := length_toDigits_le hpos (Nat.lt_of_le_of_lt (Nat.le_add_left _ _) hlt)
    omega

theorem two_mul_length_shortest_firstTwo_le {first : Nat} (hfirst : first ≤ 2) (second : Nat) :
    2 * (shortest (40 * first + second)).length ≤
      (Nat.toDigits 10 first).length + 1 + (Nat.toDigits 10 second).length := by
  have hone : (Nat.toDigits 10 first).length = 1 := by
    rw [Nat.toDigits_of_lt_base (by omega), List.length_singleton]
  obtain ⟨length, hlength⟩ := Nat.exists_eq_succ_of_ne_zero
    (Nat.ne_of_gt (length_shortest_pos (40 * first + second)))
  cases length with
  | zero =>
    have hdigits : 0 < (Nat.toDigits 10 second).length :=
      List.length_pos_iff.2 Nat.toDigits_ne_nil
    omega
  | succ length =>
    have hpow : 128 ^ (length + 1) ≤ 40 * first + second :=
      pow_le_of_lt_length_shortest (Nat.succ_pos length) (by omega)
    -- Taking 80 away leaves more than the tenth part that a digit less would need.
    have hdigits : 2 * length + 1 < (Nat.toDigits 10 second).length := by
      apply lt_length_toDigits
      have hscale : 100 ^ length ≤ 128 ^ length := Nat.pow_le_pow_left (by omega) length
      have hunit : 0 < 100 ^ length := Nat.pow_pos (by omega)
      rw [pow_succ, pow_mul, show 10 ^ 2 = 100 from rfl]
      rw [pow_succ] at hpow
      omega
    omega

theorem utf8ByteSize_ofList_of_ascii {text : List Char} (h : ∀ c ∈ text, c.utf8Size = 1) :
    (String.ofList text).utf8ByteSize = text.length := by
  induction text with
  | nil => rfl
  | cons c rest ih =>
    have hrest := ih fun d hmem => h d (List.mem_cons_of_mem c hmem)
    rw [String.ofList_cons, String.utf8ByteSize_append, String.utf8ByteSize_singleton,
      h c List.mem_cons_self, hrest, List.length_cons, Nat.add_comm]

theorem utf8Size_of_isDigit {c : Char} (h : c.isDigit = true) : c.utf8Size = 1 := by
  have hrange := toNat_of_isDigit h
  rw [Char.utf8Size_eq_one_iff, UInt32.le_iff_toNat_le]
  exact Nat.le_trans hrange.2 (by decide)

theorem intercalate_dot_cons (part : List Char) (parts : List (List Char)) :
    ['.'].intercalate (part :: parts) = part ++ parts.flatMap ('.' :: ·) := by
  induction parts generalizing part with
  | nil => simp
  | cons next rest ih =>
    rw [List.intercalate_cons_cons, ih, List.flatMap_cons, List.append_assoc,
      List.singleton_append]
    rfl

namespace Oid

theorem dotted_cons (first : Arc) (rest : List Arc) :
    dotted ⟨first :: rest⟩ = first.digits ++ rest.flatMap fun arc => '.' :: arc.digits := by
  rw [dotted, List.map_cons, intercalate_dot_cons, List.flatMap_map]

theorem Valid.utf8Size_of_mem_dotted {oid : Oid} (h : oid.Valid) :
    ∀ c ∈ oid.dotted, c.utf8Size = 1 := by
  have hdigit : ∀ arc ∈ oid.arcs, ∀ c ∈ arc.digits, c.utf8Size = 1 := by
    intro arc harc c hmem
    exact utf8Size_of_isDigit ((h.1 arc harc).isNumeral_digits.isDigit c hmem)
  obtain ⟨first, second, rest, rfl⟩ := h.exists_cons
  intro c hmem
  rw [dotted_cons] at hmem
  rcases List.mem_append.1 hmem with hmem | hmem
  · exact hdigit first List.mem_cons_self c hmem
  · obtain ⟨arc, harc, hmem⟩ := List.mem_flatMap.1 hmem
    rcases List.mem_cons.1 hmem with rfl | hmem
    · rfl
    · exact hdigit arc (List.mem_cons_of_mem first harc) c hmem

theorem Valid.utf8ByteSize_text {oid : Oid} (h : oid.Valid) :
    oid.text.utf8ByteSize = oid.dotted.length :=
  utf8ByteSize_ofList_of_ascii h.utf8Size_of_mem_dotted

theorem length_flatMap_digits_bounds {arcs : List Arc} (h : ∀ arc ∈ arcs, arc.Normal) :
    2 * ((arcs.map Arc.toNat).flatMap shortest).length ≤
        (arcs.flatMap fun arc => '.' :: arc.digits).length ∧
      (arcs.flatMap fun arc => '.' :: arc.digits).length ≤
        4 * ((arcs.map Arc.toNat).flatMap shortest).length := by
  induction arcs with
  | nil => exact ⟨Nat.le_refl _, Nat.le_refl _⟩
  | cons arc rest ih =>
    obtain ⟨hlow, hhigh⟩ := ih fun other hmem => h other (List.mem_cons_of_mem arc hmem)
    have harcLow := two_mul_length_shortest_le arc.toNat
    have harcHigh := length_toDigits_lt_four_mul arc.toNat
    rw [List.map_cons, List.flatMap_cons, List.flatMap_cons, List.length_append,
      List.length_append, List.length_cons, (h arc List.mem_cons_self).digits_eq]
    omega

/-- The text of a valid identifier has two to four octets for each of its contents octets. -/
theorem Valid.utf8ByteSize_text_bounds {oid : Oid} (h : oid.Valid) :
    2 * oid.encodedLength ≤ oid.text.utf8ByteSize ∧
      oid.text.utf8ByteSize ≤ 4 * oid.encodedLength := by
  rw [h.utf8ByteSize_text, ← length_contents, h.contents_eq]
  obtain ⟨first, second, rest, rfl⟩ := h.exists_cons
  obtain ⟨hnormal, hfirst, hsecond⟩ := valid_cons_iff.1 h
  have hmem : second ∈ first :: second :: rest := List.mem_cons_of_mem _ List.mem_cons_self
  obtain ⟨hlow, hhigh⟩ := length_flatMap_digits_bounds fun arc harc =>
    hnormal arc (List.mem_cons_of_mem _ (List.mem_cons_of_mem _ harc))
  have hpairLow := two_mul_length_shortest_firstTwo_le hfirst second.toNat
  have hpairHigh := length_firstTwo_le hfirst hsecond
  rw [dotted_cons, packed_cons, List.flatMap_cons, List.flatMap_cons, List.length_append,
    List.length_append, List.length_append, List.length_cons,
    (hnormal first List.mem_cons_self).digits_eq, (hnormal second hmem).digits_eq]
  omega

theorem utf8ByteSize_text_ofPacked (number repeated count : Nat) :
    (ofPacked (number :: List.replicate count repeated)).text.utf8ByteSize =
      (ofPacked [number]).text.utf8ByteSize +
        count * ((Nat.toDigits 10 repeated).length + 1) := by
  obtain ⟨first, second, hpair, -, -, -⟩ := exists_firstTwo number
  rw [(valid_ofPacked number _).utf8ByteSize_text, (valid_ofPacked number []).utf8ByteSize_text,
    ofPacked, ofPacked, hpair]
  simp [dotted_cons, (Arc.normal_ofNat repeated).digits_eq]
  omega

theorem length_contents_ofPacked (number repeated count : Nat) :
    (ofPacked (number :: List.replicate count repeated)).contents.length =
      (shortest number).length + count * (shortest repeated).length := by
  rw [contents_ofPacked]
  simp

/-- The two bounds are attained at any number of arcs: `2.48.1.1…` and `2.47.127.127…`. -/
theorem utf8ByteSize_text_bounds_attained (count : Nat) :
    (ofPacked (128 :: List.replicate count 1)).text.utf8ByteSize =
        2 * (ofPacked (128 :: List.replicate count 1)).encodedLength ∧
      (ofPacked (127 :: List.replicate count 127)).text.utf8ByteSize =
        4 * (ofPacked (127 :: List.replicate count 127)).encodedLength := by
  have hlow : (ofPacked [128]).text.utf8ByteSize = 4 := by decide +kernel
  have hhigh : (ofPacked [127]).text.utf8ByteSize = 4 := by decide +kernel
  have hone : (shortest 1).length = 1 := by decide +kernel
  have hlast : (shortest 127).length = 1 := by decide +kernel
  have htwo : (shortest 128).length = 2 := by decide +kernel
  rw [utf8ByteSize_text_ofPacked, utf8ByteSize_text_ofPacked, ← length_contents,
    ← length_contents, length_contents_ofPacked, length_contents_ofPacked, hlow, hhigh, hone,
    hlast, htwo, show (Nat.toDigits 10 1).length = 1 from rfl,
    show (Nat.toDigits 10 127).length = 3 from rfl]
  omega

theorem ofText_eq_tooLong_iff {limits : Limits}
    (hlimits : limits.maxTextLength / 2 ≤ limits.maxOctets) (input : String) :
    ofText limits input = .error .tooLong ↔ limits.maxTextLength < input.utf8ByteSize := by
  rw [ofText_eq]
  constructor
  · intro h
    split at h
    · cases h
    split at h
    next hlength => exact hlength
    next hlength =>
      exfalso
      cases hbad : badSegment? input with
      | some segment =>
        rw [hbad] at h
        cases h
      | none =>
        rw [hbad] at h
        obtain ⟨hvalid, hoctets⟩ := (ofArcs_eq_tooLong_iff normal_of_mem_segmentArcs).1 h
        have hlow := hvalid.utf8ByteSize_text_bounds.1
        rw [text_segmentArcs hbad, ← length_contents] at hlow
        omega
  · intro h
    have hne : input ≠ "" := by
      intro hempty
      rw [hempty] at h
      exact absurd h (Nat.not_lt_zero _)
    rw [if_neg hne, if_pos h]

/-- Whatever is read from contents is read from its text, with room for four times as much text. -/
theorem ofText_of_ofContents {limits : Limits}
    (hlimits : 4 * limits.maxOctets ≤ limits.maxTextLength) {octets : Octets} {oid : Oid}
    (h : ofContents limits octets = .ok oid) : ofText limits oid.text = .ok oid := by
  obtain ⟨hvalid, rfl, hoctets⟩ := ofContents_eq_ok_iff.1 h
  have hhigh := hvalid.utf8ByteSize_text_bounds.2
  rw [← length_contents] at hhigh
  exact ofText_eq_ok_iff.2 ⟨hvalid, rfl, by omega, hoctets⟩

/--
The limits on text and on contents fit together.  A text has two to four octets for each
of the contents octets; so limits in the proportion of one to four, as the standard ones
are, read every text of what they read from contents, and limits in the proportion of one
to two refuse no text for its contents.
-/
theorem text_and_contents_limits_fit :
    (∀ oid : Oid, oid.Valid →
      2 * oid.encodedLength ≤ oid.text.utf8ByteSize ∧
        oid.text.utf8ByteSize ≤ 4 * oid.encodedLength) ∧
    (∀ limits : Limits, 4 * limits.maxOctets ≤ limits.maxTextLength →
      ∀ octets oid, ofContents limits octets = .ok oid → ofText limits oid.text = .ok oid) ∧
    4 * Limits.standard.maxOctets ≤ Limits.standard.maxTextLength ∧
    ∀ limits : Limits, limits.maxTextLength / 2 ≤ limits.maxOctets →
      ∀ input, ofText limits input = .error .tooLong ↔
        limits.maxTextLength < input.utf8ByteSize := by
  refine ⟨fun oid hvalid => hvalid.utf8ByteSize_text_bounds, ?_, Nat.le_refl _, ?_⟩
  · intro limits hlimits octets oid h
    exact ofText_of_ofContents hlimits h
  · intro limits hlimits input
    exact ofText_eq_tooLong_iff hlimits input

end Oid

end DerContents
