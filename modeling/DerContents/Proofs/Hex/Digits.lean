import DerContents.Hex
import DerContents.Utf8.RoundTrip
import Mathlib.Data.List.Basic

/-!
# What hex text denotes

Two characters denote an octet: the value of the first in sixteens and that of the second.
The second is a hex digit.  The first is one too by the rule of hex text, but in the text
that is read a plus sign may stand for a zero there, and this is all that the two differ in.
-/

namespace DerContents

namespace Hex

/-! ### Digits and pairs of characters -/

/-- The value of a hex digit of ASCII, of either case. -/
def digitValue? (c : Char) : Option Nat :=
  if '0' ≤ c ∧ c ≤ '9' then some (c.toNat - '0'.toNat)
  else if 'a' ≤ c ∧ c ≤ 'f' then some (c.toNat - 'a'.toNat + 10)
  else if 'A' ≤ c ∧ c ≤ 'F' then some (c.toNat - 'A'.toNat + 10)
  else none

/-- The value of a hex digit, or that of a plus sign in place of a zero. -/
def signedValue? (c : Char) : Option Nat :=
  if c = '+' then some 0 else digitValue? c

/-- An octet of sixteen times the value of a first character and the digit in the second. -/
def Pair (first? : Char → Option Nat) (high low : Char) (octet : UInt8) : Prop :=
  ∃ sixteens ones, first? high = some sixteens ∧ digitValue? low = some ones ∧
    octet.toNat = 16 * sixteens + ones

/-- Two characters for each octet, those at its doubled place and behind it. -/
structure Denotes (first? : Char → Option Nat) (text : List Char) (octets : Octets) : Prop where
  length : text.length = 2 * octets.length
  pair : ∀ index octet, octets[index]? = some octet →
    ∃ high low, text[2 * index]? = some high ∧ text[2 * index + 1]? = some low ∧
      Pair first? high low octet

def IsHex (text : List Char) : Prop :=
  text.length % 2 = 0 ∧ ∀ c ∈ text, (digitValue? c).isSome

/-- What is said of a text that is not read, by the number of its octets. -/
def refusal (text : List Char) : String :=
  if (String.ofList text).utf8ByteSize % 2 = 1 then "odd number of hex digits"
  else "only hex digits allowed"

/-- The rule of hex text: digits in pairs are read as what they denote, all else is refused. -/
structure FollowsRule (text : List Char) : Prop where
  accepts : (∃ octets, ofText text = .ok octets) ↔ IsHex text
  denotes : ∀ octets, ofText text = .ok octets → Denotes digitValue? text octets
  refuses : ¬ IsHex text → (ofText text).mapError Error.message = .error (refusal text)

/-! ### Pair by pair -/

section Denoting

variable {first? : Char → Option Nat} {high low : Char} {rest : List Char} {octets : Octets}

theorem denotes_nil : Denotes first? [] octets ↔ octets = [] := by
  constructor
  · intro h
    have hlength := h.length
    rw [List.length_nil] at hlength
    exact List.length_eq_zero_iff.1 (by omega)
  · rintro rfl
    exact ⟨rfl, by simp⟩

theorem not_denotes_singleton (c : Char) : ¬ Denotes first? [c] octets := by
  intro h
  have hlength := h.length
  rw [List.length_singleton] at hlength
  omega

theorem denotes_cons_cons :
    Denotes first? (high :: low :: rest) octets ↔
      ∃ octet more, octets = octet :: more ∧ Pair first? high low octet ∧
        Denotes first? rest more := by
  constructor
  · intro h
    have hlength := h.length
    simp only [List.length_cons] at hlength
    obtain ⟨octet, more, rfl⟩ :=
      List.exists_cons_of_length_pos (show 0 < octets.length by omega)
    refine ⟨octet, more, rfl, ?_, ?_, ?_⟩
    · obtain ⟨_, _, hhigh, hlow, hpair⟩ := h.pair 0 octet rfl
      cases hhigh
      cases hlow
      exact hpair
    · simp only [List.length_cons] at hlength
      omega
    · intro index next hnext
      simpa [Nat.mul_succ] using h.pair (index + 1) next hnext
  · rintro ⟨octet, more, rfl, hpair, hrest⟩
    constructor
    · simp only [List.length_cons, hrest.length]
      omega
    · intro index next hnext
      cases index with
      | zero =>
        cases hnext
        exact ⟨high, low, rfl, rfl, hpair⟩
      | succ index => simpa [Nat.mul_succ] using hrest.pair index next hnext

theorem Denotes.forall_mem {P : Char → Prop}
    (hfirst : ∀ c value, first? c = some value → P c)
    (hdigit : ∀ c value, digitValue? c = some value → P c) :
    ∀ {text : List Char} {octets : Octets}, Denotes first? text octets → ∀ c ∈ text, P c
  | [], _, _ => by simp
  | [c], _, h => absurd h (not_denotes_singleton c)
  | high :: low :: rest, octets, h => by
    obtain ⟨_, more, rfl, ⟨_, _, hhigh, hlow, -⟩, hrest⟩ := denotes_cons_cons.1 h
    simp only [List.forall_mem_cons]
    exact ⟨hfirst _ _ hhigh, hdigit _ _ hlow, hrest.forall_mem hfirst hdigit⟩

theorem Denotes.imp {other? : Char → Option Nat} {text : List Char}
    (h : Denotes first? text octets)
    (himp : ∀ c ∈ text, ∀ value, first? c = some value → other? c = some value) :
    Denotes other? text octets := by
  refine ⟨h.length, ?_⟩
  intro index octet hoctet
  obtain ⟨high, low, hhigh, hlow, sixteens, ones, hsixteens, hones, hvalue⟩ :=
    h.pair index octet hoctet
  have hmem := List.mem_of_getElem? hhigh
  exact ⟨high, low, hhigh, hlow, sixteens, ones, himp high hmem _ hsixteens, hones, hvalue⟩

end Denoting

/-! ### Characters as octets -/

theorem digit?_lt {octet digit : UInt8} (h : digit? octet = some digit) :
    octet.toNat < 0x80 ∧ digit.toNat < 16 := by
  have hall : ∀ code < 256, ∀ digit ∈ digit? (UInt8.ofNat code),
      code < 0x80 ∧ digit.toNat < 16 := by
    decide +kernel
  have hoctet := hall octet.toNat octet.toNat_lt
  rw [UInt8.ofNat_toNat] at hoctet
  exact hoctet digit h

theorem lt_of_pair? {high low octet : UInt8} (h : pair? high low = some octet) :
    high < 0x80 ∧ low < 0x80 := by
  unfold pair? at h
  split at h
  next hplus => exact ⟨by rw [hplus]; decide, (digit?_lt h).1⟩
  next =>
    obtain ⟨first, hhigh, hrest⟩ := Option.bind_eq_some_iff.1 h
    obtain ⟨second, hlow, -⟩ := Option.bind_eq_some_iff.1 hrest
    exact ⟨(digit?_lt hhigh).1, (digit?_lt hlow).1⟩

theorem lt_of_digitValue? {c : Char} {value : Nat} (h : digitValue? c = some value) :
    c.toNat < 128 := by
  unfold digitValue? at h
  split at h
  next hrange => exact Nat.lt_of_le_of_lt (show c.toNat ≤ '9'.toNat from hrange.2) (by decide)
  split at h
  next hrange => exact Nat.lt_of_le_of_lt (show c.toNat ≤ 'f'.toNat from hrange.2) (by decide)
  split at h
  next hrange => exact Nat.lt_of_le_of_lt (show c.toNat ≤ 'F'.toNat from hrange.2) (by decide)
  cases h

theorem lt_of_signedValue? {c : Char} {value : Nat} (h : signedValue? c = some value) :
    c.toNat < 128 := by
  unfold signedValue? at h
  split at h
  next hplus => rw [hplus]; decide
  next => exact lt_of_digitValue? h

theorem digitValue?_eq {c : Char} (h : c.toNat < 128) :
    digitValue? c = (digit? (UInt8.ofNat c.toNat)).map UInt8.toNat := by
  have hall : ∀ code < 128,
      digitValue? (Char.ofNat code) = (digit? (UInt8.ofNat code)).map UInt8.toNat := by
    decide +kernel
  rw [← hall c.toNat h, Char.ofNat_toNat]

theorem digitValue?_lt {c : Char} {value : Nat} (h : digitValue? c = some value) :
    value < 16 := by
  rw [digitValue?_eq (lt_of_digitValue? h)] at h
  obtain ⟨digit, hdigit, rfl⟩ := Option.map_eq_some_iff.1 h
  exact (digit?_lt hdigit).2

theorem toNat_sixteens {first second : UInt8} (hfirst : first.toNat < 16)
    (hsecond : second.toNat < 16) :
    (first * 16 + second).toNat = 16 * first.toNat + second.toNat := by
  simp only [UInt8.toNat_add, UInt8.toNat_mul, UInt8.reduceToNat]
  omega

theorem pair?_eq_some_iff {high low : Char} {octet : UInt8} (hhigh : high.toNat < 128)
    (hlow : low.toNat < 128) :
    pair? (UInt8.ofNat high.toNat) (UInt8.ofNat low.toNat) = some octet ↔
      Pair signedValue? high low octet := by
  -- A sign is no digit, so a first octet is read as one of the two only.
  by_cases hplus : high = '+'
  · have hsigned : signedValue? high = some 0 := if_pos hplus
    have hpair : pair? (UInt8.ofNat high.toNat) (UInt8.ofNat low.toNat) =
        digit? (UInt8.ofNat low.toNat) := by
      rw [hplus]
      rfl
    rw [hpair, Pair, hsigned, digitValue?_eq hlow]
    cases digit? (UInt8.ofNat low.toNat) with
    | none => simp
    | some digit => simp [← UInt8.toNat_inj, eq_comm]
  · have hoctet : UInt8.ofNat high.toNat ≠ 0x2B := by
      intro heq
      have hcode := congrArg UInt8.toNat heq
      rw [Utf8.toNat_ofNat_of_lt (by omega)] at hcode
      exact hplus (Char.toNat_inj.1 hcode)
    have hsigned : signedValue? high = digitValue? high := if_neg hplus
    rw [pair?, if_neg hoctet, Pair, hsigned, digitValue?_eq hhigh, digitValue?_eq hlow]
    cases hfirst : digit? (UInt8.ofNat high.toNat) with
    | none => simp
    | some first =>
      cases hsecond : digit? (UInt8.ofNat low.toNat) with
      | none => simp
      | some second =>
        have hvalue := toNat_sixteens (digit?_lt hfirst).2 (digit?_lt hsecond).2
        simp [← UInt8.toNat_inj, hvalue, eq_comm]

theorem exists_of_mapM_eq_some {α β : Type} {f : α → Option β} {items : List α}
    {values : List β} (h : items.mapM f = some values) :
    ∀ item ∈ items, ∃ value, f item = some value := by
  induction items generalizing values with
  | nil => simp
  | cons item rest ih =>
    rw [List.mapM_cons] at h
    obtain ⟨value, hvalue, hrest⟩ := Option.bind_eq_some_iff.1 h
    obtain ⟨more, hmore, -⟩ := Option.bind_eq_some_iff.1 hrest
    rw [List.forall_mem_cons]
    exact ⟨⟨value, hvalue⟩, ih hmore⟩

theorem lt_of_mapM_pairs {octets values : Octets} (heven : octets.length % 2 = 0)
    (h : ((pairs octets).mapM fun pair => pair? pair.1 pair.2) = some values) :
    ∀ octet ∈ octets, octet < 0x80 := by
  intro octet hmem
  rw [← flatMap_pairs octets heven] at hmem
  obtain ⟨⟨high, low⟩, hpair, hplace⟩ := List.mem_flatMap.1 hmem
  obtain ⟨value, hvalue⟩ := exists_of_mapM_eq_some h _ hpair
  have hlt := lt_of_pair? hvalue
  rcases List.mem_pair.1 hplace with rfl | rfl
  · exact hlt.1
  · exact hlt.2

theorem lt_of_encode_lt {text : List Char} (h : ∀ octet ∈ Utf8.encode text, octet < 0x80) :
    ∀ c ∈ text, c.toNat < 128 := by
  intro c hmem
  by_contra hlarge
  obtain ⟨octet, more, hoctets⟩ := List.exists_cons_of_ne_nil (Utf8.utf8EncodeChar_ne_nil c)
  have hoctet : octet ∈ String.utf8EncodeChar c := hoctets ▸ List.mem_cons_self
  have hhigh := Utf8.le_of_mem_utf8EncodeChar (Nat.not_lt.1 hlarge) octet hoctet
  have hlow := h octet (List.mem_flatMap.2 ⟨c, hmem, hoctet⟩)
  exact absurd hlow (UInt8.not_lt.2 hhigh)

theorem mapM_pairs_encode_iff : ∀ {text : List Char} {octets : Octets},
    (∀ c ∈ text, c.toNat < 128) → text.length % 2 = 0 →
    (((pairs (Utf8.encode text)).mapM fun pair => pair? pair.1 pair.2) = some octets ↔
      Denotes signedValue? text octets)
  | [], octets, _, _ => by
    rw [denotes_nil]
    simp [pairs, eq_comm]
  | [c], _, _, heven => absurd heven (by simp)
  | high :: low :: rest, octets, hascii, heven => by
    simp only [List.forall_mem_cons] at hascii
    obtain ⟨hhigh, hlow, hrest⟩ := hascii
    have hmore : rest.length % 2 = 0 := by
      simp only [List.length_cons] at heven
      omega
    rw [denotes_cons_cons, Utf8.encode_cons, Utf8.encode_cons, Utf8.utf8EncodeChar_of_lt hhigh,
      Utf8.utf8EncodeChar_of_lt hlow]
    simp only [List.cons_append, List.nil_append, pairs, List.mapM_cons, Option.bind_eq_bind,
      Option.bind_eq_some_iff, pair?_eq_some_iff hhigh hlow, mapM_pairs_encode_iff hrest hmore]
    constructor
    · rintro ⟨octet, hpair, more, hdenotes, hoctets⟩
      exact ⟨octet, more, (Option.some.inj hoctets).symm, hpair, hdenotes⟩
    · rintro ⟨octet, more, rfl, hpair, hdenotes⟩
      exact ⟨octet, hpair, more, hdenotes, rfl⟩

theorem length_encode_of_lt {text : List Char} (h : ∀ c ∈ text, c.toNat < 128) :
    (Utf8.encode text).length = text.length := by
  induction text with
  | nil => rfl
  | cons c rest ih =>
    rw [List.forall_mem_cons] at h
    rw [Utf8.encode_cons, Utf8.utf8EncodeChar_of_lt h.1, List.length_append, ih h.2,
      List.length_singleton, List.length_cons, Nat.add_comm]

theorem ofText_eq_ok_iff {text : List Char} {octets : Octets} :
    ofText text = .ok octets ↔ Denotes signedValue? text octets := by
  constructor
  · intro h
    simp only [ofText] at h
    split at h
    next => cases h
    next heven =>
      split at h
      next values hvalues =>
        cases h
        have heven := Nat.mod_two_ne_one.1 heven
        have hascii := lt_of_encode_lt (lt_of_mapM_pairs heven hvalues)
        rw [length_encode_of_lt hascii] at heven
        exact (mapM_pairs_encode_iff hascii heven).1 hvalues
      next => cases h
  · intro h
    have hascii := h.forall_mem (fun _ _ => lt_of_signedValue?) (fun _ _ => lt_of_digitValue?)
    have heven : text.length % 2 = 0 := by
      rw [h.length]
      exact Nat.mul_mod_right 2 _
    unfold ofText
    simp only [length_encode_of_lt hascii, heven, (mapM_pairs_encode_iff hascii heven).2 h]
    rfl

theorem message_of_ofText {text : List Char} {reason : Error}
    (h : ofText text = .error reason) : reason.message = refusal text := by
  rw [refusal, ← Utf8.length_encode, String.toList_ofList]
  simp only [ofText] at h
  split at h
  next hodd =>
    cases h
    rw [if_pos hodd]
    rfl
  next heven =>
    split at h
    next => cases h
    next =>
      cases h
      rw [if_neg heven]
      rfl

theorem mapError_ofText {text : List Char} (h : ∀ octets, ¬ Denotes signedValue? text octets) :
    (ofText text).mapError Error.message = .error (refusal text) := by
  cases hread : ofText text with
  | ok octets => exact absurd (ofText_eq_ok_iff.1 hread) (h octets)
  | error reason => rw [← message_of_ofText hread]; rfl

/-! ### The rule and the sign -/

theorem denotes_digits_iff {text : List Char} {octets : Octets} :
    Denotes digitValue? text octets ↔ Denotes signedValue? text octets ∧ '+' ∉ text := by
  constructor
  · intro h
    have hplus : ∀ c value, digitValue? c = some value → c ≠ '+' := by
      rintro c value hvalue rfl
      have hnone : digitValue? '+' = none := by decide
      rw [hnone] at hvalue
      cases hvalue
    have hall := h.forall_mem hplus hplus
    refine ⟨h.imp ?_, fun hmem => hall '+' hmem rfl⟩
    intro c hmem value hvalue
    rw [signedValue?, if_neg (hall c hmem), hvalue]
  · rintro ⟨h, hplus⟩
    apply h.imp
    intro c hmem value hvalue
    rwa [signedValue?, if_neg (ne_of_mem_of_not_mem hmem hplus)] at hvalue

theorem exists_denotes_iff : ∀ {text : List Char},
    (∃ octets, Denotes digitValue? text octets) ↔ IsHex text
  | [] => by simp [denotes_nil, IsHex]
  | [c] => by simp [not_denotes_singleton, IsHex]
  | high :: low :: rest => by
    have ih := @exists_denotes_iff rest
    constructor
    · rintro ⟨octets, h⟩
      obtain ⟨octet, more, rfl, ⟨sixteens, ones, hhigh, hlow, -⟩, hrest⟩ :=
        denotes_cons_cons.1 h
      obtain ⟨heven, hdigits⟩ := ih.1 ⟨more, hrest⟩
      refine ⟨by simp only [List.length_cons]; omega, ?_⟩
      simp only [List.forall_mem_cons]
      exact ⟨hhigh ▸ rfl, hlow ▸ rfl, hdigits⟩
    · rintro ⟨heven, hdigits⟩
      simp only [List.forall_mem_cons, Option.isSome_iff_exists] at hdigits
      obtain ⟨⟨sixteens, hhigh⟩, ⟨ones, hlow⟩, hrest⟩ := hdigits
      simp only [List.length_cons] at heven
      obtain ⟨more, hmore⟩ :=
        ih.2 ⟨by omega, by simpa only [Option.isSome_iff_exists] using hrest⟩
      have hsixteens := digitValue?_lt hhigh
      have hones := digitValue?_lt hlow
      have hvalue : (UInt8.ofNat (16 * sixteens + ones)).toNat = 16 * sixteens + ones :=
        Utf8.toNat_ofNat_of_lt (by omega)
      exact ⟨_, denotes_cons_cons.2
        ⟨_, more, rfl, ⟨sixteens, ones, hhigh, hlow, hvalue⟩, hmore⟩⟩

theorem followsRule_iff {text : List Char} :
    FollowsRule text ↔ ¬ ('+' ∈ text ∧ ∃ octets, Denotes signedValue? text octets) := by
  constructor
  · rintro hrule ⟨hplus, octets, hdenotes⟩
    have hdigits := hrule.denotes octets (ofText_eq_ok_iff.2 hdenotes)
    exact (denotes_digits_iff.1 hdigits).2 hplus
  · intro hsign
    have hsame : ∀ octets,
        Denotes signedValue? text octets ↔ Denotes digitValue? text octets := by
      intro octets
      rw [denotes_digits_iff]
      exact ⟨fun h => ⟨h, fun hplus => hsign ⟨hplus, octets, h⟩⟩, And.left⟩
    constructor
    · simp only [ofText_eq_ok_iff, hsame, exists_denotes_iff]
    · intro octets hread
      exact (hsame octets).1 (ofText_eq_ok_iff.1 hread)
    · intro hhex
      apply mapError_ofText
      intro octets hdenotes
      exact hhex (exists_denotes_iff.1 ⟨octets, (hsame octets).1 hdenotes⟩)

/--
Text is read as what its characters denote if a plus sign may stand for a zero in front in a
pair, and is refused if it denotes nothing even then.  The rule holds for all text but that
which is read with such a sign.
-/
theorem ofText_follows_rule_without_sign (text : List Char) :
    (∀ octets, ofText text = .ok octets ↔ Denotes signedValue? text octets) ∧
    ((∀ octets, ¬ Denotes signedValue? text octets) →
      (ofText text).mapError Error.message = .error (refusal text)) ∧
    (FollowsRule text ↔ ¬ ('+' ∈ text ∧ ∃ octets, ofText text = .ok octets)) := by
  refine ⟨fun _ => ofText_eq_ok_iff, mapError_ofText, ?_⟩
  rw [followsRule_iff]
  simp only [ofText_eq_ok_iff]

/-- A plus sign and one digit are read. -/
theorem not_followsRule_signed_digit : ¬ FollowsRule ['+', 'f'] := by
  intro h
  have hread : ofText ['+', 'f'] = .ok [0x0F] := by decide
  have hhex := (h.accepts.1 ⟨_, hread⟩).2 '+' List.mem_cons_self
  exact absurd hhex (by decide)

end Hex

end DerContents
