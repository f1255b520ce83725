import DerContents.Arc.Decimal
import DerContents.Proofs.Arc.Number

/-!
# Numerals

A numeral is `0`, or digits of which the first is not `0`.  Numerals and numbers are in
bijection, a normal arc is written as the numeral of its number, whichever way its
digits are found, and nothing but numerals is read: `Normal.digits_eq`, `ofDigits?_eq`.
-/

namespace DerContents

/-- A single `0`, or a digit from `1` to `9` before any digits. -/
def IsNumeral : List Char → Prop
  | [] => False
  | first :: rest =>
    first = '0' ∧ rest = [] ∨
      ('1' ≤ first ∧ first ≤ '9') ∧ ∀ digit ∈ rest, '0' ≤ digit ∧ digit ≤ '9'

instance : DecidablePred IsNumeral
  | [] => inferInstanceAs (Decidable False)
  | _ :: _ => inferInstanceAs (Decidable (_ ∨ _))

theorem isDigit_iff (c : Char) : c.isDigit = true ↔ '0' ≤ c ∧ c ≤ '9' := by
  simp [Char.isDigit, Char.le_def]

theorem toNat_of_isDigit {c : Char} (h : c.isDigit = true) : 48 ≤ c.toNat ∧ c.toNat ≤ 57 :=
  Char.isDigit_iff_toNat.1 h

theorem one_le_of_isDigit {c : Char} (h : c.isDigit = true) (hne : c ≠ '0') : '1' ≤ c := by
  have hrange := toNat_of_isDigit h
  have hvalue : c.toNat ≠ 48 := fun heq => hne (Char.toNat_inj.1 heq)
  have hone : 49 ≤ c.toNat := by omega
  exact hone

theorem digitChar_of_isDigit {c : Char} (h : c.isDigit = true) :
    Nat.digitChar (c.toNat - '0'.toNat) = c := by
  have hrange := toNat_of_isDigit h
  apply Char.toNat_inj.1
  rw [Nat.toNat_digitChar_of_lt_ten (by simp; omega)]
  simp
  omega

theorem toNat_digit_word {c : Char} (h : c.isDigit = true) :
    (c.val - '0'.val).toNat = c.toNat - '0'.toNat :=
  UInt32.toNat_sub_of_le _ _ (UInt32.le_iff_toNat_le.2 (toNat_of_isDigit h).1)

theorem isDigit_digitChar {number : Nat} (h : number < 10) :
    (Nat.digitChar number).isDigit = true := by
  have hvalue := Nat.toNat_digitChar_of_lt_ten h
  apply Char.isDigit_iff_toNat.2
  simp
  omega

/-- Digits behind a numeral other than zero make a longer one. -/
theorem toDigits_append {number : Nat} (hpos : 0 < number) {tail : List Char}
    (htail : ∀ c ∈ tail, c.isDigit = true) :
    Nat.toDigits 10 number ++ tail = Nat.toDigits 10 (Nat.ofDigitChars 10 tail number) := by
  induction tail generalizing number with
  | nil => simp
  | cons c rest ih =>
    have hc := htail c List.mem_cons_self
    have hrange := toNat_of_isDigit hc
    have hlast : c.toNat - '0'.toNat < 10 := by simp; omega
    have hstep : Nat.toDigits 10 number ++ [c] =
        Nat.toDigits 10 (10 * number + (c.toNat - '0'.toNat)) := by
      rw [← Nat.toDigits_append_toDigits (by omega) hpos hlast, Nat.toDigits_of_lt_base hlast,
        digitChar_of_isDigit hc]
    rw [Nat.ofDigitChars_cons, ← ih (by omega) fun d hd => htail d (List.mem_cons_of_mem c hd),
      ← hstep, List.append_assoc, List.singleton_append]

theorem isNumeral_cons_iff (first : Char) (rest : List Char) :
    IsNumeral (first :: rest) ↔
      first = '0' ∧ rest = [] ∨
        ('1' ≤ first ∧ first ≤ '9') ∧ ∀ digit ∈ rest, digit.isDigit = true := by
  simp only [IsNumeral, isDigit_iff]

theorem isNumeral_singleton {c : Char} (h : c.isDigit = true) : IsNumeral [c] := by
  by_cases hzero : c = '0'
  · exact Or.inl ⟨hzero, rfl⟩
  · refine Or.inr ⟨⟨one_le_of_isDigit h hzero, ((isDigit_iff c).1 h).2⟩, ?_⟩
    intro digit hmem
    exact absurd hmem List.not_mem_nil

theorem IsNumeral.isDigit {digits : List Char} (h : IsNumeral digits) :
    ∀ c ∈ digits, c.isDigit = true := by
  cases digits with
  | nil => exact absurd h id
  | cons first rest =>
    intro c hmem
    rcases (isNumeral_cons_iff first rest).1 h with ⟨rfl, rfl⟩ | ⟨hfirst, hrest⟩
    · rw [List.mem_singleton.1 hmem]
      rfl
    · rcases List.mem_cons.1 hmem with rfl | hmem
      · exact (isDigit_iff c).2 ⟨Char.le_trans (by decide) hfirst.1, hfirst.2⟩
      · exact hrest c hmem

theorem IsNumeral.toDigits_ofDigitChars {digits : List Char} (h : IsNumeral digits) :
    Nat.toDigits 10 (Nat.ofDigitChars 10 digits 0) = digits := by
  cases digits with
  | nil => exact absurd h id
  | cons first rest =>
    rcases (isNumeral_cons_iff first rest).1 h with ⟨rfl, rfl⟩ | ⟨hfirst, hrest⟩
    · simp [Nat.ofDigitChars_cons]
    · have hdigit := h.isDigit first List.mem_cons_self
      have hrange := toNat_of_isDigit hdigit
      have hlow : 49 ≤ first.toNat := hfirst.1
      have hlt : first.toNat - '0'.toNat < 10 := by simp; omega
      have hpos : 0 < first.toNat - '0'.toNat := by simp; omega
      rw [Nat.ofDigitChars_cons, Nat.mul_zero, Nat.zero_add, ← toDigits_append hpos hrest,
        Nat.toDigits_of_lt_base hlt, digitChar_of_isDigit hdigit, List.singleton_append]

theorem isNumeral_toDigits (number : Nat) : IsNumeral (Nat.toDigits 10 number) := by
  induction number using Nat.strongRecOn with
  | ind number ih =>
    by_cases hlt : number < 10
    · rw [Nat.toDigits_of_lt_base hlt]
      exact isNumeral_singleton (isDigit_digitChar hlt)
    · have hhigh := ih (number / 10) (by omega)
      rw [Nat.toDigits_of_base_le (by omega) (by omega)]
      cases hdigits : Nat.toDigits 10 (number / 10) with
      | nil => exact absurd hdigits Nat.toDigits_ne_nil
      | cons first rest =>
        have hvalue := @Nat.ofDigitChars_ten_toDigits (number / 10)
        rw [hdigits] at hhigh hvalue
        have hlast := isDigit_digitChar (Nat.mod_lt number (show 0 < 10 by omega))
        rcases (isNumeral_cons_iff first rest).1 hhigh with ⟨rfl, rfl⟩ | ⟨hfirst, hrest⟩
        · simp [Nat.ofDigitChars_cons] at hvalue
          omega
        · refine (isNumeral_cons_iff first _).2 (Or.inr ⟨hfirst, ?_⟩)
          intro c hmem
          rcases List.mem_append.1 hmem with hmem | hmem
          · exact hrest c hmem
          · rw [List.mem_singleton.1 hmem]
            exact hlast

namespace Arc

theorem isDigit_ninePlaces (chunk : UInt32) : ∀ c ∈ ninePlaces chunk, c.isDigit = true := by
  intro c hmem
  rcases List.mem_append.1 hmem with hmem | hmem
  · rw [List.eq_of_mem_replicate hmem]
    rfl
  · exact Nat.isDigit_of_mem_toDigits (by omega) (by omega) hmem

/-- A chunk in nine places multiplies what stands before it by a billion. -/
theorem ofDigitChars_ninePlaces {chunk : UInt32} (hchunk : chunk.toNat < 1000000000)
    (high : Nat) :
    Nat.ofDigitChars 10 (ninePlaces chunk) high = 1000000000 * high + chunk.toNat := by
  have hdigits : (Nat.toDigits 10 chunk.toNat).length ≤ 9 :=
    (Nat.length_toDigits_le_iff (by omega) (by omega)).2 hchunk
  have hlength : (ninePlaces chunk).length = 9 := by
    simp [ninePlaces]
    omega
  rw [Nat.ofDigitChars_eq_ofDigitChars_zero, hlength, ninePlaces, Nat.ofDigitChars_append,
    Nat.ofDigitChars_replicate_zero, Nat.mul_zero, Nat.ofDigitChars_ten_toDigits]

theorem toDigits_append_ninePlaces {chunk : UInt32} (hchunk : chunk.toNat < 1000000000)
    {high : Nat} (hhigh : 0 < high) :
    Nat.toDigits 10 high ++ ninePlaces chunk =
      Nat.toDigits 10 (1000000000 * high + chunk.toNat) := by
  rw [toDigits_append hhigh (isDigit_ninePlaces chunk), ofDigitChars_ninePlaces hchunk]

theorem chunks_of_isZero {arc : Arc} (h : arc.isZero = true) : arc.chunks = [] := by
  rw [chunks, if_pos h]

theorem chunks_of_not_isZero {arc : Arc} (h : ¬ arc.isZero = true) :
    arc.chunks = (arc.divRem 1000000000).2 :: (arc.divRem 1000000000).1.chunks := by
  rw [chunks, if_neg h]

/-- The last chunk is written behind those of the quotient, or alone if there are none. -/
theorem chunkedDigits_eq {arc : Arc} (h : ¬ arc.isZero = true) :
    arc.chunkedDigits =
      if (arc.divRem 1000000000).1.isZero = true then
        Nat.toDigits 10 (arc.divRem 1000000000).2.toNat
      else
        (arc.divRem 1000000000).1.chunkedDigits ++ ninePlaces (arc.divRem 1000000000).2 := by
  by_cases hlast : (arc.divRem 1000000000).1.isZero = true
  · simp [chunkedDigits, chunks_of_not_isZero h, chunks_of_isZero hlast, hlast]
  · cases hchunks : (arc.divRem 1000000000).1.chunks.reverse with
    | nil =>
      rw [List.reverse_eq_nil_iff, chunks_of_not_isZero hlast] at hchunks
      exact absurd hchunks (List.cons_ne_nil _ _)
    | cons first rest => simp [chunkedDigits, chunks_of_not_isZero h, hchunks, hlast]

theorem Normal.chunkedDigits_eq_toDigits {arc : Arc} (h : arc.Normal) (hpos : 0 < arc.toNat) :
    arc.chunkedDigits = Nat.toDigits 10 arc.toNat := by
  have hbillion : 0 < (1000000000 : UInt32).toNat := by decide
  induction hnumber : arc.toNat using Nat.strongRecOn generalizing arc with
  | ind number ih =>
    have hzero : ¬ arc.isZero = true := by
      rw [h.isZero_iff]
      omega
    have hquotient := arc.normal_divRem 1000000000
    have hvalue := arc.toNat_divRem hbillion
    have hrem := arc.divRem_remainder_lt hbillion
    simp only [UInt32.reduceToNat] at hvalue hrem
    rw [chunkedDigits_eq hzero]
    split
    next hlast =>
      rw [hquotient.isZero_iff] at hlast
      rw [← hnumber, ← hvalue, hlast, Nat.zero_mul, Nat.zero_add]
    next hmore =>
      rw [hquotient.isZero_iff] at hmore
      have hhigh := ih (arc.divRem 1000000000).1.toNat (by omega) hquotient (by omega) rfl
      rw [hhigh, toDigits_append_ninePlaces hrem (by omega), ← hnumber, ← hvalue, Nat.mul_comm]

theorem Normal.digits_eq {arc : Arc} (h : arc.Normal) :
    arc.digits = Nat.toDigits 10 arc.toNat := by
  unfold digits
  rw [h.toUInt64?_eq]
  by_cases hword : arc.toNat < 0x10000000000000000
  · rw [if_pos hword]
    simp only [UInt64.toNat_ofNat']
    rw [Nat.mod_eq_of_lt hword]
  · rw [if_neg hword]
    exact h.chunkedDigits_eq_toDigits (by omega)

theorem Normal.isNumeral_digits {arc : Arc} (h : arc.Normal) : IsNumeral arc.digits := by
  rw [h.digits_eq]
  exact isNumeral_toDigits arc.toNat

theorem digits_ofNat_ofDigitChars {digits : List Char} (h : IsNumeral digits) :
    (ofNat (Nat.ofDigitChars 10 digits 0)).digits = digits := by
  rw [(normal_ofNat _).digits_eq, toNat_ofNat, h.toDigits_ofDigitChars]

theorem appendDigit?_ofNat (number : Nat) (c : Char) :
    appendDigit? (ofNat number) c =
      if c.isDigit = true then some (ofNat (10 * number + (c.toNat - '0'.toNat))) else none := by
  unfold appendDigit?
  split
  next h =>
    rw [mulAdd_eq, toNat_ofNat, toNat_digit_word h, Nat.mul_comm]
    rfl
  next => rfl

theorem foldlM_appendDigit? (number : Nat) (digits : List Char) :
    digits.foldlM appendDigit? (ofNat number) =
      if digits.all Char.isDigit = true then
        some (ofNat (Nat.ofDigitChars 10 digits number))
      else
        none := by
  induction digits generalizing number with
  | nil => simp
  | cons c rest ih =>
    rw [List.foldlM_cons, appendDigit?_ofNat]
    by_cases hc : c.isDigit = true
    · rw [if_pos hc, Option.bind_eq_bind, Option.bind_some, ih, Nat.ofDigitChars_cons]
      simp [hc]
    · rw [if_neg hc, Option.bind_eq_bind, Option.bind_none]
      simp [hc]

theorem ofDigits?_eq (digits : List Char) :
    ofDigits? digits =
      if IsNumeral digits then some (ofNat (Nat.ofDigitChars 10 digits 0)) else none := by
  unfold ofDigits?
  split
  next => rfl
  next next rest =>
    have hnumeral : ¬ IsNumeral ('0' :: next :: rest) := by
      rw [isNumeral_cons_iff]
      simp
    rw [if_neg hnumeral]
  next hne hpadded =>
    have hiff : digits.all Char.isDigit = true ↔ IsNumeral digits := by
      rw [List.all_eq_true]
      refine ⟨fun hdigits => ?_, IsNumeral.isDigit⟩
      cases digits with
      | nil => exact absurd rfl hne
      | cons first rest =>
        have hfirst := (isDigit_iff first).1 (hdigits first List.mem_cons_self)
        rw [isNumeral_cons_iff]
        by_cases hzero : first = '0'
        · subst hzero
          cases rest with
          | nil => exact Or.inl ⟨rfl, rfl⟩
          | cons next more => exact absurd rfl (hpadded next more)
        · have hone := one_le_of_isDigit (hdigits first List.mem_cons_self) hzero
          exact Or.inr ⟨⟨hone, hfirst.2⟩,
            fun c hmem => hdigits c (List.mem_cons_of_mem first hmem)⟩
    rw [zero_eq, foldlM_appendDigit?]
    simp only [hiff]

end Arc

end DerContents
