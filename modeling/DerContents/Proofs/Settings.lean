import DerContents.Proofs.Arc.Numeral
import DerContents.Proofs.Limbs.Checked
import DerContents.Proofs.Utf8.Table
import DerContents.Settings
import Mathlib.Data.List.DropRight

/-!
# Limits from settings

A setting gives a limit when it is the UTF-8 of a number that fits one word: its numeral,
any zeros in front, a plus sign before them or none, and any white space around.  Each
limit is the one that its own setting gives, and the standard one if that gives none.
-/

namespace DerContents

theorem dropWhile_append_of_head? {α : Type} {p : α → Bool} {front rest : List α}
    (hfront : ∀ a ∈ front, p a = true) (hrest : ∀ a ∈ rest.head?, ¬ p a = true) :
    (front ++ rest).dropWhile p = rest := by
  rw [List.dropWhile_append_of_pos hfront]
  cases rest with
  | nil => rfl
  | cons a more => exact List.dropWhile_cons_of_neg (hrest a rfl)

theorem not_of_mem_head?_dropWhile {α : Type} {p : α → Bool} {row : List α} {a : α}
    (h : a ∈ (row.dropWhile p).head?) : ¬ p a = true := by
  have hhead := List.head?_dropWhile_not p row
  rw [Option.mem_def.1 h] at hhead
  simpa using hhead

namespace Setting

/-! ### White space -/

/-- The numbers of the characters that have the Unicode property White_Space. -/
def whiteSpace : List Nat :=
  [0x9, 0xA, 0xB, 0xC, 0xD, 0x20, 0x85, 0xA0, 0x1680, 0x2000, 0x2001, 0x2002, 0x2003, 0x2004,
    0x2005, 0x2006, 0x2007, 0x2008, 0x2009, 0x200A, 0x2028, 0x2029, 0x202F, 0x205F, 0x3000]

def IsWhiteSpace (c : Char) : Prop :=
  c.toNat ∈ whiteSpace

/-- What stands between the white space at the ends of a text, with none at its own ends. -/
structure Stripped (text core : List Char) : Prop where
  between : ∃ front back, text = front ++ core ++ back ∧ ∀ c ∈ front ++ back, IsWhiteSpace c
  first : ∀ c ∈ core.head?, ¬ IsWhiteSpace c
  last : ∀ c ∈ core.getLast?, ¬ IsWhiteSpace c

theorem isBlank_iff {c : Char} : isBlank c = true ↔ IsWhiteSpace c := by
  simp only [isBlank, IsWhiteSpace, whiteSpace, List.mem_cons, List.not_mem_nil, or_false,
    Bool.or_eq_true, Bool.and_eq_true, decide_eq_true_eq]
  omega

theorem Stripped.trimBlanks_eq {text core : List Char} (h : Stripped text core) :
    trimBlanks text = core := by
  rcases h with ⟨⟨front, back, rfl, hspace⟩, hfirst, hlast⟩
  simp only [← isBlank_iff] at hspace hfirst hlast
  cases core with
  | nil =>
    -- With nothing between them, both ends go at once.
    have hnone : (front ++ [] ++ back).dropWhile isBlank = [] := by
      rw [List.append_nil, ← List.append_nil (front ++ back)]
      exact dropWhile_append_of_head? hspace (by simp)
    rw [trimBlanks, hnone]
    rfl
  | cons c more =>
    have hfront : (front ++ c :: more ++ back).dropWhile isBlank = c :: more ++ back := by
      rw [List.append_assoc]
      exact dropWhile_append_of_head? (fun d hmem => hspace d (List.mem_append_left _ hmem)) hfirst
    have hback : (c :: more ++ back).reverse.dropWhile isBlank = (c :: more).reverse := by
      rw [List.reverse_append]
      apply dropWhile_append_of_head?
      · intro d hmem
        exact hspace d (List.mem_append_right _ (List.mem_reverse.1 hmem))
      · rw [List.head?_reverse]
        exact hlast
    rw [trimBlanks, hfront, hback, List.reverse_reverse]

theorem stripped_trimBlanks (text : List Char) : Stripped text (trimBlanks text) := by
  have hends : trimBlanks text ++ (text.dropWhile isBlank).rtakeWhile isBlank =
      text.dropWhile isBlank := List.rdropWhile_append_rtakeWhile
  constructor
  case between =>
    refine ⟨text.takeWhile isBlank, (text.dropWhile isBlank).rtakeWhile isBlank, ?_, ?_⟩
    · rw [List.append_assoc, hends, List.takeWhile_append_dropWhile]
    · intro c hmem
      rw [← isBlank_iff]
      rcases List.mem_append.1 hmem with hmem | hmem
      · exact List.mem_takeWhile_imp hmem
      · exact List.mem_rtakeWhile_imp hmem
  case first =>
    intro c hmem
    have hhead : c ∈ (text.dropWhile isBlank).head? := by
      rw [← hends, List.head?_append, Option.mem_def.1 hmem]
      rfl
    rw [← isBlank_iff]
    exact not_of_mem_head?_dropWhile hhead
  case last =>
    intro c hmem
    rw [trimBlanks, List.getLast?_reverse] at hmem
    rw [← isBlank_iff]
    exact not_of_mem_head?_dropWhile hmem

/-! ### Numbers -/

/-- The numeral of a number with any zeros in front. -/
def Denotes (digits : List Char) (number : Nat) : Prop :=
  ∃ zeros, digits = List.replicate zeros '0' ++ Nat.toDigits 10 number

/-- Digits that denote a number, behind one plus sign or none. -/
inductive Spells : List Char → Nat → Prop where
  | plain {digits : List Char} {number : Nat} : Denotes digits number → Spells digits number
  | plus {digits : List Char} {number : Nat} :
    Denotes digits number → Spells ('+' :: digits) number

theorem Denotes.ne_nil {digits : List Char} {number : Nat} (h : Denotes digits number) :
    digits ≠ [] := by
  rcases h with ⟨zeros, rfl⟩
  exact List.append_ne_nil_of_right_ne_nil _ Nat.toDigits_ne_nil

theorem Denotes.isDigit {digits : List Char} {number : Nat} (h : Denotes digits number) :
    ∀ c ∈ digits, c.isDigit = true := by
  rcases h with ⟨zeros, rfl⟩
  intro c hmem
  rcases List.mem_append.1 hmem with hmem | hmem
  · rw [List.eq_of_mem_replicate hmem]
    rfl
  · exact (isNumeral_toDigits number).isDigit c hmem

theorem Denotes.ofDigitChars_eq {digits : List Char} {number : Nat} (h : Denotes digits number) :
    Nat.ofDigitChars 10 digits 0 = number := by
  rcases h with ⟨zeros, rfl⟩
  rw [Nat.ofDigitChars_append, Nat.ofDigitChars_replicate_zero, Nat.mul_zero,
    Nat.ofDigitChars_ten_toDigits]

theorem Denotes.zero_cons {digits : List Char} {number : Nat} (h : Denotes digits number) :
    Denotes ('0' :: digits) number := by
  rcases h with ⟨zeros, rfl⟩
  exact ⟨zeros + 1, rfl⟩

theorem denotes_ofDigitChars {digits : List Char} (hne : digits ≠ [])
    (hdigits : ∀ c ∈ digits, c.isDigit = true) :
    Denotes digits (Nat.ofDigitChars 10 digits 0) := by
  induction digits with
  | nil => exact absurd rfl hne
  | cons first rest ih =>
    by_cases hnumeral : IsNumeral (first :: rest)
    · exact ⟨0, hnumeral.toDigits_ofDigitChars.symm⟩
    · have hfirst := hdigits first List.mem_cons_self
      have hrest : ∀ c ∈ rest, c.isDigit = true := fun c hmem =>
        hdigits c (List.mem_cons_of_mem first hmem)
      rw [isNumeral_cons_iff, not_or] at hnumeral
      have hzero : first = '0' := by
        by_contra hzero
        have hbounds := (isDigit_iff first).1 hfirst
        exact hnumeral.2 ⟨⟨one_le_of_isDigit hfirst hzero, hbounds.2⟩, hrest⟩
      have hmore : rest ≠ [] := fun hnil => hnumeral.1 ⟨hzero, hnil⟩
      rw [hzero, Nat.ofDigitChars_cons]
      exact (ih hmore hrest).zero_cons

theorem denotes_iff {digits : List Char} {number : Nat} :
    Denotes digits number ↔
      (digits ≠ [] ∧ ∀ c ∈ digits, c.isDigit = true) ∧
        Nat.ofDigitChars 10 digits 0 = number := by
  constructor
  · intro h
    exact ⟨⟨h.ne_nil, h.isDigit⟩, h.ofDigitChars_eq⟩
  · intro h
    rcases h with ⟨⟨hne, hdigits⟩, rfl⟩
    exact denotes_ofDigitChars hne hdigits

theorem dropPlus_of_ne {text : List Char} (h : ∀ rest, text ≠ '+' :: rest) :
    dropPlus text = text := by
  unfold dropPlus
  split
  next rest => exact absurd rfl (h rest)
  next => rfl

theorem spells_iff {core : List Char} {number : Nat} :
    Spells core number ↔ Denotes (dropPlus core) number := by
  constructor
  · intro h
    cases h with
    | plus hdenotes => exact hdenotes
    | plain hdenotes =>
      have hplus : ∀ rest, core ≠ '+' :: rest := by
        intro rest hcore
        have hmem : '+' ∈ core := by
          rw [hcore]
          exact List.mem_cons_self
        exact absurd (hdenotes.isDigit '+' hmem) (by decide)
      rw [dropPlus_of_ne hplus]
      exact hdenotes
  · intro h
    unfold dropPlus at h
    split at h
    · exact .plus h
    · exact .plain h

theorem number?_eq_some_iff {text : List Char} {number : Nat} :
    number? text = some number ↔
      Spells (trimBlanks text) number ∧ number ≤ Limits.largest := by
  rw [spells_iff, denotes_iff, ← List.all_eq_true, number?]
  split
  next hdigits =>
    rw [Option.ite_none_right_eq_some, Option.some_inj]
    constructor
    · intro h
      rcases h with ⟨hle, rfl⟩
      exact ⟨⟨hdigits, rfl⟩, hle⟩
    · intro h
      rcases h with ⟨⟨-, rfl⟩, hle⟩
      exact ⟨hle, rfl⟩
  next hdigits =>
    constructor
    · intro h
      cases h
    · intro h
      exact absurd h.1.1 hdigits

/-! ### Reading in one word -/

/-- The number read so far with one more digit; none when that takes more than a word. -/
def appendDigit? (word : UInt64) (digit : Char) : Option UInt64 :=
  if digit.isDigit then do
    Word.add? (← Word.mul? word 10) (digit.val - '0'.val).toUInt64
  else
    none

/-- The word of digits behind one plus sign or none, with a check at each digit. -/
def word? (core : List Char) : Option UInt64 :=
  let digits := dropPlus core
  if digits = [] then none else digits.foldlM appendDigit? 0

theorem appendDigit?_eq_some_iff {word next : UInt64} {c : Char} :
    appendDigit? word c = some next ↔
      c.isDigit = true ∧ next.toNat = 10 * word.toNat + (c.toNat - '0'.toNat) := by
  rw [appendDigit?, Option.ite_none_right_eq_some, and_congr_right_iff]
  intro hdigit
  have hvalue : (c.val - '0'.val).toUInt64.toNat = c.toNat - '0'.toNat := toNat_digit_word hdigit
  have hnext := next.toNat_lt
  rw [Option.bind_eq_bind, Option.bind_eq_some_iff]
  simp only [Word.mul?_eq_some_iff, Word.add?_eq_some_iff, hvalue, UInt64.reduceToNat]
  constructor
  · intro h
    rcases h with ⟨tenfold, htenfold, hsum⟩
    omega
  · intro hsum
    have htenfold : (UInt64.ofNat (10 * word.toNat)).toNat = 10 * word.toNat := by
      rw [UInt64.toNat_ofNat', Nat.mod_eq_of_lt (by omega)]
    refine ⟨UInt64.ofNat (10 * word.toNat), ?_, ?_⟩
    · rw [htenfold, Nat.mul_comm]
    · rw [htenfold, hsum]

theorem le_ofDigitChars (digits : List Char) (number : Nat) :
    number ≤ Nat.ofDigitChars 10 digits number := by
  rw [Nat.ofDigitChars_eq_ofDigitChars_zero]
  exact Nat.le_add_right_of_le (Nat.le_mul_of_pos_left number (Nat.pow_pos (by omega)))

theorem foldlM_appendDigit?_eq_some_iff {word next : UInt64} {digits : List Char} :
    digits.foldlM appendDigit? word = some next ↔
      (∀ c ∈ digits, c.isDigit = true) ∧
        next.toNat = Nat.ofDigitChars 10 digits word.toNat := by
  induction digits generalizing word with
  | nil => simp [UInt64.toNat_inj, @eq_comm _ next]
  | cons c rest ih =>
    rw [List.foldlM_cons, Option.bind_eq_bind, Option.bind_eq_some_iff, List.forall_mem_cons,
      Nat.ofDigitChars_cons]
    simp only [appendDigit?_eq_some_iff, ih]
    constructor
    · intro h
      rcases h with ⟨middle, ⟨hdigit, hmiddle⟩, hrest, hnext⟩
      rw [hmiddle] at hnext
      exact ⟨⟨hdigit, hrest⟩, hnext⟩
    · intro h
      rcases h with ⟨⟨hdigit, hrest⟩, hnext⟩
      have hle := le_ofDigitChars rest (10 * word.toNat + (c.toNat - '0'.toNat))
      have hlt := next.toNat_lt
      have hmiddle : (UInt64.ofNat (10 * word.toNat + (c.toNat - '0'.toNat))).toNat =
          10 * word.toNat + (c.toNat - '0'.toNat) := by
        rw [UInt64.toNat_ofNat', Nat.mod_eq_of_lt (by omega)]
      rw [← hmiddle] at hnext
      exact ⟨_, ⟨hdigit, hmiddle⟩, hrest, hnext⟩

theorem word?_eq_some_iff {core : List Char} {word : UInt64} :
    word? core = some word ↔ Spells core word.toNat := by
  rw [spells_iff, denotes_iff, word?, Option.ite_none_left_eq_some,
    foldlM_appendDigit?_eq_some_iff, UInt64.toNat_zero, and_assoc, @eq_comm _ word.toNat]

theorem toNat_ofNat_of_le {number : Nat} (h : number ≤ Limits.largest) :
    (UInt64.ofNat number).toNat = number := by
  rw [Limits.largest] at h
  exact UInt64.toNat_ofNat_of_lt' (Nat.lt_of_le_of_lt h (by decide))

theorem toNat_le_largest (word : UInt64) : word.toNat ≤ Limits.largest := by
  have hlt := word.toNat_lt
  rw [Limits.largest]
  omega

theorem number?_eq_word? (text : List Char) :
    number? text = (word? (trimBlanks text)).map UInt64.toNat := by
  apply Option.ext
  intro number
  rw [number?_eq_some_iff, Option.map_eq_some_iff]
  constructor
  · intro h
    have hword := toNat_ofNat_of_le h.2
    have hspells : Spells (trimBlanks text) (UInt64.ofNat number).toNat := by
      rw [hword]
      exact h.1
    exact ⟨UInt64.ofNat number, word?_eq_some_iff.2 hspells, hword⟩
  · intro h
    rcases h with ⟨word, hword, rfl⟩
    exact ⟨word?_eq_some_iff.1 hword, toNat_le_largest word⟩

/-! ### Limits -/

/-- The variable is set to the UTF-8 of a text that spells, once stripped, a number of one word. -/
def Gives (setting : Setting) (limit : Nat) : Prop :=
  ∃ octets text core, setting = some octets ∧ Utf8.Encodes text octets ∧
    Stripped text core ∧ Spells core limit ∧ limit ≤ 0xFFFFFFFFFFFFFFFF

theorem gives_iff {setting : Setting} {limit : Nat} :
    setting.Gives limit ↔ setting.characters?.bind number? = some limit := by
  rw [Option.bind_eq_some_iff]
  constructor
  · intro h
    rcases h with ⟨octets, text, core, rfl, hencodes, hstripped, hspells, hle⟩
    have hnumber : number? text = some limit := by
      rw [number?_eq_some_iff, hstripped.trimBlanks_eq]
      exact ⟨hspells, hle⟩
    exact ⟨text, Utf8.decode?_eq_some_iff_encodes.2 hencodes, hnumber⟩
  · intro h
    rcases h with ⟨text, hcharacters, hnumber⟩
    rcases Option.bind_eq_some_iff.1 hcharacters with ⟨octets, rfl, hdecoded⟩
    rcases number?_eq_some_iff.1 hnumber with ⟨hspells, hle⟩
    exact ⟨octets, text, trimBlanks text, rfl, Utf8.decode?_eq_some_iff_encodes.1 hdecoded,
      stripped_trimBlanks text, hspells, hle⟩

theorem number_eq_iff {setting : Setting} {default limit : Nat} :
    setting.number default = limit ↔
      setting.Gives limit ∨ limit = default ∧ ∀ other, ¬ setting.Gives other := by
  simp only [gives_iff, number]
  cases setting.characters?.bind number? with
  | none => simp [eq_comm]
  | some given => simp

end Setting

namespace Settings

/--
Each limit is the one that its own variable gives, and the standard one if that gives none,
so that neither variable has a part in the limit of the other.  A number is read as it is
in one word with a check at each digit.
-/
theorem limits_follow_their_variables (environment : String → Setting) :
    (∀ limit, (ofEnvironment environment).limits.maxOctets = limit ↔
      (environment "DERID_MAX_OID_OCTETS").Gives limit ∨
        limit = 1024 ∧ ∀ other, ¬ (environment "DERID_MAX_OID_OCTETS").Gives other) ∧
    (∀ limit, (ofEnvironment environment).limits.maxTextLength = limit ↔
      (environment "DERID_MAX_OID_TEXT").Gives limit ∨
        limit = 4096 ∧ ∀ other, ¬ (environment "DERID_MAX_OID_TEXT").Gives other) ∧
    ∀ text, Setting.number? text =
      (Setting.word? (Setting.trimBlanks text)).map UInt64.toNat := by
  refine ⟨?octets, ?text, Setting.number?_eq_word?⟩
  case octets =>
    intro limit
    exact Setting.number_eq_iff
  case text =>
    intro limit
    exact Setting.number_eq_iff

example : (limits ⟨some (Utf8.encode "\u00A0+00018446744073709551615\u3000".toList),
    some (Utf8.encode "18446744073709551616".toList)⟩) = ⟨0xFFFFFFFFFFFFFFFF, 4096⟩ := by
  decide +kernel

example : ∀ text ∈ ["", " ", "+", "++1", "-1", "+ 1", "1 7", "1_000"],
    (limits ⟨some (Utf8.encode text.toList), some [0x37, 0xC0]⟩) = Limits.standard := by
  decide +kernel

end Settings

end DerContents
