import DerContents.Utf8.Basic

/-!
# UTF-8 read back

Reading accepts what writing produces and nothing else: `decode?_eq_some_iff`.
-/

namespace DerContents

namespace Utf8

@[simp] theorem encode_nil : encode [] = [] := rfl

@[simp] theorem encode_cons (c : Char) (rest : List Char) :
    encode (c :: rest) = String.utf8EncodeChar c ++ encode rest := rfl

theorem length_encode (text : String) : (encode text.toList).length = text.utf8ByteSize := by
  have h : text.toByteArray = (encode text.toList).toByteArray := by
    rw [← @String.ofList_toList text, String.toByteArray_ofList]
    simp [List.utf8Encode, encode]
  rw [← String.size_toByteArray, h, List.size_toByteArray]

theorem utf8EncodeChar_ne_nil (c : Char) : String.utf8EncodeChar c ≠ [] := by
  intro hnil
  have hlength := String.length_utf8EncodeChar c
  have hpos := c.utf8Size_pos
  rw [hnil, List.length_nil] at hlength
  omega

theorem utf8EncodeChar_of_lt {c : Char} (h : c.toNat < 128) :
    String.utf8EncodeChar c = [UInt8.ofNat c.toNat] := by
  have hval : c.val.toNat = c.toNat := rfl
  simp only [String.utf8EncodeChar, hval]
  rw [if_pos (by omega)]

theorem le_of_mem_utf8EncodeChar {c : Char} (h : 128 ≤ c.toNat) :
    ∀ octet ∈ String.utf8EncodeChar c, 0x80 ≤ octet := by
  have hval : c.val.toNat = c.toNat := rfl
  simp only [String.utf8EncodeChar, hval]
  rw [if_neg (by omega)]
  split
  · simp [UInt8.le_iff_toNat_le]; omega
  split
  · simp [UInt8.le_iff_toNat_le]; omega
  · simp [UInt8.le_iff_toNat_le]; omega

/-- The first octet of a character beyond ASCII is above all octets of ASCII. -/
theorem exists_utf8EncodeChar_cons {c : Char} (h : 128 ≤ c.toNat) :
    ∃ first more, String.utf8EncodeChar c = first :: more ∧ 0x80 ≤ first := by
  have hhigh := le_of_mem_utf8EncodeChar h
  cases hoctets : String.utf8EncodeChar c with
  | nil => exact absurd hoctets (utf8EncodeChar_ne_nil c)
  | cons first more =>
    rw [hoctets] at hhigh
    exact ⟨first, more, rfl, hhigh first List.mem_cons_self⟩

theorem character_eq {bits : UInt8} {tails : List UInt8} {c : Char}
    (h : tails.foldl (fun value tail => value * 64 + (tail.toNat - 0x80)) bits.toNat = c.toNat) :
    character bits tails = c := by
  rw [character, h, Char.ofNat_toNat]

theorem toNat_ofNat_of_lt {n : Nat} (h : n < 256) : (UInt8.ofNat n).toNat = n := by
  rw [UInt8.toNat_ofNat', Nat.mod_eq_of_lt h]

theorem isTail_iff {octet : UInt8} :
    isTail octet = true ↔ 0x80 ≤ octet.toNat ∧ octet.toNat ≤ 0xBF := by
  simp [isTail, UInt8.le_iff_toNat_le]

theorem isSecond_iff {first second : UInt8} :
    isSecond first second = true ↔
      0x80 ≤ second.toNat ∧ second.toNat ≤ 0xBF ∧
        (first.toNat = 0xE0 → 0xA0 ≤ second.toNat) ∧
        (first.toNat = 0xED → second.toNat ≤ 0x9F) ∧
        (first.toNat = 0xF0 → 0x90 ≤ second.toNat) ∧
        (first.toNat = 0xF4 → second.toNat ≤ 0x8F) := by
  simp only [isSecond, isTail, ← UInt8.toNat_inj, UInt8.reduceToNat]
  split
  · simp [UInt8.le_iff_toNat_le]; omega
  split
  · simp [UInt8.le_iff_toNat_le]; omega
  split
  · simp [UInt8.le_iff_toNat_le]; omega
  split
  · simp [UInt8.le_iff_toNat_le]; omega
  · simp [UInt8.le_iff_toNat_le]; omega

theorem decode?_one {first : UInt8} {c : Char} (rest : Octets)
    (h : first.toNat < 0x80) (hc : first.toNat = c.toNat) :
    decode? (first :: rest) = (decode? rest).map (c :: ·) := by
  have hfirst : first < 0x80 := h
  have hcharacter : character first [] = c := character_eq hc
  rw [decode?.eq_def]
  simp only [if_pos hfirst, hcharacter]

theorem decode?_two {first second : UInt8} {c : Char} (rest : Octets)
    (hlow : 0xC2 ≤ first.toNat) (hhigh : first.toNat ≤ 0xDF) (htail : isTail second = true)
    (hc : (first.toNat - 0xC0) * 64 + (second.toNat - 0x80) = c.toNat) :
    decode? (first :: second :: rest) = (decode? rest).map (c :: ·) := by
  have hfirst : ¬ first < 0x80 := by
    rw [UInt8.lt_iff_toNat_lt]; simp; omega
  have hrange : 0xC2 ≤ first ∧ first ≤ 0xDF := ⟨hlow, hhigh⟩
  have hbits : (first - 0xC0).toNat = first.toNat - 0xC0 :=
    UInt8.toNat_sub_of_le _ _ (by rw [UInt8.le_iff_toNat_le]; simp; omega)
  have hcharacter : character (first - 0xC0) [second] = c :=
    character_eq (by simpa [hbits] using hc)
  rw [decode?.eq_def]
  simp only [if_neg hfirst, if_pos hrange, if_pos htail, hcharacter]

theorem decode?_three {first second third : UInt8} {c : Char} (rest : Octets)
    (hlow : 0xE0 ≤ first.toNat) (hhigh : first.toNat ≤ 0xEF)
    (hsecond : isSecond first second = true) (hthird : isTail third = true)
    (hc : ((first.toNat - 0xE0) * 64 + (second.toNat - 0x80)) * 64 + (third.toNat - 0x80) =
      c.toNat) :
    decode? (first :: second :: third :: rest) = (decode? rest).map (c :: ·) := by
  have hfirst : ¬ first < 0x80 := by
    rw [UInt8.lt_iff_toNat_lt]; simp; omega
  have htwo : ¬ (0xC2 ≤ first ∧ first ≤ 0xDF) := by
    rw [UInt8.le_iff_toNat_le, UInt8.le_iff_toNat_le]; simp; omega
  have hrange : 0xE0 ≤ first ∧ first ≤ 0xEF := ⟨hlow, hhigh⟩
  have hbits : (first - 0xE0).toNat = first.toNat - 0xE0 :=
    UInt8.toNat_sub_of_le _ _ hrange.1
  have hcharacter : character (first - 0xE0) [second, third] = c :=
    character_eq (by simpa [hbits] using hc)
  rw [decode?.eq_def]
  simp only [if_neg hfirst, if_neg htwo, if_pos hrange, hsecond, hthird, and_self, if_true,
    hcharacter]

theorem decode?_four {first second third fourth : UInt8} {c : Char} (rest : Octets)
    (hlow : 0xF0 ≤ first.toNat) (hhigh : first.toNat ≤ 0xF4)
    (hsecond : isSecond first second = true) (hthird : isTail third = true)
    (hfourth : isTail fourth = true)
    (hc : (((first.toNat - 0xF0) * 64 + (second.toNat - 0x80)) * 64 +
        (third.toNat - 0x80)) * 64 + (fourth.toNat - 0x80) = c.toNat) :
    decode? (first :: second :: third :: fourth :: rest) = (decode? rest).map (c :: ·) := by
  have hfirst : ¬ first < 0x80 := by
    rw [UInt8.lt_iff_toNat_lt]; simp; omega
  have htwo : ¬ (0xC2 ≤ first ∧ first ≤ 0xDF) := by
    rw [UInt8.le_iff_toNat_le, UInt8.le_iff_toNat_le]; simp; omega
  have hthree : ¬ (0xE0 ≤ first ∧ first ≤ 0xEF) := by
    rw [UInt8.le_iff_toNat_le, UInt8.le_iff_toNat_le]; simp; omega
  have hrange : 0xF0 ≤ first ∧ first ≤ 0xF4 := ⟨hlow, hhigh⟩
  have hbits : (first - 0xF0).toNat = first.toNat - 0xF0 :=
    UInt8.toNat_sub_of_le _ _ hrange.1
  have hcharacter : character (first - 0xF0) [second, third, fourth] = c :=
    character_eq (by simpa [hbits] using hc)
  rw [decode?.eq_def]
  simp only [if_neg hfirst, if_neg htwo, if_neg hthree, if_pos hrange, hsecond, hthird,
    hfourth, and_self, if_true, hcharacter]

theorem decode?_utf8EncodeChar_append (c : Char) (rest : Octets) :
    decode? (String.utf8EncodeChar c ++ rest) = (decode? rest).map (c :: ·) := by
  have hscalar : c.toNat < 0xD800 ∨ 0xDFFF < c.toNat ∧ c.toNat < 0x110000 := c.valid
  have hval : c.val.toNat = c.toNat := rfl
  have hoctet : ∀ n, n < 256 → (UInt8.ofNat n).toNat = n := fun _ => toNat_ofNat_of_lt
  simp only [String.utf8EncodeChar, hval]
  split
  next =>
    have h1 := hoctet c.toNat (by omega)
    exact decode?_one rest (by omega) (by omega)
  next =>
    have hlast := hoctet (c.toNat % 64 + 128) (by omega)
    split
    next =>
      have h1 := hoctet (c.toNat / 64 % 32 + 192) (by omega)
      exact decode?_two rest (by omega) (by omega) (isTail_iff.2 (by omega)) (by omega)
    next =>
      have hmiddle := hoctet (c.toNat / 64 % 64 + 128) (by omega)
      split
      next =>
        have h1 := hoctet (c.toNat / 4096 % 16 + 224) (by omega)
        exact decode?_three rest (by omega) (by omega) (isSecond_iff.2 (by omega))
          (isTail_iff.2 (by omega)) (by omega)
      next =>
        have h1 := hoctet (c.toNat / 262144 % 8 + 240) (by omega)
        have h2 := hoctet (c.toNat / 4096 % 64 + 128) (by omega)
        exact decode?_four rest (by omega) (by omega) (isSecond_iff.2 (by omega))
          (isTail_iff.2 (by omega)) (isTail_iff.2 (by omega)) (by omega)

theorem decode?_encode (text : List Char) : decode? (encode text) = some text := by
  induction text with
  | nil => rfl
  | cons c rest ih => simp [decode?_utf8EncodeChar_append, ih]

theorem toNat_ofNat_of_isValidChar {n : Nat} (h : n.isValidChar) : (Char.ofNat n).toNat = n := by
  rw [Char.ofNat, dif_pos h]
  rfl

theorem utf8EncodeChar_one {first : UInt8} (h : first.toNat < 0x80) :
    String.utf8EncodeChar (character first []) = [first] := by
  have hn : (character first []).val.toNat = first.toNat :=
    toNat_ofNat_of_isValidChar (Or.inl (by simp; omega))
  simp only [String.utf8EncodeChar, hn]
  rw [if_pos (by omega), UInt8.ofNat_toNat]

theorem utf8EncodeChar_two {first second : UInt8}
    (hlow : 0xC2 ≤ first.toNat) (hhigh : first.toNat ≤ 0xDF) (htail : isTail second = true) :
    String.utf8EncodeChar (character (first - 0xC0) [second]) = [first, second] := by
  have hbits : (first - 0xC0).toNat = first.toNat - 0xC0 :=
    UInt8.toNat_sub_of_le _ _ (by rw [UInt8.le_iff_toNat_le]; simp; omega)
  have hsecond := isTail_iff.1 htail
  have hn : (character (first - 0xC0) [second]).val.toNat =
      (first.toNat - 0xC0) * 64 + (second.toNat - 0x80) := by
    rw [← hbits]
    exact toNat_ofNat_of_isValidChar (Or.inl (by simp [hbits]; omega))
  simp only [String.utf8EncodeChar, hn]
  rw [if_neg (by omega), if_pos (by omega)]
  simp only [List.cons.injEq, and_true, ← UInt8.toNat_inj, UInt8.toNat_ofNat']
  omega

theorem utf8EncodeChar_three {first second third : UInt8}
    (hlow : 0xE0 ≤ first.toNat) (hhigh : first.toNat ≤ 0xEF)
    (hsecond : isSecond first second = true) (hthird : isTail third = true) :
    String.utf8EncodeChar (character (first - 0xE0) [second, third]) =
      [first, second, third] := by
  have hbits : (first - 0xE0).toNat = first.toNat - 0xE0 :=
    UInt8.toNat_sub_of_le _ _ (by rw [UInt8.le_iff_toNat_le]; simpa using hlow)
  have h2 := isSecond_iff.1 hsecond
  have h3 := isTail_iff.1 hthird
  have hn : (character (first - 0xE0) [second, third]).val.toNat =
      ((first.toNat - 0xE0) * 64 + (second.toNat - 0x80)) * 64 + (third.toNat - 0x80) := by
    rw [← hbits]
    refine toNat_ofNat_of_isValidChar ?_
    simp only [Nat.isValidChar, List.foldl_cons, List.foldl_nil, hbits]
    omega
  simp only [String.utf8EncodeChar, hn]
  rw [if_neg (by omega), if_neg (by omega), if_pos (by omega)]
  simp only [List.cons.injEq, and_true, ← UInt8.toNat_inj, UInt8.toNat_ofNat']
  omega

theorem utf8EncodeChar_four {first second third fourth : UInt8}
    (hlow : 0xF0 ≤ first.toNat) (hhigh : first.toNat ≤ 0xF4)
    (hsecond : isSecond first second = true) (hthird : isTail third = true)
    (hfourth : isTail fourth = true) :
    String.utf8EncodeChar (character (first - 0xF0) [second, third, fourth]) =
      [first, second, third, fourth] := by
  have hbits : (first - 0xF0).toNat = first.toNat - 0xF0 :=
    UInt8.toNat_sub_of_le _ _ (by rw [UInt8.le_iff_toNat_le]; simpa using hlow)
  have h2 := isSecond_iff.1 hsecond
  have h3 := isTail_iff.1 hthird
  have h4 := isTail_iff.1 hfourth
  have hn : (character (first - 0xF0) [second, third, fourth]).val.toNat =
      (((first.toNat - 0xF0) * 64 + (second.toNat - 0x80)) * 64 + (third.toNat - 0x80)) * 64 +
        (fourth.toNat - 0x80) := by
    rw [← hbits]
    refine toNat_ofNat_of_isValidChar ?_
    simp only [Nat.isValidChar, List.foldl_cons, List.foldl_nil, hbits]
    omega
  simp only [String.utf8EncodeChar, hn]
  rw [if_neg (by omega), if_neg (by omega), if_neg (by omega)]
  simp only [List.cons.injEq, and_true, ← UInt8.toNat_inj, UInt8.toNat_ofNat']
  omega

theorem encode_eq_of_decode? {octets : Octets} {text : List Char}
    (h : decode? octets = some text) : encode text = octets := by
  fun_induction decode? octets generalizing text with
  | case1 => simp_all
  | case2 first rest hfirst ih =>
    obtain ⟨more, hmore, rfl⟩ := Option.map_eq_some_iff.1 h
    rw [encode_cons, ih hmore, utf8EncodeChar_one hfirst]
    rfl
  | case3 first hone htwo second rest htail ih =>
    obtain ⟨more, hmore, rfl⟩ := Option.map_eq_some_iff.1 h
    rw [encode_cons, ih hmore, utf8EncodeChar_two htwo.1 htwo.2 htail]
    rfl
  | case6 first hone htwo hthree second third rest htails ih =>
    obtain ⟨more, hmore, rfl⟩ := Option.map_eq_some_iff.1 h
    rw [encode_cons, ih hmore,
      utf8EncodeChar_three hthree.1 hthree.2 htails.1 htails.2]
    rfl
  | case9 first hone htwo hthree hfour second third fourth rest htails ih =>
    obtain ⟨more, hmore, rfl⟩ := Option.map_eq_some_iff.1 h
    rw [encode_cons, ih hmore,
      utf8EncodeChar_four hfour.1 hfour.2 htails.1 htails.2.1 htails.2.2]
    rfl
  | case4 | case5 | case7 | case8 | case10 | case11 | case12 => simp at h

theorem decode?_eq_some_iff {octets : Octets} {text : List Char} :
    decode? octets = some text ↔ encode text = octets :=
  ⟨encode_eq_of_decode?, fun h => h ▸ decode?_encode text⟩

end Utf8

end DerContents
