import DerContents.Utf8.RoundTrip

/-!
# The table and the grammar of UTF-8

RFC 3629 defines UTF-8 twice.  A table puts the bits of a character number into one to
four octets, as few as have room for it; a grammar lists the octets that may follow one
another.  Both are stated here on numbers alone.  For the numbers of characters they say
the same, and text is written and read by them.
-/

namespace DerContents

namespace Utf8

/-- A row of the table: the bits of the number, six in each octet behind the first. -/
inductive Row (number : Nat) : List Nat → Prop where
  | one : number ≤ 0x7F → Row number [number]
  | two {a b : Nat} : a < 32 → b < 64 → a * 64 + b = number → 0x80 ≤ number →
      Row number [a + 0xC0, b + 0x80]
  | three {a b c : Nat} : a < 16 → b < 64 → c < 64 → (a * 64 + b) * 64 + c = number →
      0x800 ≤ number → Row number [a + 0xE0, b + 0x80, c + 0x80]
  | four {a b c d : Nat} : a < 8 → b < 64 → c < 64 → d < 64 →
      ((a * 64 + b) * 64 + c) * 64 + d = number → 0x10000 ≤ number → number ≤ 0x10FFFF →
      Row number [a + 0xF0, b + 0x80, c + 0x80, d + 0x80]

/-- Octets of the characters of a text, one character after the other. -/
inductive Encodes : List Char → Octets → Prop where
  | nil : Encodes [] []
  | cons {c : Char} {rest : List Char} {piece more : Octets} :
      Row c.toNat (piece.map UInt8.toNat) → Encodes rest more →
      Encodes (c :: rest) (piece ++ more)

def WellFormed (octets : Octets) : Prop :=
  ∃ text, Encodes text octets

theorem Row.unique {number : Nat} {row other : List Nat} (h : Row number row)
    (hother : Row number other) : row = other := by
  cases h with
  | one hsize =>
    cases hother with
    | one => rfl
    | two | three | four => omega
  | two ha hb hnumber hsize =>
    cases hother with
    | two ha' hb' hnumber' hsize' =>
      simp only [List.cons.injEq, and_true]
      omega
    | one | three | four => omega
  | three ha hb hc hnumber hsize =>
    cases hother with
    | three ha' hb' hc' hnumber' hsize' =>
      simp only [List.cons.injEq, and_true]
      omega
    | one | two | four => omega
  | four ha hb hc hd hnumber hsize hbound =>
    cases hother with
    | four ha' hb' hc' hd' hnumber' hsize' hbound' =>
      simp only [List.cons.injEq, and_true]
      omega
    | one | two | three => omega

theorem row_utf8EncodeChar (c : Char) :
    Row c.toNat ((String.utf8EncodeChar c).map UInt8.toNat) := by
  have hscalar : c.toNat < 0xD800 ∨ 0xDFFF < c.toNat ∧ c.toNat < 0x110000 := c.valid
  have hval : c.val.toNat = c.toNat := rfl
  have hoctet : ∀ n, n < 256 → (UInt8.ofNat n).toNat = n := fun _ => toNat_ofNat_of_lt
  have htail : (UInt8.ofNat (c.toNat % 64 + 128)).toNat = c.toNat % 64 + 128 :=
    hoctet _ (by omega)
  have hmiddle : (UInt8.ofNat (c.toNat / 64 % 64 + 128)).toNat = c.toNat / 64 % 64 + 128 :=
    hoctet _ (by omega)
  simp only [String.utf8EncodeChar, hval]
  split
  next hsize =>
    rw [List.map_singleton, hoctet _ (by omega)]
    exact .one hsize
  split
  next htwo =>
    simp only [List.map_cons, List.map_nil, htail, hoctet (c.toNat / 64 % 32 + 192) (by omega)]
    exact .two (by omega) (by omega) (by omega) (by omega)
  split
  next hthree =>
    simp only [List.map_cons, List.map_nil, htail, hmiddle,
      hoctet (c.toNat / 4096 % 16 + 224) (by omega)]
    exact .three (by omega) (by omega) (by omega) (by omega) (by omega)
  next hfour =>
    simp only [List.map_cons, List.map_nil, htail, hmiddle,
      hoctet (c.toNat / 262144 % 8 + 240) (by omega),
      hoctet (c.toNat / 4096 % 64 + 128) (by omega)]
    exact .four (by omega) (by omega) (by omega) (by omega) (by omega) (by omega) (by omega)

theorem Row.eq_utf8EncodeChar {c : Char} {piece : Octets}
    (h : Row c.toNat (piece.map UInt8.toNat)) : piece = String.utf8EncodeChar c :=
  (List.map_inj_right fun _ _ => UInt8.toNat_inj.1).1 (h.unique (row_utf8EncodeChar c))

theorem encodes_iff {text : List Char} {octets : Octets} :
    Encodes text octets ↔ encode text = octets := by
  constructor
  · intro h
    induction h with
    | nil => rfl
    | cons hrow hrest ih => rw [encode_cons, ih, hrow.eq_utf8EncodeChar]
  · rintro rfl
    induction text with
    | nil => exact .nil
    | cons c rest ih => exact .cons (row_utf8EncodeChar c) ih

theorem decode?_eq_some_iff_encodes {octets : Octets} {text : List Char} :
    decode? octets = some text ↔ Encodes text octets := by
  rw [decode?_eq_some_iff, encodes_iff]

theorem wellFormed_iff_isSome {octets : Octets} :
    WellFormed octets ↔ (decode? octets).isSome = true := by
  rw [Option.isSome_iff_exists]
  exact exists_congr fun text => decode?_eq_some_iff_encodes.symm

instance (octets : Octets) : Decidable (WellFormed octets) :=
  decidable_of_iff' _ wellFormed_iff_isSome

def Tail (octet : Nat) : Prop :=
  0x80 ≤ octet ∧ octet ≤ 0xBF

/-- The octets of one character; after some first octets the second has a range of its own. -/
inductive Sequence : List Nat → Prop where
  | one {a : Nat} : a ≤ 0x7F → Sequence [a]
  | two {a b : Nat} : 0xC2 ≤ a ∧ a ≤ 0xDF → Tail b → Sequence [a, b]
  | three {a b c : Nat} :
      (a = 0xE0 ∧ 0xA0 ≤ b ∧ b ≤ 0xBF ∨ (0xE1 ≤ a ∧ a ≤ 0xEC) ∧ Tail b ∨
        a = 0xED ∧ 0x80 ≤ b ∧ b ≤ 0x9F ∨ (0xEE ≤ a ∧ a ≤ 0xEF) ∧ Tail b) →
      Tail c → Sequence [a, b, c]
  | four {a b c d : Nat} :
      (a = 0xF0 ∧ 0x90 ≤ b ∧ b ≤ 0xBF ∨ (0xF1 ≤ a ∧ a ≤ 0xF3) ∧ Tail b ∨
        a = 0xF4 ∧ 0x80 ≤ b ∧ b ≤ 0x8F) →
      Tail c → Tail d → Sequence [a, b, c, d]

/-- Any number of characters one after the other. -/
inductive Derived : Octets → Prop where
  | nil : Derived []
  | cons {piece more : Octets} :
      Sequence (piece.map UInt8.toNat) → Derived more → Derived (piece ++ more)

theorem Row.sequence {c : Char} {row : List Nat} (h : Row c.toNat row) : Sequence row := by
  have hscalar : c.toNat < 0xD800 ∨ 0xDFFF < c.toNat ∧ c.toNat < 0x110000 := c.valid
  cases h with
  | one hsize => exact .one hsize
  | two => exact .two (by omega) (by unfold Tail; omega)
  | three => exact .three (by unfold Tail; omega) (by unfold Tail; omega)
  | four =>
    exact .four (by unfold Tail; omega) (by unfold Tail; omega) (by unfold Tail; omega)

theorem exists_char {number : Nat} (h : number < 0xD800 ∨ 0xDFFF < number ∧ number < 0x110000) :
    ∃ c : Char, c.toNat = number :=
  ⟨Char.ofNat number, toNat_ofNat_of_isValidChar h⟩

theorem Tail.exists_add {octet : Nat} (h : Tail octet) : ∃ low < 64, octet = low + 0x80 :=
  ⟨octet - 0x80, by unfold Tail at h; omega, by unfold Tail at h; omega⟩

/-- The second octets that are left out are those of longer forms, surrogates and larger numbers. -/
theorem Sequence.exists_row {row : List Nat} (h : Sequence row) :
    ∃ c : Char, Row c.toNat row := by
  cases h with
  | @one a hsize =>
    obtain ⟨c, rfl⟩ : ∃ c : Char, c.toNat = a := exists_char (by omega)
    exact ⟨c, .one hsize⟩
  | @two a b hfirst hsecond =>
    obtain ⟨high, rfl⟩ : ∃ high, a = high + 0xC0 := ⟨a - 0xC0, by omega⟩
    obtain ⟨low, hlow, rfl⟩ := hsecond.exists_add
    obtain ⟨c, hc⟩ : ∃ c : Char, c.toNat = high * 64 + low := exists_char (by omega)
    exact ⟨c, .two (by omega) hlow hc.symm (by omega)⟩
  | @three a b c hfirst htailC =>
    have htailB : Tail b := by unfold Tail at *; omega
    obtain ⟨high, rfl⟩ : ∃ high, a = high + 0xE0 := ⟨a - 0xE0, by omega⟩
    obtain ⟨middle, hmiddle, rfl⟩ := htailB.exists_add
    obtain ⟨low, hlow, rfl⟩ := htailC.exists_add
    obtain ⟨c, hc⟩ : ∃ c : Char, c.toNat = (high * 64 + middle) * 64 + low :=
      exists_char (by omega)
    exact ⟨c, .three (by omega) hmiddle hlow hc.symm (by omega)⟩
  | @four a b c d hfirst htailC htailD =>
    have htailB : Tail b := by unfold Tail at *; omega
    obtain ⟨high, rfl⟩ : ∃ high, a = high + 0xF0 := ⟨a - 0xF0, by omega⟩
    obtain ⟨second, hsecond, rfl⟩ := htailB.exists_add
    obtain ⟨third, hthird, rfl⟩ := htailC.exists_add
    obtain ⟨fourth, hfourth, rfl⟩ := htailD.exists_add
    obtain ⟨c, hc⟩ :
        ∃ c : Char, c.toNat = ((high * 64 + second) * 64 + third) * 64 + fourth :=
      exists_char (by omega)
    exact ⟨c, .four (by omega) hsecond hthird hfourth hc.symm (by omega) (by omega)⟩

theorem wellFormed_iff_derived {octets : Octets} : WellFormed octets ↔ Derived octets := by
  constructor
  · rintro ⟨text, h⟩
    induction h with
    | nil => exact .nil
    | cons hrow hrest ih => exact .cons hrow.sequence ih
  · intro h
    induction h with
    | nil => exact ⟨[], .nil⟩
    | cons hpiece hmore ih =>
      obtain ⟨c, hrow⟩ := hpiece.exists_row
      obtain ⟨rest, hrest⟩ := ih
      exact ⟨c :: rest, .cons hrow hrest⟩

end Utf8

end DerContents
