import DerContents.Proofs.Order
import DerContents.Proofs.Utf8.Table
import Mathlib.Data.List.Basic

/-!
# The order of octets and of characters

A longer row of the table begins with a larger octet, and rows of one length compare by
the bits of their numbers.  So the octets of texts compare as the numbers of the characters
do, wherever in a character the octets differ.
-/

namespace DerContents

namespace Utf8

theorem Row.lt_of_length_lt {number larger : Nat} {row other : List Nat} (h : Row number row)
    (hother : Row larger other) (hlength : row.length < other.length) :
    number < larger ∧ ∃ a more b rest, row = a :: more ∧ other = b :: rest ∧ a < b := by
  cases h with
  | one hsize =>
    cases hother with
    | one => simp at hlength
    | two | three | four =>
      exact ⟨by omega, _, _, _, _, rfl, rfl, by omega⟩
  | two ha hb hnumber hsize =>
    cases hother with
    | one | two => simp at hlength
    | three | four => exact ⟨by omega, _, _, _, _, rfl, rfl, by omega⟩
  | three ha hb hc hnumber hsize =>
    cases hother with
    | one | two | three => simp at hlength
    | four => exact ⟨by omega, _, _, _, _, rfl, rfl, by omega⟩
  | four =>
    cases hother with
    | one | two | three | four => simp at hlength

theorem compare_digit {low lowOther : Nat} (high highOther : Nat) (h : low < 64)
    (hother : lowOther < 64) :
    compare (high * 64 + low) (highOther * 64 + lowOther) =
      (compare high highOther).then (compare low lowOther) := by
  rw [Nat.mul_comm high, Nat.mul_comm highOther, Nat.add_comm, Nat.add_comm (64 * highOther),
    compare_add_mul _ _ h hother]

/-- In rows of one length the bits of the numbers stand in their order. -/
theorem Row.compare_of_length_eq {number other : Nat} {row otherRow : List Nat}
    (h : Row number row) (hother : Row other otherRow) (hlength : row.length = otherRow.length) :
    compare row otherRow = compare number other := by
  cases h with
  | one =>
    cases hother with
    | one => rw [List.compare_cons_cons, List.compare_nil_nil, Ordering.then_eq]
    | two | three | four => simp at hlength
  | two ha hb hnumber =>
    cases hother with
    | two ha' hb' hnumber' =>
      rw [← hnumber, ← hnumber', compare_digit _ _ hb hb']
      simp only [List.compare_cons_cons, List.compare_nil_nil, Ordering.then_eq,
        compare_add_right]
    | one | three | four => simp at hlength
  | three ha hb hc hnumber =>
    cases hother with
    | three ha' hb' hc' hnumber' =>
      rw [← hnumber, ← hnumber', compare_digit _ _ hc hc', compare_digit _ _ hb hb']
      simp only [List.compare_cons_cons, List.compare_nil_nil, Ordering.then_eq,
        compare_add_right, Ordering.then_assoc]
    | one | two | four => simp at hlength
  | four ha hb hc hd hnumber =>
    cases hother with
    | four ha' hb' hc' hd' hnumber' =>
      rw [← hnumber, ← hnumber', compare_digit _ _ hd hd', compare_digit _ _ hc hc',
        compare_digit _ _ hb hb']
      simp only [List.compare_cons_cons, List.compare_nil_nil, Ordering.then_eq,
        compare_add_right, Ordering.then_assoc]
    | one | two | three => simp at hlength

theorem Row.compare_append {number other : Nat} {row otherRow : List Nat} (h : Row number row)
    (hother : Row other otherRow) (more moreOther : List Nat) :
    compare (row ++ more) (otherRow ++ moreOther) =
      (compare number other).then (compare more moreOther) := by
  rcases Nat.lt_trichotomy row.length otherRow.length with hlt | heq | hgt
  · obtain ⟨hnumber, a, rest, b, restOther, rfl, rfl, hfirst⟩ := h.lt_of_length_lt hother hlt
    rw [List.cons_append, List.cons_append, List.compare_cons_cons, Nat.compare_eq_lt.2 hfirst,
      Nat.compare_eq_lt.2 hnumber]
    rfl
  · rw [DerContents.compare_append heq, h.compare_of_length_eq hother heq]
  · obtain ⟨hnumber, b, restOther, a, rest, rfl, rfl, hfirst⟩ := hother.lt_of_length_lt h hgt
    rw [List.cons_append, List.cons_append, List.compare_cons_cons, Nat.compare_eq_gt.2 hfirst,
      Nat.compare_eq_gt.2 hnumber]
    rfl

theorem compare_map_toNat (octets others : Octets) :
    compare (octets.map UInt8.toNat) (others.map UInt8.toNat) = compare octets others :=
  compareLex_map (fun a b => (UInt8.compare_eq_toNat_compare_toNat a b).symm) octets others

theorem compare_encode (text other : List Char) :
    compare (encode text) (encode other) =
      compare (text.map Char.toNat) (other.map Char.toNat) := by
  induction text generalizing other with
  | nil =>
    cases other with
    | nil => rfl
    | cons d rest =>
      obtain ⟨first, more, hoctets⟩ := List.exists_cons_of_ne_nil (utf8EncodeChar_ne_nil d)
      rw [encode_cons, hoctets]
      rfl
  | cons c more ih =>
    cases other with
    | nil =>
      obtain ⟨first, rest, hoctets⟩ := List.exists_cons_of_ne_nil (utf8EncodeChar_ne_nil c)
      rw [encode_cons, hoctets]
      rfl
    | cons d rest =>
      rw [List.map_cons, List.map_cons, List.compare_cons_cons, ← ih, ← compare_map_toNat,
        encode_cons, encode_cons, List.map_append, List.map_append,
        (row_utf8EncodeChar c).compare_append (row_utf8EncodeChar d), compare_map_toNat]

end Utf8

end DerContents
