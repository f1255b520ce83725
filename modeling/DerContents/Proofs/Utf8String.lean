import DerContents.Proofs.Utf8.Order
import DerContents.Utf8String

/-!
# UTF8String contents and their text

Octets make a value exactly when they are well-formed UTF-8, and value, octets and text
determine one another.  The order of values, which is that of their octets, is the order
of their texts by the numbers of the characters.
-/

namespace DerContents

namespace Utf8String

theorem eq_of_octets_eq {x y : Utf8String} (h : x.octets = y.octets) : x = y := by
  cases x
  cases y
  cases h
  rfl

theorem toList_text (value : Utf8String) : value.text.toList = value.characters := by
  rw [text, String.toList_ofList]

theorem encodes_text (value : Utf8String) : Utf8.Encodes value.text.toList value.octets := by
  rw [toList_text, Utf8.encodes_iff]
  exact value.encode_characters

theorem ofText_text (value : Utf8String) : ofText value.text = value := by
  apply eq_of_octets_eq
  show Utf8.encode value.text.toList = value.octets
  rw [toList_text, encode_characters]

theorem ofOctets_eq_ok_iff {octets : Octets} {value : Utf8String} :
    ofOctets octets = .ok value ↔ value.octets = octets := by
  unfold ofOctets
  constructor
  · intro h
    split at h
    · cases h
      rfl
    · cases h
  · rintro rfl
    rw [dif_pos value.wellFormed]

theorem ofOctets_eq_error_iff {octets : Octets} {reason : DecodeError} :
    ofOctets octets = .error reason ↔ reason = .invalidUtf8 ∧ ¬ Utf8.WellFormed octets := by
  unfold ofOctets
  rw [Utf8.wellFormed_iff_isSome]
  split
  next hwell => simp [hwell]
  next hbad => simp [hbad, eq_comm]

theorem exists_ofOctets_iff {octets : Octets} :
    (∃ value, ofOctets octets = .ok value) ↔ Utf8.WellFormed octets := by
  constructor
  · rintro ⟨value, h⟩
    cases ofOctets_eq_ok_iff.1 h
    exact ⟨_, value.encodes_text⟩
  · intro h
    exact ⟨⟨octets, Utf8.wellFormed_iff_isSome.1 h⟩, ofOctets_eq_ok_iff.2 rfl⟩

/--
Octets are accepted exactly when they are the rows of the table for the characters of some
text, which is what the grammar derives, and refused as no UTF-8 otherwise.  An accepted
value keeps its octets, and they are those of its text, which makes the same value again.
Every text has octets, no others are its own, and its value comes back from them.
-/
theorem ofOctets_accepts_well_formed :
    (∀ octets : Octets,
      ((∃ value, ofOctets octets = .ok value) ↔ Utf8.WellFormed octets) ∧
      (Utf8.WellFormed octets ↔ Utf8.Derived octets) ∧
      (ofOctets octets = .error .invalidUtf8 ↔ ¬ Utf8.WellFormed octets) ∧
      ∀ value, ofOctets octets = .ok value ↔ value.octets = octets) ∧
    (∀ value : Utf8String,
      Utf8.Encodes value.text.toList value.octets ∧ ofText value.text = value) ∧
    ∀ text : String, ∃ octets,
      (∀ other, Utf8.Encodes text.toList other ↔ other = octets) ∧
      ofOctets octets = .ok (ofText text) ∧
      (ofText text).octets = octets ∧ (ofText text).text = text := by
  refine ⟨?octets, ?value, ?text⟩
  case octets =>
    intro octets
    refine ⟨exists_ofOctets_iff, Utf8.wellFormed_iff_derived, ?_, fun _ => ofOctets_eq_ok_iff⟩
    rw [ofOctets_eq_error_iff]
    exact ⟨And.right, fun h => ⟨rfl, h⟩⟩
  case value =>
    intro value
    exact ⟨value.encodes_text, value.ofText_text⟩
  case text =>
    intro text
    refine ⟨(ofText text).octets, ?_, ofOctets_eq_ok_iff.2 rfl, rfl, text_ofText text⟩
    intro other
    rw [Utf8.encodes_iff, eq_comm]
    rfl

example : Utf8.WellFormed [0xED, 0x9F, 0xBF, 0xF4, 0x8F, 0xBF, 0xBF] ∧
    ¬ Utf8.WellFormed [0xED, 0xA0, 0x80] ∧ ¬ Utf8.WellFormed [0xF4, 0x90, 0x80, 0x80] ∧
    ¬ Utf8.WellFormed [0xC0, 0xAF] ∧ ¬ Utf8.WellFormed [0xE2, 0x82] := by
  decide

/-- The numbers of the characters of the text. -/
def scalars (value : Utf8String) : List Nat :=
  value.text.toList.map Char.toNat

theorem compare_eq (x y : Utf8String) : compare x y = compare x.scalars y.scalars := by
  rw [scalars, scalars, toList_text, toList_text, ← Utf8.compare_encode, encode_characters,
    encode_characters]
  rfl

theorem eq_of_scalars_eq {x y : Utf8String} (h : x.scalars = y.scalars) : x = y := by
  have hcharacters : x.text.toList = y.text.toList :=
    (List.map_inj_right fun _ _ => Char.toNat_inj.1).1 h
  rw [← x.ofText_text, String.toList_inj.1 hcharacters, y.ofText_text]

/--
Values compare by the first octets that differ, a value whose octets go on behind those of
another being larger, and this is how the numbers of their characters compare.  Values are
equal exactly when their texts have the same characters.
-/
theorem compare_is_order_of_characters (x y : Utf8String) :
    (compare x y = .lt ↔ x.octets < y.octets) ∧
    compare x y = compare x.scalars y.scalars ∧
    (compare x y = .lt ↔ x.scalars < y.scalars) ∧
    (compare x y = .eq ↔ x = y) ∧
    (x = y ↔ x.scalars = y.scalars) := by
  have hequal : x = y ↔ x.scalars = y.scalars := ⟨congrArg scalars, eq_of_scalars_eq⟩
  refine ⟨?_, compare_eq x y, ?_, ?_, hequal⟩
  · exact compare_eq_lt_iff_lt (fun a b => Std.compare_eq_lt) x.octets y.octets
  · rw [compare_eq]
    exact compare_eq_lt_iff_lt (fun a b => Nat.compare_eq_lt) x.scalars y.scalars
  · rw [compare_eq, hequal]
    exact Std.LawfulEqCmp.compare_eq_iff_eq

end Utf8String

end DerContents
