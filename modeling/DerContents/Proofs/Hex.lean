import DerContents.Proofs.Hex.Digits

/-!
# Hex text read back

Two digits for each octet, in letters of either case, are read as the octets: a digit has
the value it is written for, so the digits of octets denote these octets and no others.
-/

namespace DerContents

namespace Hex

/-- Two hex digits for each octet, every letter in either case. -/
def Spells (spelling : List Char) (octets : Octets) : Prop :=
  spelling.map Char.toLower = text octets

instance (spelling : List Char) (octets : Octets) : Decidable (Spells spelling octets) :=
  inferInstanceAs (Decidable (_ = _))

theorem toNat_lt_of_toLower {c : Char} {value : Nat} (hvalue : value < 16)
    (h : c.toLower = Nat.digitChar value) : c.toNat < 128 := by
  have hdigit : ∀ value < 16, (Nat.digitChar value).toNat < 128 := by decide
  unfold Char.toLower at h
  split at h
  next hupper =>
    have hle : c.toNat ≤ 'Z'.toNat := hupper.2
    exact Nat.lt_of_le_of_lt hle (by decide)
  next =>
    rw [h]
    exact hdigit value hvalue

/-- A digit of a value is the one that the value is written with, in either case. -/
theorem digitValue?_eq_some_iff {c : Char} {value : Nat} :
    digitValue? c = some value ↔ value < 16 ∧ c.toLower = Nat.digitChar value := by
  have hall : ∀ code < 128, ∀ value < 16, digitValue? (Char.ofNat code) = some value ↔
      (Char.ofNat code).toLower = Nat.digitChar value := by decide +kernel
  have hiff : c.toNat < 128 → value < 16 →
      (digitValue? c = some value ↔ c.toLower = Nat.digitChar value) := by
    intro hlt hvalue
    simpa only [Char.ofNat_toNat] using hall c.toNat hlt value hvalue
  constructor
  · intro h
    have hvalue := digitValue?_lt h
    exact ⟨hvalue, (hiff (lt_of_digitValue? h) hvalue).1 h⟩
  · rintro ⟨hvalue, hlower⟩
    exact (hiff (toNat_lt_of_toLower hvalue hlower) hvalue).2 hlower

theorem pair_digits_iff {high low : Char} {octet : UInt8} :
    Pair digitValue? high low octet ↔ [high, low].map Char.toLower = digits octet := by
  have hlt := octet.toNat_lt
  simp only [Pair, digitValue?_eq_some_iff, digits, List.map_cons, List.map_nil, List.cons.injEq,
    and_true]
  constructor
  · rintro ⟨sixteens, ones, ⟨-, hhigh⟩, ⟨hones, hlow⟩, hoctet⟩
    rw [show octet.toNat / 16 = sixteens by omega, show octet.toNat % 16 = ones by omega]
    exact ⟨hhigh, hlow⟩
  · rintro ⟨hhigh, hlow⟩
    exact ⟨_, _, ⟨by omega, hhigh⟩, ⟨by omega, hlow⟩, by omega⟩

theorem denotes_iff_spells : ∀ {spelling : List Char} {octets : Octets},
    Denotes digitValue? spelling octets ↔ Spells spelling octets
  | [], octets => by
    cases octets with
    | nil => simp [denotes_nil, Spells, text]
    | cons octet rest => simp [denotes_nil, Spells, text, digits]
  | [c], octets => by
    cases octets with
    | nil => simp [not_denotes_singleton, Spells, text]
    | cons octet rest => simp [not_denotes_singleton, Spells, text, digits]
  | high :: low :: rest, octets => by
    rw [denotes_cons_cons]
    cases octets with
    | nil => simp [Spells, text]
    | cons octet more =>
      have hcons : Spells (high :: low :: rest) (octet :: more) ↔
          [high, low].map Char.toLower = digits octet ∧ Spells rest more := by
        simp [Spells, text, digits, and_assoc]
      rw [hcons, ← pair_digits_iff, ← denotes_iff_spells]
      simp

theorem Spells.ofText_eq {spelling : List Char} {octets : Octets} (h : Spells spelling octets) :
    ofText spelling = .ok octets :=
  ofText_eq_ok_iff.2 (denotes_digits_iff.1 (denotes_iff_spells.2 h)).1

example : Spells "2A864886f70D".toList [0x2A, 0x86, 0x48, 0x86, 0xF7, 0x0D] := by decide

end Hex

end DerContents
