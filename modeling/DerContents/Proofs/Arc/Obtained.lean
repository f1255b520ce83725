import DerContents.Proofs.Arc.Calculation
import DerContents.Proofs.Arc.Reading
import DerContents.Proofs.Oid.Contents

/-!
# Arcs as they are obtained

An arc comes from a word, from a numeral, out of contents, or from an arc at hand by a
step of arithmetic.  Whatever is obtained so is normal, and every normal arc can be: rows
are then equal when their numbers are, the order is that of the numbers, and the words are
those of the numbers.
-/

namespace DerContents

namespace Arc

/-- The arcs that the library makes, by any number of steps one after the other. -/
inductive Obtained : Arc → Prop where
  | zero : Obtained zero
  | ofUInt8 (value : UInt8) : Obtained (ofUInt8 value)
  | ofUInt16 (value : UInt16) : Obtained (ofUInt16 value)
  | ofUInt32 (value : UInt32) : Obtained (ofUInt32 value)
  | ofUInt64 (value : UInt64) : Obtained (ofUInt64 value)
  | ofDecimal {text : String} {arc : Arc} : ofDecimal? text = some arc → Obtained arc
  | step {arc result : Arc} (operation : Operation) :
      Obtained arc → operation.apply? arc = some result → Obtained result
  | decoded {limits : Limits} {octets : Octets} {oid : Oid} {arc : Arc} :
      Oid.ofContents limits octets = .ok oid → arc ∈ oid.arcs → Obtained arc

theorem normal_of_apply? {arc result : Arc} {operation : Operation}
    (h : operation.apply? arc = some result) : result.Normal := by
  cases operation with
  | mulAdd factor summand =>
    cases h
    exact normal_mulAdd arc factor summand
  | add operand =>
    cases h
    exact normal_addWord arc operand
  | subtract operand =>
    have hsub : arc.subWord? operand = some result := h
    unfold subWord? at hsub
    split at hsub
    · cases hsub
    · cases hsub
      exact normal_ofLimbs _

theorem Obtained.normal {arc : Arc} (h : arc.Obtained) : arc.Normal := by
  -- No induction: what a step makes is normal whatever it was made from.
  cases h with
  | zero => exact normal_zero
  | ofUInt8 value => exact normal_ofUInt64 _
  | ofUInt16 value => exact normal_ofUInt64 _
  | ofUInt32 value => exact normal_ofUInt32 value
  | ofUInt64 value => exact normal_ofUInt64 value
  | ofDecimal hread => exact (ofDecimal?_eq_some_iff.1 hread).1
  | step operation _ hresult => exact normal_of_apply? hresult
  | decoded hread hmem => exact (Oid.ofContents_eq_ok_iff.1 hread).1.1 _ hmem

theorem obtained_iff_normal {arc : Arc} : arc.Obtained ↔ arc.Normal :=
  ⟨Obtained.normal, fun h => .ofDecimal (ofDecimal?_text h)⟩

section Words

variable {arc : Arc} (h : arc.Normal)
include h

theorem Normal.map_toNat_toUInt32? :
    arc.toUInt32?.map UInt32.toNat =
      if arc.toNat < 0x100000000 then some arc.toNat else none := by
  rw [h.toUInt32?_eq]
  split
  next hword => rw [Option.map_some, UInt32.toNat_ofNat', Nat.mod_eq_of_lt hword]
  next => rfl

theorem Normal.map_toNat_toUInt64? :
    arc.toUInt64?.map UInt64.toNat =
      if arc.toNat < 0x10000000000000000 then some arc.toNat else none := by
  rw [h.toUInt64?_eq]
  split
  next hword => rw [Option.map_some, UInt64.toNat_ofNat', Nat.mod_eq_of_lt hword]
  next => rfl

theorem Normal.toUInt32?_eq_some_iff {number : Nat} :
    arc.toUInt32?.map UInt32.toNat = some number ↔
      arc.toNat = number ∧ number < 0x100000000 := by
  rw [h.map_toNat_toUInt32?, Option.ite_none_right_eq_some, Option.some_inj]
  omega

theorem Normal.toUInt64?_eq_some_iff {number : Nat} :
    arc.toUInt64?.map UInt64.toNat = some number ↔
      arc.toNat = number ∧ number < 0x10000000000000000 := by
  rw [h.map_toNat_toUInt64?, Option.ite_none_right_eq_some, Option.some_inj]
  omega

theorem Normal.ofUInt64_of_toUInt64? {word : UInt64} (hword : arc.toUInt64? = some word) :
    Arc.ofUInt64 word = arc := by
  have hvalue : arc.toUInt64?.map UInt64.toNat = some word.toNat := by
    rw [hword, Option.map_some]
  apply (normal_ofUInt64 word).eq_of_toNat_eq h
  rw [toNat_ofUInt64, (h.toUInt64?_eq_some_iff.1 hvalue).1]

end Words

theorem Normal.eq_iff_toNat_eq {x y : Arc} (hx : x.Normal) (hy : y.Normal) :
    x = y ↔ x.toNat = y.toNat :=
  ⟨congrArg toNat, hx.eq_of_toNat_eq hy⟩

/--
An obtained arc has no zero limb at its most significant end.  So obtained arcs are equal
exactly when their numbers are and compare as these do, zero shows in the row, a word is
given exactly for the numbers that fit it, and the word gives the same arc again.
-/
theorem obtained_arcs_are_their_numbers {x y : Arc} (hx : x.Obtained) (hy : y.Obtained) :
    x.limbs.getLast? ≠ some 0 ∧
    (x = y ↔ x.toNat = y.toNat) ∧
    compare x y = compare x.toNat y.toNat ∧
    (x.isZero = true ↔ x.toNat = 0) ∧
    (∀ number, x.toUInt32?.map UInt32.toNat = some number ↔
      x.toNat = number ∧ number < 0x100000000) ∧
    (∀ number, x.toUInt64?.map UInt64.toNat = some number ↔
      x.toNat = number ∧ number < 0x10000000000000000) ∧
    ∀ word, x.toUInt64? = some word → ofUInt64 word = x := by
  have hnormal := hx.normal
  have hother := hy.normal
  exact ⟨hnormal, hnormal.eq_iff_toNat_eq hother, hnormal.compare_eq hother, hnormal.isZero_iff,
    fun _ => hnormal.toUInt32?_eq_some_iff, fun _ => hnormal.toUInt64?_eq_some_iff,
    fun _ => hnormal.ofUInt64_of_toUInt64?⟩

/-- The second arc loses a limb when `2.4294967295` is decoded from `2^32 + 79`. -/
theorem obtained_arcs_are_their_numbers_after_losing_a_limb :
    Obtained ⟨[0xFFFFFFFF]⟩ ∧ Obtained ⟨[0, 1]⟩ ∧
    compare (⟨[0xFFFFFFFF]⟩ : Arc) ⟨[0, 1]⟩ = .lt ∧
    toUInt32? ⟨[0xFFFFFFFF]⟩ = some 0xFFFFFFFF ∧
    toUInt64? ⟨[0xFFFFFFFF]⟩ = some 0xFFFFFFFF ∧
    ofUInt64 0xFFFFFFFF = ⟨[0xFFFFFFFF]⟩ := by
  have hread : Oid.ofContents .standard [0x90, 0x80, 0x80, 0x80, 0x4F] =
      .ok ⟨[⟨[2]⟩, ⟨[0xFFFFFFFF]⟩]⟩ := rfl
  have hx : Obtained ⟨[0xFFFFFFFF]⟩ := .decoded hread (by decide)
  have hy : Obtained ⟨[0, 1]⟩ := .ofUInt64 0x100000000
  rcases obtained_arcs_are_their_numbers hx hy with ⟨-, -, hcompare, -, -, -, hword⟩
  exact ⟨hx, hy, hcompare, rfl, rfl, hword 0xFFFFFFFF rfl⟩

end Arc

end DerContents
