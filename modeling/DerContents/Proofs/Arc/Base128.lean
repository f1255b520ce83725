import DerContents.Arc.Base128
import DerContents.Proofs.Arc.Number
import DerContents.Proofs.Base128
import Mathlib.Data.Nat.Bitwise
import Mathlib.Data.Nat.Size

/-!
# Arcs in base 128

The groups fetched from the limbs are the digits of the number in base 128, and the
length taken from the bit length is that of its shortest form.  So a normal arc is
written in the shortest form of its number: `Normal.base128_eq`.
-/

namespace DerContents

namespace Limbs

theorem weight_eq_pow (length : Nat) : weight length = 2 ^ (32 * length) := by
  induction length with
  | zero => rfl
  | succ length ih =>
    rw [weight_succ, ih, Nat.mul_succ, pow_add, Nat.mul_comm]
    rfl

theorem Trimmed.exists_eq_append {limbs : Limbs} (h : limbs.Trimmed) (hne : limbs ≠ []) :
    ∃ low top, limbs = low ++ [top] ∧ top ≠ 0 := by
  refine ⟨limbs.dropLast, limbs.getLast hne, (List.dropLast_concat_getLast hne).symm, ?_⟩
  intro hzero
  exact h (by rw [List.getLast?_eq_some_getLast hne, hzero])

theorem bitLength_append {low : Limbs} {top : UInt32} (h : top ≠ 0) :
    bitLength (low ++ [top]) = 32 * low.length + top.toNat.log2 + 1 := by
  simp [bitLength, significantBits, h]
  omega

/-- The bit length of a trimmed row bounds exactly the numbers that fit. -/
theorem Trimmed.bitLength_le_iff {limbs : Limbs} (h : limbs.Trimmed) (bits : Nat) :
    limbs.bitLength ≤ bits ↔ limbs.toNat < 2 ^ bits := by
  by_cases hne : limbs = []
  · subst hne
    simp [bitLength]
  obtain ⟨low, top, rfl, htop⟩ := h.exists_eq_append hne
  have htop' : top.toNat ≠ 0 := fun hzero => htop (UInt32.toNat_inj.1 hzero)
  have hlow := toNat_lt low
  have hle := Nat.log2_self_le htop'
  have hlt := Nat.lt_log2_self (n := top.toNat)
  have hvalue : toNat (low ++ [top]) = toNat low + weight low.length * top.toNat := by
    simp [toNat_append]
  rw [weight_eq_pow] at hlow hvalue
  rw [bitLength_append htop, hvalue]
  constructor
  · intro hbits
    calc
      toNat low + 2 ^ (32 * low.length) * top.toNat <
          2 ^ (32 * low.length) * (top.toNat + 1) := by rw [Nat.mul_succ]; omega
      _ ≤ 2 ^ (32 * low.length) * 2 ^ (top.toNat.log2 + 1) := Nat.mul_le_mul_left _ hlt
      _ = 2 ^ (32 * low.length + top.toNat.log2 + 1) := by rw [← pow_add, Nat.add_assoc]
      _ ≤ 2 ^ bits := Nat.pow_le_pow_right (by omega) hbits
  · intro hbits
    have hpow : 2 ^ (32 * low.length + top.toNat.log2) < 2 ^ bits :=
      calc
        2 ^ (32 * low.length + top.toNat.log2) =
            2 ^ (32 * low.length) * 2 ^ top.toNat.log2 := pow_add _ _ _
        _ ≤ 2 ^ (32 * low.length) * top.toNat := Nat.mul_le_mul_left _ hle
        _ ≤ toNat low + 2 ^ (32 * low.length) * top.toNat := Nat.le_add_left _ _
        _ < 2 ^ bits := hbits
    exact (Nat.pow_lt_pow_iff_right (by omega)).1 hpow

theorem Trimmed.bitLength_eq_size {limbs : Limbs} (h : limbs.Trimmed) :
    limbs.bitLength = limbs.toNat.size := by
  apply Nat.le_antisymm
  · rw [h.bitLength_le_iff]
    exact Nat.lt_size_self _
  · rw [Nat.size_le]
    exact (h.bitLength_le_iff _).1 (Nat.le_refl _)

theorem toNat_limbAt (limbs : Limbs) (index : Nat) :
    (limbs.limbAt index).toNat = limbs.toNat / 2 ^ (32 * index) % 2 ^ 32 := by
  induction limbs generalizing index with
  | nil => simp [limbAt]
  | cons limb rest ih =>
    have hlimb := limb.toNat_lt
    cases index with
    | zero => simp [limbAt]
    | succ index =>
      have hdiv : toNat (limb :: rest) / 2 ^ 32 = toNat rest := by
        rw [toNat_cons]
        omega
      rw [Nat.mul_succ, Nat.add_comm (32 * index), pow_add, ← Nat.div_div_eq_div_mul, hdiv,
        ← ih]
      simp [limbAt]

theorem testBit_limbAt (limbs : Limbs) (index : Nat) {bit : Nat} (h : bit < 32) :
    (limbs.limbAt index).toNat.testBit bit = limbs.toNat.testBit (32 * index + bit) := by
  rw [toNat_limbAt, Nat.testBit_mod_two_pow, Nat.testBit_div_two_pow, Nat.add_comm]
  simp [h]

end Limbs

namespace Arc

theorem pow_128 (index : Nat) : 128 ^ index = 2 ^ (7 * index) :=
  (pow_mul 2 7 index).symm

/-- Seven bits are fetched from the limb they start in and, if it ends, from the next. -/
theorem testBit_window (limbs : Limbs) {limb shift bit : Nat} (hshift : shift < 32)
    (hbit : bit < 7) :
    (if 25 < shift then
        (limbs.limbAt limb).toUInt64 >>> shift.toUInt64 |||
          (limbs.limbAt (limb + 1)).toUInt64 <<< (32 - shift).toUInt64
      else
        (limbs.limbAt limb).toUInt64 >>> shift.toUInt64).toNat.testBit bit =
      limbs.toNat.testBit (32 * limb + shift + bit) := by
  have hamount {amount : Nat} (h : amount < 64) : amount.toUInt64.toNat % 64 = amount := by
    simp
    omega
  have hlow : ((limbs.limbAt limb).toUInt64 >>> shift.toUInt64).toNat.testBit bit =
      (limbs.limbAt limb).toNat.testBit (shift + bit) := by
    rw [UInt64.toNat_shiftRight, hamount (by omega), Nat.testBit_shiftRight,
      UInt32.toNat_toUInt64]
  have hhigh (h : 25 < shift) :
      ((limbs.limbAt (limb + 1)).toUInt64 <<< (32 - shift).toUInt64).toNat.testBit bit =
        (decide (32 - shift ≤ bit) &&
          (limbs.limbAt (limb + 1)).toNat.testBit (bit - (32 - shift))) := by
    rw [UInt64.toNat_shiftLeft, hamount (by omega), Nat.testBit_mod_two_pow,
      Nat.testBit_shiftLeft, UInt32.toNat_toUInt64, decide_eq_true (by omega), Bool.true_and]
  by_cases hinside : shift + bit < 32
  · have hvalue := Limbs.testBit_limbAt limbs limb hinside
    rw [← Nat.add_assoc] at hvalue
    split
    next h =>
      rw [UInt64.toNat_or, Nat.testBit_or, hlow, hhigh h, hvalue, decide_eq_false (by omega),
        Bool.false_and, Bool.or_false]
    next => rw [hlow, hvalue]
  · have hbeyond : (limbs.limbAt limb).toNat.testBit (shift + bit) = false :=
      Nat.testBit_lt_two_pow (Nat.lt_of_lt_of_le (limbs.limbAt limb).toNat_lt
        (Nat.pow_le_pow_right (by omega) (Nat.not_lt.1 hinside)))
    have hvalue := Limbs.testBit_limbAt limbs (limb + 1) (show bit - (32 - shift) < 32 by omega)
    rw [show 32 * (limb + 1) + (bit - (32 - shift)) = 32 * limb + shift + bit by omega] at hvalue
    rw [if_pos (by omega), UInt64.toNat_or, Nat.testBit_or, hlow, hhigh (by omega), hbeyond,
      hvalue, decide_eq_true (by omega), Bool.true_and, Bool.false_or]

theorem toNat_group (arc : Arc) (index : Nat) :
    (arc.group index).toNat = arc.toNat / 128 ^ index % 128 := by
  have hmask (value : UInt64) : (value &&& 0x7F).toUInt8.toNat = value.toNat % 2 ^ 7 := by
    rw [UInt64.toNat_toUInt8, UInt64.toNat_and, show (0x7F : UInt64).toNat = 2 ^ 7 - 1 from rfl,
      Nat.and_two_pow_sub_one_eq_mod]
    omega
  unfold group
  rw [hmask, pow_128, show 128 = 2 ^ 7 from rfl]
  apply Nat.eq_of_testBit_eq
  intro bit
  rw [Nat.testBit_mod_two_pow, Nat.testBit_mod_two_pow, Nat.testBit_div_two_pow]
  by_cases hbit : bit < 7
  · rw [testBit_window arc.limbs (Nat.mod_lt _ (by omega)) hbit,
      show 32 * (index * 7 / 32) + index * 7 % 32 + bit = bit + 7 * index by omega]
    rfl
  · rw [decide_eq_false hbit, Bool.false_and, Bool.false_and]

theorem groupOctet_zero (arc : Arc) : arc.groupOctet 0 = UInt8.ofNat (arc.toNat % 128) := by
  have hgroup := toNat_group arc 0
  apply UInt8.toNat_inj.1
  unfold groupOctet
  rw [if_pos rfl, hgroup, UInt8.toNat_ofNat', pow_zero, Nat.div_one]
  omega

theorem groupOctet_succ (arc : Arc) (index : Nat) :
    arc.groupOctet (index + 1) =
      UInt8.ofNat (arc.toNat / 128 / 128 ^ index % 128 + 128) := by
  have hgroup := toNat_group arc (index + 1)
  rw [pow_succ, Nat.mul_comm, ← Nat.div_div_eq_div_mul] at hgroup
  apply UInt8.toNat_inj.1
  unfold groupOctet
  rw [if_neg (by omega), UInt8.toNat_or, hgroup, UInt8.toNat_ofNat',
    show (0x80 : UInt8).toNat = 2 ^ 7 * 1 from rfl, Nat.or_comm,
    ← Nat.two_pow_add_eq_or_of_lt (Nat.mod_lt _ (by omega))]
  omega

theorem Normal.base128Length_le_iff {arc : Arc} (h : arc.Normal) {length : Nat}
    (hlength : 0 < length) : arc.base128Length ≤ length ↔ arc.toNat < 128 ^ length := by
  have hbits := Limbs.Trimmed.bitLength_le_iff h (7 * length)
  rw [pow_128, toNat, ← hbits, base128Length]
  omega

theorem Normal.base128Length_eq {arc : Arc} (h : arc.Normal) :
    arc.base128Length = (Base128.shortest arc.toNat).length := by
  have hpos : 0 < (Base128.shortest arc.toNat).length :=
    List.length_pos_iff.2 (Base128.shortest_ne_nil _)
  apply Nat.le_antisymm
  · rw [h.base128Length_le_iff hpos, ← Base128.length_shortest_le_iff hpos]
  · rw [Base128.length_shortest_le_iff arc.base128Length_pos,
      ← h.base128Length_le_iff arc.base128Length_pos]

/-- Seven bits go into a group, and zero has one group of its own. -/
theorem Normal.base128Length_eq_size {arc : Arc} (h : arc.Normal) :
    arc.base128Length = max 1 ((arc.toNat.size + 6) / 7) := by
  rw [base128Length, Limbs.Trimmed.bitLength_eq_size h, toNat]

theorem Normal.base128_eq {arc : Arc} (h : arc.Normal) :
    arc.base128 = Base128.shortest arc.toNat := by
  have hdigits := Base128.digits_eq_map_range (arc.toNat / 128)
  rw [base128, h.base128Length_eq, Base128.length_shortest, List.range_succ_eq_map,
    List.reverse_cons, List.map_append, List.map_singleton, groupOctet_zero, Base128.shortest,
    Base128.continued]
  conv_rhs => rw [hdigits]
  simp [groupOctet_succ, Function.comp_def]

end Arc

end DerContents
