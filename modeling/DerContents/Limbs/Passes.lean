import DerContents.Limbs.Basic

/-!
# Passes over a row of limbs

Multiply and add, subtract, and divide by an operand of one word.  A pass computes
in 64-bit words and hands its carry, borrow or remainder back; the lemmas say what
that is worth in the number that the row denotes.
-/

namespace DerContents

namespace Limbs

/--
Multiply the row and add `carry` at its least significant limb.  The carry out of
the most significant limb comes second.
-/
def mulAddFrom (mul : UInt32) (carry : UInt64) : Limbs → Limbs × UInt64
  | [] => ([], carry)
  | limb :: rest =>
    let value := limb.toUInt64 * mul.toUInt64 + carry
    let (high, out) := mulAddFrom mul (value >>> 32) rest
    (value.toUInt32 :: high, out)

/--
Subtract `borrow` at the least significant limb.  What is still to be subtracted
beyond the most significant limb comes second.
-/
def subtractFrom (borrow : UInt64) : Limbs → Limbs × UInt64
  | [] => ([], borrow)
  | limb :: rest =>
    let value := limb.toUInt64
    if borrow = 0 then
      (limb :: rest, 0)
    else if borrow ≤ value then
      ((value - borrow).toUInt32 :: rest, 0)
    else
      let (high, out) := subtractFrom 1 rest
      ((value + 0x100000000 - borrow).toUInt32 :: high, out)

/-- Long division from the most significant limb: the quotient and the remainder. -/
def divideBy (divisor : UInt64) : Limbs → Limbs × UInt64
  | [] => ([], 0)
  | limb :: rest =>
    let (high, rem) := divideBy divisor rest
    let value := rem <<< 32 ||| limb.toUInt64
    ((value / divisor).toUInt32 :: high, value % divisor)

theorem toNat_mulAdd_word (limb mul : UInt32) {carry : UInt64}
    (hcarry : carry.toNat < 0x100000000) :
    (limb.toUInt64 * mul.toUInt64 + carry).toNat =
      limb.toNat * mul.toNat + carry.toNat := by
  have hlimb := limb.toNat_lt
  have hmul := mul.toNat_lt
  have hprod : limb.toNat * mul.toNat ≤ (0x100000000 - 1) * (0x100000000 - 1) :=
    Nat.mul_le_mul (by omega) (by omega)
  rw [UInt64.toNat_add, UInt64.toNat_mul, UInt32.toNat_toUInt64, UInt32.toNat_toUInt64]
  omega

theorem length_mulAddFrom (mul : UInt32) (carry : UInt64) (limbs : Limbs) :
    (mulAddFrom mul carry limbs).1.length = limbs.length := by
  induction limbs generalizing carry with
  | nil => rfl
  | cons limb rest ih => simp [mulAddFrom, ih]

theorem mulAddFrom_carry_lt (mul : UInt32) {carry : UInt64} (limbs : Limbs)
    (hcarry : carry.toNat < 0x100000000) :
    (mulAddFrom mul carry limbs).2.toNat < 0x100000000 := by
  induction limbs generalizing carry with
  | nil => exact hcarry
  | cons limb rest ih =>
    refine ih ?_
    have hvalue := (limb.toUInt64 * mul.toUInt64 + carry).toNat_lt
    rw [toNat_shiftRight]
    omega

theorem toNat_mulAddFrom (mul : UInt32) {carry : UInt64} (limbs : Limbs)
    (hcarry : carry.toNat < 0x100000000) :
    toNat (mulAddFrom mul carry limbs).1 +
        weight limbs.length * (mulAddFrom mul carry limbs).2.toNat =
      toNat limbs * mul.toNat + carry.toNat := by
  induction limbs generalizing carry with
  | nil => simp [mulAddFrom]
  | cons limb rest ih =>
    have hword := toNat_mulAdd_word limb mul hcarry
    have hvalue := (limb.toUInt64 * mul.toUInt64 + carry).toNat_lt
    have hshift := toNat_shiftRight (limb.toUInt64 * mul.toUInt64 + carry)
    have hrest := @ih ((limb.toUInt64 * mul.toUInt64 + carry) >>> 32) (by omega)
    simp only [mulAddFrom, toNat_cons, List.length_cons, weight_succ,
      UInt64.toNat_toUInt32, Nat.add_mul, Nat.mul_assoc] at hrest ⊢
    rw [hshift] at hrest
    omega

theorem length_subtractFrom (borrow : UInt64) (limbs : Limbs) :
    (subtractFrom borrow limbs).1.length = limbs.length := by
  fun_induction subtractFrom borrow limbs <;> simp_all

theorem toNat_subtractFrom {borrow : UInt64} (limbs : Limbs)
    (hborrow : borrow.toNat < 0x100000000) :
    toNat (subtractFrom borrow limbs).1 + borrow.toNat =
      toNat limbs + weight limbs.length * (subtractFrom borrow limbs).2.toNat := by
  fun_induction subtractFrom borrow limbs with
  | case1 => simp
  | case2 => simp_all
  | case3 borrow limb rest value hne hle =>
    have hlimb := limb.toNat_lt
    have hvalue : (value - borrow).toNat = limb.toNat - borrow.toNat := by
      rw [UInt64.toNat_sub_of_le _ _ hle, UInt32.toNat_toUInt64]
    rw [UInt64.le_iff_toNat_le, UInt32.toNat_toUInt64] at hle
    simp only [toNat_cons, UInt64.toNat_toUInt32, hvalue, UInt64.toNat_zero, Nat.mul_zero]
    omega
  | case4 borrow limb rest value hne hle high out heq ih =>
    have hlimb := limb.toNat_lt
    have hvalue : (value + 0x100000000 - borrow).toNat =
        limb.toNat + 0x100000000 - borrow.toNat := by
      rw [UInt64.toNat_sub_of_le, UInt64.toNat_add, UInt32.toNat_toUInt64]
      · simp only [UInt64.reduceToNat]
        omega
      · rw [UInt64.le_iff_toNat_le, UInt64.toNat_add, UInt32.toNat_toUInt64]
        simp only [UInt64.reduceToNat]
        omega
    rw [UInt64.le_iff_toNat_le, UInt32.toNat_toUInt64] at hle
    rw [heq] at ih
    have hrest := ih (by decide)
    simp only [toNat_cons, UInt64.toNat_toUInt32, hvalue, List.length_cons,
      weight_succ, Nat.mul_assoc, UInt64.reduceToNat] at hrest ⊢
    omega

theorem length_divideBy (divisor : UInt64) (limbs : Limbs) :
    (divideBy divisor limbs).1.length = limbs.length := by
  induction limbs with
  | nil => rfl
  | cons limb rest ih => simp [divideBy, ih]

theorem divideBy_remainder_lt {divisor : UInt64} (limbs : Limbs) (hpos : 0 < divisor.toNat) :
    (divideBy divisor limbs).2.toNat < divisor.toNat := by
  cases limbs with
  | nil => simpa [divideBy] using hpos
  | cons limb rest =>
    simp only [divideBy, UInt64.toNat_mod]
    exact Nat.mod_lt _ hpos

theorem toNat_shiftLeft_or {rem : UInt64} (limb : UInt32) (hrem : rem.toNat < 0x100000000) :
    (rem <<< 32 ||| limb.toUInt64).toNat = 0x100000000 * rem.toNat + limb.toNat := by
  have hlimb := limb.toNat_lt
  have hshift : (rem <<< 32).toNat = rem.toNat <<< 32 := by
    rw [UInt64.toNat_shiftLeft, Nat.shiftLeft_eq, Nat.shiftLeft_eq]
    simp only [UInt64.reduceToNat, Nat.reduceMod]
    omega
  rw [UInt64.toNat_or, UInt32.toNat_toUInt64, hshift,
    ← Nat.shiftLeft_add_eq_or_of_lt hlimb, Nat.shiftLeft_eq, Nat.mul_comm]

/--
One limb is divided behind the remainder of the limbs above it.  While that remainder is
below the divisor, the quotient fits a limb and the next remainder is below it again.
-/
theorem divide_word {rem divisor : UInt64} (limb : UInt32) (hrem : rem.toNat < divisor.toNat)
    (hdivisor : divisor.toNat < 0x100000000) :
    ((rem <<< 32 ||| limb.toUInt64) / divisor).toNat < 0x100000000 ∧
      ((rem <<< 32 ||| limb.toUInt64) % divisor).toNat < divisor.toNat ∧
      ((rem <<< 32 ||| limb.toUInt64) / divisor).toNat * divisor.toNat +
          ((rem <<< 32 ||| limb.toUInt64) % divisor).toNat =
        0x100000000 * rem.toNat + limb.toNat := by
  have hlimb := limb.toNat_lt
  have hpos : 0 < divisor.toNat := Nat.zero_lt_of_lt hrem
  have hword := toNat_shiftLeft_or limb (Nat.lt_trans hrem hdivisor)
  rw [UInt64.toNat_div, UInt64.toNat_mod, hword]
  refine ⟨?_, Nat.mod_lt _ hpos, Nat.div_add_mod' _ _⟩
  rw [Nat.div_lt_iff_lt_mul hpos]
  have hbound := Nat.mul_le_mul_left 0x100000000 (Nat.succ_le_of_lt hrem)
  omega

theorem toNat_divideBy {divisor : UInt64} (limbs : Limbs)
    (hpos : 0 < divisor.toNat) (hdivisor : divisor.toNat < 0x100000000) :
    toNat (divideBy divisor limbs).1 * divisor.toNat + (divideBy divisor limbs).2.toNat =
      toNat limbs := by
  induction limbs with
  | nil => simp [divideBy]
  | cons limb rest ih =>
    obtain ⟨hquotient, -, hvalue⟩ :=
      divide_word limb (divideBy_remainder_lt rest hpos) hdivisor
    simp only [divideBy, toNat_cons, UInt64.toNat_toUInt32, Nat.mod_eq_of_lt hquotient,
      Nat.add_mul, ← ih, Nat.mul_add, Nat.mul_assoc]
    omega

end Limbs

end DerContents
