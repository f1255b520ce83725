import DerContents.Arc.Basic
import DerContents.Limbs.Passes

/-!
# Arithmetic with one word

Multiply and add, add, subtract and divide, each by an operand of one word.  These
are all the steps that reading and writing an arc take.  A result is again normal.
-/

namespace DerContents

namespace Arc

def mulAdd (arc : Arc) (mul add : UInt32) : Arc :=
  let (low, carry) := arc.limbs.mulAddFrom mul add.toUInt64
  ofLimbs (if carry = 0 then low else low ++ [carry.toUInt32])

def addWord (arc : Arc) (add : UInt32) : Arc :=
  arc.mulAdd 1 add

/-- The arc minus `sub`, unless it is less. -/
def subWord? (arc : Arc) (sub : UInt32) : Option Arc :=
  if compare arc (ofUInt32 sub) = .lt then
    none
  else
    some (ofLimbs (arc.limbs.subtractFrom sub.toUInt64).1)

/-- Quotient and remainder of the division by a word other than zero. -/
def divRem (arc : Arc) (divisor : UInt32) : Arc × UInt32 :=
  let (quotient, rem) := arc.limbs.divideBy divisor.toUInt64
  (ofLimbs quotient, rem.toUInt32)

inductive Operation where
  | mulAdd (factor summand : UInt32)
  | add (operand : UInt32)
  | subtract (operand : UInt32)
deriving DecidableEq, Repr

/-- The arc after a step; none when the step would go below zero. -/
def Operation.apply? (arc : Arc) : Operation → Option Arc
  | .mulAdd factor summand => some (arc.mulAdd factor summand)
  | .add operand => some (arc.addWord operand)
  | .subtract operand => arc.subWord? operand

/-- The result of each step.  After a step without one the arc stays as it was. -/
def calculate (arc : Arc) : List Operation → List (Option Arc)
  | [] => []
  | operation :: rest =>
    let result := operation.apply? arc
    result :: calculate (result.getD arc) rest

@[simp] theorem toNat_mulAdd (arc : Arc) (mul add : UInt32) :
    (arc.mulAdd mul add).toNat = arc.toNat * mul.toNat + add.toNat := by
  have hadd : add.toUInt64.toNat < 0x100000000 := add.toNat_lt
  have hvalue := Limbs.toNat_mulAddFrom mul arc.limbs hadd
  have hcarry := Limbs.mulAddFrom_carry_lt mul arc.limbs hadd
  have hlength := Limbs.length_mulAddFrom mul add.toUInt64 arc.limbs
  rw [UInt32.toNat_toUInt64] at hvalue
  simp only [mulAdd, toNat_ofLimbs]
  split
  next h =>
    rw [h, UInt64.toNat_zero, Nat.mul_zero] at hvalue
    exact hvalue
  next h =>
    rw [Limbs.toNat_append, hlength, Limbs.toNat_cons, Limbs.toNat_nil, Nat.mul_zero,
      Nat.add_zero, UInt64.toNat_toUInt32, Nat.mod_eq_of_lt hcarry]
    exact hvalue

theorem normal_mulAdd (arc : Arc) (mul add : UInt32) : (arc.mulAdd mul add).Normal :=
  normal_ofLimbs _

@[simp] theorem toNat_addWord (arc : Arc) (add : UInt32) :
    (arc.addWord add).toNat = arc.toNat + add.toNat := by
  simp [addWord]

theorem normal_addWord (arc : Arc) (add : UInt32) : (arc.addWord add).Normal :=
  normal_mulAdd arc 1 add

theorem toNat_divRem (arc : Arc) {divisor : UInt32} (hpos : 0 < divisor.toNat) :
    (arc.divRem divisor).1.toNat * divisor.toNat + (arc.divRem divisor).2.toNat =
      arc.toNat := by
  have hdivisor : divisor.toUInt64.toNat = divisor.toNat := UInt32.toNat_toUInt64 divisor
  have hlt := divisor.toNat_lt
  have hword : 0 < divisor.toUInt64.toNat := hpos
  have hrem := Limbs.divideBy_remainder_lt arc.limbs hword
  have hvalue := Limbs.toNat_divideBy arc.limbs hword (by omega)
  rw [hdivisor] at hvalue hrem
  simp only [divRem, toNat_ofLimbs, UInt64.toNat_toUInt32]
  rw [Nat.mod_eq_of_lt (by omega)]
  exact hvalue

theorem divRem_remainder_lt (arc : Arc) {divisor : UInt32} (hpos : 0 < divisor.toNat) :
    (arc.divRem divisor).2.toNat < divisor.toNat := by
  have hlt := divisor.toNat_lt
  have hword : 0 < divisor.toUInt64.toNat := hpos
  have hrem := Limbs.divideBy_remainder_lt arc.limbs hword
  rw [UInt32.toNat_toUInt64] at hrem
  simp only [divRem, UInt64.toNat_toUInt32]
  rw [Nat.mod_eq_of_lt (by omega)]
  exact hrem

theorem normal_divRem (arc : Arc) (divisor : UInt32) : (arc.divRem divisor).1.Normal :=
  normal_ofLimbs _

theorem length_divRem_le (arc : Arc) (divisor : UInt32) :
    (arc.divRem divisor).1.limbs.length ≤ arc.limbs.length := by
  simp only [divRem, ofLimbs]
  exact Nat.le_trans (Limbs.length_trim_le _) (Nat.le_of_eq (Limbs.length_divideBy _ _))

end Arc

end DerContents
