/-!
# Rows of limbs

Natural numbers of any size as rows of 32-bit limbs, least significant first.
Many rows denote one number; the trimmed one, without zero limbs at the most
significant end, stands for them all.
-/

namespace DerContents

/-- A row of 32-bit limbs, least significant first. -/
abbrev Limbs := List UInt32

namespace Limbs

def toNat : Limbs → Nat
  | [] => 0
  | limb :: rest => limb.toNat + 0x100000000 * toNat rest

/-- What one is worth in the limb behind a row of the given length. -/
def weight : Nat → Nat
  | 0 => 1
  | length + 1 => 0x100000000 * weight length

/-- A row without zero limbs at its most significant end. -/
def Trimmed (limbs : Limbs) : Prop :=
  limbs.getLast? ≠ some 0

instance (limbs : Limbs) : Decidable limbs.Trimmed :=
  inferInstanceAs (Decidable (_ ≠ _))

def trim : Limbs → Limbs
  | [] => []
  | limb :: rest =>
    match trim rest with
    | [] => if limb = 0 then [] else [limb]
    | next :: more => limb :: next :: more

def limbAt (limbs : Limbs) (index : Nat) : UInt32 :=
  limbs[index]?.getD 0

def significantBits (limb : UInt32) : Nat :=
  if limb = 0 then 0 else limb.toNat.log2 + 1

/-- The number of bits up to the highest set bit of the most significant limb. -/
def bitLength (limbs : Limbs) : Nat :=
  match limbs.getLast? with
  | none => 0
  | some top => (limbs.length - 1) * 32 + significantBits top

@[simp] theorem toNat_nil : toNat [] = 0 := rfl

@[simp] theorem toNat_cons (limb : UInt32) (rest : Limbs) :
    toNat (limb :: rest) = limb.toNat + 0x100000000 * toNat rest := rfl

@[simp] theorem weight_zero : weight 0 = 1 := rfl

theorem weight_succ (length : Nat) : weight (length + 1) = 0x100000000 * weight length := rfl

theorem toNat_append (low high : Limbs) :
    toNat (low ++ high) = toNat low + weight low.length * toNat high := by
  induction low with
  | nil => simp
  | cons limb rest ih =>
    rw [List.cons_append, toNat_cons, ih, List.length_cons, weight_succ,
      toNat_cons, Nat.mul_add, Nat.mul_assoc, Nat.add_assoc]

theorem toNat_lt (limbs : Limbs) : toNat limbs < weight limbs.length := by
  induction limbs with
  | nil => simp
  | cons limb rest ih =>
    have hlimb := limb.toNat_lt
    rw [toNat_cons, List.length_cons, weight_succ]
    omega

theorem toNat_shiftRight (value : UInt64) :
    (value >>> 32).toNat = value.toNat / 0x100000000 := by
  rw [UInt64.toNat_shiftRight]
  simp [Nat.shiftRight_eq_div_pow]

@[simp] theorem toNat_trim (limbs : Limbs) : toNat (trim limbs) = toNat limbs := by
  induction limbs with
  | nil => rfl
  | cons limb rest ih =>
    unfold trim
    split
    next h =>
      rw [h] at ih
      split <;> simp_all [← ih]
    next next more h =>
      rw [toNat_cons, ← h, ih, toNat_cons]

theorem trimmed_trim (limbs : Limbs) : (trim limbs).Trimmed := by
  induction limbs with
  | nil => simp [trim, Trimmed]
  | cons limb rest ih =>
    unfold trim
    split
    next =>
      split
      · simp [Trimmed]
      · simpa [Trimmed]
    next next more h =>
      rw [h] at ih
      simpa [Trimmed] using ih

theorem length_trim_le (limbs : Limbs) : (trim limbs).length ≤ limbs.length := by
  induction limbs with
  | nil => simp [trim]
  | cons limb rest ih =>
    unfold trim
    split
    next => split <;> simp
    next next more h =>
      rw [h] at ih
      simpa using ih

theorem trimmed_nil : Trimmed [] := by decide

theorem Trimmed.tail {limb : UInt32} {rest : Limbs} (h : Trimmed (limb :: rest)) :
    Trimmed rest := by
  cases rest with
  | nil => exact trimmed_nil
  | cons next more => simpa [Trimmed] using h

theorem Trimmed.toNat_eq_zero_iff {limbs : Limbs} (h : limbs.Trimmed) :
    limbs.toNat = 0 ↔ limbs = [] := by
  induction limbs with
  | nil => simp
  | cons limb rest ih =>
    have hrest := ih h.tail
    refine ⟨fun hzero => ?_, fun hnil => by cases hnil⟩
    rw [toNat_cons] at hzero
    have hnil : rest = [] := hrest.1 (by omega)
    subst hnil
    have hlimb : limb = 0 := UInt32.toNat_inj.1 (by simp at hzero; simpa using hzero)
    exact absurd hlimb (by simpa [Trimmed] using h)

end Limbs

end DerContents
