import DerContents.Limbs.Basic

/-!
# Arcs

An arc is one number of an object identifier.  Neither the written nor the encoded
form bounds it, so it is kept as a row of limbs.  The normal arcs are those with a
trimmed row: zero is the empty row, equal numbers have equal rows, and a longer row
is a larger number.  Every operation of the library makes normal arcs.
-/

namespace DerContents

/-- One number of an object identifier. -/
structure Arc where
  limbs : Limbs
deriving DecidableEq, Repr

namespace Arc

def toNat (arc : Arc) : Nat :=
  arc.limbs.toNat

/-- An arc whose row has no zero limbs at its most significant end. -/
def Normal (arc : Arc) : Prop :=
  arc.limbs.Trimmed

instance (arc : Arc) : Decidable arc.Normal :=
  inferInstanceAs (Decidable (Limbs.Trimmed _))

def zero : Arc := ⟨[]⟩

/-- Whether an arc is zero, read off its row. -/
def isZero (arc : Arc) : Bool :=
  arc.limbs.isEmpty

def ofLimbs (limbs : Limbs) : Arc :=
  ⟨limbs.trim⟩

def ofUInt64 (value : UInt64) : Arc :=
  ofLimbs [value.toUInt32, (value >>> 32).toUInt32]

def ofUInt32 (value : UInt32) : Arc :=
  ofUInt64 value.toUInt64

def ofUInt16 (value : UInt16) : Arc :=
  ofUInt64 value.toUInt64

def ofUInt8 (value : UInt8) : Arc :=
  ofUInt64 value.toUInt64

/-- The word of an arc that has at most one limb. -/
def toUInt32? (arc : Arc) : Option UInt32 :=
  match arc.limbs with
  | [] => some 0
  | [limb] => some limb
  | _ => none

/-- The word of an arc that has at most two limbs. -/
def toUInt64? (arc : Arc) : Option UInt64 :=
  match arc.limbs with
  | [] => some 0
  | [low] => some low.toUInt64
  | [low, high] => some (high.toUInt64 <<< 32 ||| low.toUInt64)
  | _ => none

/-- A longer row is larger; rows of one length compare from the most significant limb. -/
protected def compare (a b : Arc) : Ordering :=
  (compare a.limbs.length b.limbs.length).then
    (compare a.limbs.reverse b.limbs.reverse)

instance : Ord Arc := ⟨Arc.compare⟩

@[simp] theorem toNat_zero : zero.toNat = 0 := rfl

theorem normal_zero : zero.Normal := by decide

@[simp] theorem toNat_ofLimbs (limbs : Limbs) : (ofLimbs limbs).toNat = limbs.toNat :=
  Limbs.toNat_trim limbs

theorem normal_ofLimbs (limbs : Limbs) : (ofLimbs limbs).Normal :=
  Limbs.trimmed_trim limbs

@[simp] theorem toNat_ofUInt64 (value : UInt64) : (ofUInt64 value).toNat = value.toNat := by
  have hvalue := value.toNat_lt
  simp only [ofUInt64, toNat_ofLimbs, Limbs.toNat_cons, Limbs.toNat_nil,
    UInt64.toNat_toUInt32, Limbs.toNat_shiftRight]
  omega

@[simp] theorem toNat_ofUInt32 (value : UInt32) : (ofUInt32 value).toNat = value.toNat := by
  simp [ofUInt32]

@[simp] theorem toNat_ofUInt16 (value : UInt16) : (ofUInt16 value).toNat = value.toNat := by
  simp [ofUInt16]

@[simp] theorem toNat_ofUInt8 (value : UInt8) : (ofUInt8 value).toNat = value.toNat := by
  simp [ofUInt8]

theorem normal_ofUInt64 (value : UInt64) : (ofUInt64 value).Normal :=
  normal_ofLimbs _

theorem normal_ofUInt32 (value : UInt32) : (ofUInt32 value).Normal :=
  normal_ofUInt64 _

theorem Normal.isZero_iff {arc : Arc} (h : arc.Normal) :
    arc.isZero = true ↔ arc.toNat = 0 := by
  rw [isZero, List.isEmpty_iff, Arc.toNat]
  exact (Limbs.Trimmed.toNat_eq_zero_iff h).symm

end Arc

end DerContents
