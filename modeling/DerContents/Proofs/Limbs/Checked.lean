import DerContents.Proofs.Limbs.Number

/-!
# Passes with checked words

The passes compute in words of 64 bits that would wrap round without notice.  Here each
operation on words is checked, and so is each narrowing to a limb that must lose nothing.
The checks never fail, so the passes compute what their words say.
-/

namespace DerContents

namespace Word

/-- The product of two words; none when it takes more than 64 bits. -/
def mul? (a b : UInt64) : Option UInt64 :=
  if a.toNat * b.toNat < 0x10000000000000000 then some (a * b) else none

def add? (a b : UInt64) : Option UInt64 :=
  if a.toNat + b.toNat < 0x10000000000000000 then some (a + b) else none

def sub? (a b : UInt64) : Option UInt64 :=
  if b.toNat ≤ a.toNat then some (a - b) else none

def limb? (a : UInt64) : Option UInt32 :=
  if a.toNat < 0x100000000 then some a.toUInt32 else none

/-- A word with a limb put behind it; none when that takes more than 64 bits. -/
def behind? (a : UInt64) (limb : UInt32) : Option UInt64 :=
  if a.toNat * 0x100000000 + limb.toNat < 0x10000000000000000 then
    some (a <<< 32 ||| limb.toUInt64)
  else
    none

def divMod? (a b : UInt64) : Option (UInt64 × UInt64) :=
  if b = 0 then none else some (a / b, a % b)

theorem mul?_eq {a b : UInt64} (h : a.toNat * b.toNat < 0x10000000000000000) :
    mul? a b = some (a * b) :=
  if_pos h

theorem add?_eq {a b : UInt64} (h : a.toNat + b.toNat < 0x10000000000000000) :
    add? a b = some (a + b) :=
  if_pos h

theorem sub?_eq {a b : UInt64} (h : b.toNat ≤ a.toNat) : sub? a b = some (a - b) :=
  if_pos h

theorem limb?_eq {a : UInt64} (h : a.toNat < 0x100000000) : limb? a = some a.toUInt32 :=
  if_pos h

theorem mul?_eq_some_iff {a b c : UInt64} : mul? a b = some c ↔ c.toNat = a.toNat * b.toNat := by
  have hc := c.toNat_lt
  rw [mul?, Option.ite_none_right_eq_some, Option.some_inj, ← UInt64.toNat_inj, UInt64.toNat_mul]
  constructor
  · rintro ⟨hfits, heq⟩
    rw [← heq, Nat.mod_eq_of_lt hfits]
  · intro heq
    rw [← heq]
    exact ⟨hc, Nat.mod_eq_of_lt hc⟩

theorem add?_eq_some_iff {a b c : UInt64} : add? a b = some c ↔ c.toNat = a.toNat + b.toNat := by
  have hc := c.toNat_lt
  rw [add?, Option.ite_none_right_eq_some, Option.some_inj, ← UInt64.toNat_inj, UInt64.toNat_add]
  constructor
  · rintro ⟨hfits, heq⟩
    rw [← heq, Nat.mod_eq_of_lt hfits]
  · intro heq
    rw [← heq]
    exact ⟨hc, Nat.mod_eq_of_lt hc⟩

theorem behind?_eq {a : UInt64} (h : a.toNat < 0x100000000) (limb : UInt32) :
    behind? a limb = some (a <<< 32 ||| limb.toUInt64) := by
  have hlimb := limb.toNat_lt
  exact if_pos (by omega)

theorem divMod?_eq {a b : UInt64} (h : 0 < b.toNat) : divMod? a b = some (a / b, a % b) := by
  refine if_neg ?_
  rintro rfl
  exact absurd h (by decide)

end Word

namespace Limbs

/-- `mulAddFrom` with checked words; the low half of each value is taken on purpose. -/
def mulAddChecked? (mul : UInt32) (carry : UInt64) : Limbs → Option (Limbs × UInt64)
  | [] => some ([], carry)
  | limb :: rest => do
    let product ← Word.mul? limb.toUInt64 mul.toUInt64
    let value ← Word.add? product carry
    let (high, out) ← mulAddChecked? mul (value >>> 32) rest
    return (value.toUInt32 :: high, out)

def subtractChecked? (borrow : UInt64) : Limbs → Option (Limbs × UInt64)
  | [] => some ([], borrow)
  | limb :: rest =>
    if borrow = 0 then
      return (limb :: rest, 0)
    else if borrow ≤ limb.toUInt64 then do
      let low ← Word.limb? (← Word.sub? limb.toUInt64 borrow)
      return (low :: rest, 0)
    else do
      let raised ← Word.add? limb.toUInt64 0x100000000
      let low ← Word.limb? (← Word.sub? raised borrow)
      let (high, out) ← subtractChecked? 1 rest
      return (low :: high, out)

def divideChecked? (divisor : UInt64) : Limbs → Option (Limbs × UInt64)
  | [] => some ([], 0)
  | limb :: rest => do
    let (high, rem) ← divideChecked? divisor rest
    let value ← Word.behind? rem limb
    let (quotient, next) ← Word.divMod? value divisor
    return ((← Word.limb? quotient) :: high, next)

theorem mulAddChecked?_eq (mul : UInt32) {carry : UInt64} (limbs : Limbs)
    (hcarry : carry.toNat < 0x100000000) :
    mulAddChecked? mul carry limbs = some (mulAddFrom mul carry limbs) := by
  induction limbs generalizing carry with
  | nil => rfl
  | cons limb rest ih =>
    have hlimb : limb.toUInt64.toNat < 0x100000000 := limb.toNat_lt
    have hmul : mul.toUInt64.toNat < 0x100000000 := mul.toNat_lt
    have hbound : limb.toUInt64.toNat * mul.toUInt64.toNat ≤
        (0x100000000 - 1) * (0x100000000 - 1) := Nat.mul_le_mul (by omega) (by omega)
    have hproduct : (limb.toUInt64 * mul.toUInt64).toNat =
        limb.toUInt64.toNat * mul.toUInt64.toNat := by
      rw [UInt64.toNat_mul, Nat.mod_eq_of_lt (by omega)]
    have hshift := toNat_shiftRight (limb.toUInt64 * mul.toUInt64 + carry)
    have hvalue := (limb.toUInt64 * mul.toUInt64 + carry).toNat_lt
    have hrest := @ih ((limb.toUInt64 * mul.toUInt64 + carry) >>> 32) (by omega)
    rw [mulAddChecked?, Word.mul?_eq (by omega), Option.bind_eq_bind, Option.bind_some,
      Word.add?_eq (by omega), Option.bind_some, hrest]
    rfl

theorem subtractChecked?_eq {borrow : UInt64} (limbs : Limbs)
    (hborrow : borrow.toNat < 0x100000000) :
    subtractChecked? borrow limbs = some (subtractFrom borrow limbs) := by
  induction limbs generalizing borrow with
  | nil => rfl
  | cons limb rest ih =>
    have hlimb : limb.toUInt64.toNat < 0x100000000 := limb.toNat_lt
    rw [subtractChecked?, subtractFrom]
    split
    · rfl
    split
    next hle =>
      have hvalue := UInt64.toNat_sub_of_le _ _ hle
      rw [UInt64.le_iff_toNat_le] at hle
      rw [Word.sub?_eq hle, Option.bind_eq_bind, Option.bind_some, Word.limb?_eq (by omega)]
      rfl
    next hle =>
      have hunit : (0x100000000 : UInt64).toNat = 0x100000000 := by decide
      have hraised : (limb.toUInt64 + 0x100000000).toNat =
          limb.toUInt64.toNat + 0x100000000 := by
        rw [UInt64.toNat_add, hunit, Nat.mod_eq_of_lt (by omega)]
      rw [UInt64.le_iff_toNat_le] at hle
      have hcovers : borrow.toNat ≤ (limb.toUInt64 + 0x100000000).toNat := by omega
      have hvalue := UInt64.toNat_sub_of_le _ _ (UInt64.le_iff_toNat_le.2 hcovers)
      rw [Word.add?_eq (by omega), Option.bind_eq_bind, Option.bind_some, Word.sub?_eq hcovers,
        Option.bind_some, Word.limb?_eq (by omega), Option.bind_eq_bind, Option.bind_some,
        @ih 1 (by decide)]
      rfl

theorem divideChecked?_eq {divisor : UInt64} (limbs : Limbs) (hpos : 0 < divisor.toNat)
    (hdivisor : divisor.toNat < 0x100000000) :
    divideChecked? divisor limbs = some (divideBy divisor limbs) := by
  induction limbs with
  | nil => rfl
  | cons limb rest ih =>
    have hrem := divideBy_remainder_lt rest hpos
    rw [divideChecked?, divideBy, ih]
    -- The limbs above leave a remainder below the divisor, so the next word has room for it.
    rcases hrest : divideBy divisor rest with ⟨high, rem⟩
    rw [hrest] at hrem
    obtain ⟨hquotient, -, -⟩ := divide_word limb hrem hdivisor
    rw [Option.bind_eq_bind, Option.bind_some]
    simp only [Word.behind?_eq (Nat.lt_trans hrem hdivisor), Word.divMod?_eq hpos,
      Word.limb?_eq hquotient, Option.bind_eq_bind, Option.bind_some, Option.pure_def]

end Limbs

end DerContents
