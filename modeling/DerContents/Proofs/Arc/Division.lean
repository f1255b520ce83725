import DerContents.Proofs.Arc.Number
import DerContents.Proofs.Limbs.Checked

/-!
# Division by a word

An arc divided by a word other than zero leaves the quotient and the remainder of its
number, and these are the only ones that multiplying and adding takes back to the arc.
No bit is lost on the way: the remainder stays below the divisor from limb to limb, so
that each word has room for the next limb and each quotient fits one.
-/

namespace DerContents

namespace Arc

def divRemChecked? (arc : Arc) (divisor : UInt32) : Option (Arc × UInt32) := do
  let (quotient, rem) ← arc.limbs.divideChecked? divisor.toUInt64
  return (ofLimbs quotient, ← Word.limb? rem)

theorem divRemChecked?_eq (arc : Arc) {divisor : UInt32} (hpos : 0 < divisor.toNat) :
    arc.divRemChecked? divisor = some (arc.divRem divisor) := by
  have hword : 0 < divisor.toUInt64.toNat := hpos
  have hdivisor : divisor.toUInt64.toNat < 0x100000000 := divisor.toNat_lt
  have hrem := Nat.lt_trans (Limbs.divideBy_remainder_lt arc.limbs hword) hdivisor
  rw [divRemChecked?, divRem, Limbs.divideChecked?_eq arc.limbs hword hdivisor]
  rcases hdivided : arc.limbs.divideBy divisor.toUInt64 with ⟨quotient, rem⟩
  rw [hdivided] at hrem
  simp only [Option.bind_eq_bind, Option.bind_some, Word.limb?_eq hrem, Option.pure_def]

theorem mulAdd_divRem {arc : Arc} (harc : arc.Normal) {divisor : UInt32}
    (hpos : 0 < divisor.toNat) :
    (arc.divRem divisor).1.mulAdd divisor (arc.divRem divisor).2 = arc := by
  apply (normal_mulAdd _ _ _).eq_of_toNat_eq harc
  rw [toNat_mulAdd, arc.toNat_divRem hpos]

theorem divRem_mulAdd {quotient : Arc} (hquotient : quotient.Normal) {divisor rem : UInt32}
    (hrem : rem.toNat < divisor.toNat) :
    (quotient.mulAdd divisor rem).divRem divisor = (quotient, rem) := by
  have hpos : 0 < divisor.toNat := Nat.zero_lt_of_lt hrem
  have hvalues := (quotient.mulAdd divisor rem).divRem_values hpos
  rw [toNat_mulAdd, Nat.mul_comm, Nat.mul_add_div hpos, Nat.div_eq_of_lt hrem, Nat.add_zero,
    Nat.mul_add_mod, Nat.mod_eq_of_lt hrem] at hvalues
  exact Prod.ext ((normal_divRem _ _).eq_of_toNat_eq hquotient hvalues.1)
    (UInt32.toNat_inj.1 hvalues.2)

/--
An arc divided by a word other than zero gives the quotient of its number, without zero
limbs at its most significant end, and the remainder, and every check on the way holds.
On normal arcs multiplying and adding restores what was divided, and dividing restores
what was multiplied and what was added to it, if that is below the divisor.
-/
theorem divRem_is_exact_and_inverts_mulAdd (arc : Arc) {divisor : UInt32}
    (hdivisor : divisor ≠ 0) :
    (arc.divRem divisor).1.toNat = arc.toNat / divisor.toNat ∧
    (arc.divRem divisor).1.limbs.getLast? ≠ some 0 ∧
    (arc.divRem divisor).2.toNat = arc.toNat % divisor.toNat ∧
    arc.divRemChecked? divisor = some (arc.divRem divisor) ∧
    (arc.Normal →
      (arc.divRem divisor).1.mulAdd divisor (arc.divRem divisor).2 = arc ∧
      ∀ rem : UInt32, rem < divisor →
        (arc.mulAdd divisor rem).divRem divisor = (arc, rem)) := by
  have hpos : 0 < divisor.toNat := UInt32.lt_iff_toNat_lt.1 (UInt32.pos_iff_ne_zero.2 hdivisor)
  have hvalues := arc.divRem_values hpos
  refine ⟨hvalues.1, arc.normal_divRem divisor, hvalues.2, arc.divRemChecked?_eq hpos, ?_⟩
  intro harc
  refine ⟨mulAdd_divRem harc hpos, ?_⟩
  intro rem hrem
  exact divRem_mulAdd harc (UInt32.lt_iff_toNat_lt.1 hrem)

/-- The largest divisor, the largest quotient limb, and above it a limb that vanishes. -/
theorem divRem_is_exact_and_inverts_mulAdd_at_the_largest_divisor :
    (0xFFFFFFFF : UInt32) ≠ 0 ∧ Normal ⟨[0xFFFFFFFF, 0xFFFFFFFE]⟩ ∧
    divRem ⟨[0xFFFFFFFF, 0xFFFFFFFE]⟩ 0xFFFFFFFF = (⟨[0xFFFFFFFF]⟩, 0xFFFFFFFE) ∧
    divRemChecked? ⟨[0xFFFFFFFF, 0xFFFFFFFE]⟩ 0xFFFFFFFF =
      some (⟨[0xFFFFFFFF]⟩, 0xFFFFFFFE) ∧
    mulAdd ⟨[0xFFFFFFFF]⟩ 0xFFFFFFFF 0xFFFFFFFE = ⟨[0xFFFFFFFF, 0xFFFFFFFE]⟩ := by
  have hdivisor : (0xFFFFFFFF : UInt32) ≠ 0 := by decide
  have harc : Normal ⟨[0xFFFFFFFF, 0xFFFFFFFE]⟩ := by decide
  have hresult : divRem ⟨[0xFFFFFFFF, 0xFFFFFFFE]⟩ 0xFFFFFFFF =
      (⟨[0xFFFFFFFF]⟩, 0xFFFFFFFE) := by decide
  rcases divRem_is_exact_and_inverts_mulAdd ⟨[0xFFFFFFFF, 0xFFFFFFFE]⟩ hdivisor with
    ⟨-, -, -, hchecked, hinverse⟩
  have hrestored := (hinverse harc).1
  rw [hresult] at hchecked hrestored
  exact ⟨hdivisor, harc, hresult, hchecked, hrestored⟩

end Arc

end DerContents
