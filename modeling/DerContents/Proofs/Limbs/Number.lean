import DerContents.Limbs.Passes
import DerContents.Proofs.Order
import Mathlib.Data.List.Basic

/-!
# Rows and numbers

Trimmed rows and natural numbers are in bijection: `ofNat` writes a number with the
fewest limbs.  Among trimmed rows the longer one is larger, and rows of one length
compare from their most significant ends.
-/

namespace DerContents

namespace Limbs

/-- The trimmed row that denotes a number. -/
def ofNat (number : Nat) : Limbs :=
  if number = 0 then
    []
  else
    UInt32.ofNat (number % 0x100000000) :: ofNat (number / 0x100000000)
termination_by number
decreasing_by omega

theorem ofNat_zero : ofNat 0 = [] := by
  rw [ofNat, if_pos rfl]

theorem ofNat_pos {number : Nat} (h : number ≠ 0) :
    ofNat number =
      UInt32.ofNat (number % 0x100000000) :: ofNat (number / 0x100000000) := by
  rw [ofNat, if_neg h]

theorem toNat_ofNat (number : Nat) : (ofNat number).toNat = number := by
  induction number using Nat.strongRecOn with
  | ind number ih =>
    by_cases h : number = 0
    · rw [h, ofNat_zero, toNat_nil]
    · have hrest := ih (number / 0x100000000) (by omega)
      have hlimb : (UInt32.ofNat (number % 0x100000000)).toNat = number % 0x100000000 := by
        rw [UInt32.toNat_ofNat', Nat.mod_mod]
      rw [ofNat_pos h, toNat_cons, hlimb, hrest]
      omega

theorem Trimmed.cons {limb : UInt32} {rest : Limbs} (h : rest.Trimmed)
    (hne : rest = [] → limb ≠ 0) : Trimmed (limb :: rest) := by
  cases rest with
  | nil => simpa [Trimmed] using hne rfl
  | cons next more => simpa [Trimmed] using h

theorem trimmed_ofNat (number : Nat) : (ofNat number).Trimmed := by
  induction number using Nat.strongRecOn with
  | ind number ih =>
    by_cases h : number = 0
    · rw [h, ofNat_zero]
      exact trimmed_nil
    · rw [ofNat_pos h]
      apply (ih (number / 0x100000000) (by omega)).cons
      intro hnil hzero
      have hhigh := toNat_ofNat (number / 0x100000000)
      have hlow := congrArg UInt32.toNat hzero
      rw [hnil, toNat_nil] at hhigh
      rw [UInt32.toNat_ofNat', UInt32.toNat_zero, Nat.mod_mod] at hlow
      omega

theorem Trimmed.ofNat_toNat {limbs : Limbs} (h : limbs.Trimmed) : ofNat limbs.toNat = limbs := by
  induction limbs with
  | nil => exact ofNat_zero
  | cons limb rest ih =>
    have hlimb := limb.toNat_lt
    have hne : toNat (limb :: rest) ≠ 0 := by
      intro hzero
      have hnil := h.toNat_eq_zero_iff.1 hzero
      simp at hnil
    have hlow : toNat (limb :: rest) % 0x100000000 = limb.toNat := by
      rw [toNat_cons]
      omega
    have hhigh : toNat (limb :: rest) / 0x100000000 = toNat rest := by
      rw [toNat_cons]
      omega
    rw [ofNat_pos hne, hlow, hhigh, ih h.tail, UInt32.ofNat_toNat]

theorem Trimmed.eq_of_toNat_eq {a b : Limbs} (ha : a.Trimmed) (hb : b.Trimmed)
    (h : a.toNat = b.toNat) : a = b := by
  rw [← ha.ofNat_toNat, h, hb.ofNat_toNat]

theorem weight_pos (length : Nat) : 0 < weight length := by
  induction length with
  | zero => decide
  | succ length ih =>
    rw [weight_succ]
    omega

theorem weight_le_weight {short long : Nat} (h : short ≤ long) :
    weight short ≤ weight long := by
  induction h with
  | refl => exact Nat.le_refl _
  | @step long _ ih =>
    have hpos := weight_pos long
    rw [weight_succ]
    omega

theorem Trimmed.weight_le {limbs : Limbs} {length : Nat} (h : limbs.Trimmed)
    (hlength : limbs.length = length + 1) : weight length ≤ limbs.toNat := by
  induction limbs generalizing length with
  | nil => simp at hlength
  | cons limb rest ih =>
    cases length with
    | zero =>
      have hnil : rest = [] := by simpa using hlength
      have hpos : toNat (limb :: rest) ≠ 0 := by
        intro hzero
        have := h.toNat_eq_zero_iff.1 hzero
        simp at this
      rw [weight_zero]
      omega
    | succ length =>
      have hrest := ih h.tail (by simpa using hlength)
      rw [weight_succ, toNat_cons]
      omega

theorem Trimmed.toNat_lt_of_length_lt {a b : Limbs} (hb : b.Trimmed)
    (h : a.length < b.length) : a.toNat < b.toNat := by
  obtain ⟨length, hlength⟩ := Nat.exists_eq_succ_of_ne_zero (Nat.ne_of_gt (Nat.zero_lt_of_lt h))
  have hlow := toNat_lt a
  have hweight := weight_le_weight (show a.length ≤ length by omega)
  have hhigh := hb.weight_le hlength
  omega

/-- Rows written from their most significant ends compare as their numbers do. -/
theorem compare_of_length_eq {a b : Limbs} (h : a.length = b.length) :
    compare a b = compare (toNat a.reverse) (toNat b.reverse) := by
  induction a generalizing b with
  | nil =>
    have hnil : b = [] := by simpa using h.symm
    rw [hnil]
    rfl
  | cons x xs ih =>
    cases b with
    | nil => simp at h
    | cons y ys =>
      have hlength : xs.length = ys.length := by simpa using h
      have hx := toNat_lt xs.reverse
      have hy := toNat_lt ys.reverse
      rw [List.length_reverse] at hx hy
      rw [List.compare_cons_cons, ih hlength, List.reverse_cons, List.reverse_cons,
        toNat_append, toNat_append, List.length_reverse, List.length_reverse, ← hlength]
      simp only [toNat_cons, toNat_nil, Nat.mul_zero, Nat.add_zero]
      rw [compare_add_mul _ _ hx (hlength ▸ hy), UInt32.compare_eq_toNat_compare_toNat]

/-- Among trimmed rows, length first and limbs from the top decide as the numbers do. -/
theorem Trimmed.compare_eq {a b : Limbs} (ha : a.Trimmed) (hb : b.Trimmed) :
    (compare a.length b.length).then (compare a.reverse b.reverse) =
      compare a.toNat b.toNat := by
  rcases Nat.lt_trichotomy a.length b.length with hlt | heq | hgt
  · rw [Nat.compare_eq_lt.2 hlt, Nat.compare_eq_lt.2 (hb.toNat_lt_of_length_lt hlt)]
    rfl
  · rw [Nat.compare_eq_eq.2 heq, Ordering.eq_then, compare_of_length_eq (by simpa using heq),
      List.reverse_reverse, List.reverse_reverse]
  · rw [Nat.compare_eq_gt.2 hgt, Nat.compare_eq_gt.2 (ha.toNat_lt_of_length_lt hgt)]
    rfl

theorem subtractFrom_borrow_eq_zero {borrow : UInt64} {limbs : Limbs}
    (hborrow : borrow.toNat < 0x100000000) (h : borrow.toNat ≤ limbs.toNat) :
    (limbs.subtractFrom borrow).2.toNat = 0 := by
  have hvalue := toNat_subtractFrom limbs hborrow
  have hlow := toNat_lt (limbs.subtractFrom borrow).1
  rw [length_subtractFrom] at hlow
  apply Nat.eq_zero_of_not_pos
  intro hpos
  have hcarried := Nat.le_mul_of_pos_right (weight limbs.length) hpos
  omega

theorem toNat_subtractFrom_of_le {borrow : UInt64} {limbs : Limbs}
    (hborrow : borrow.toNat < 0x100000000) (h : borrow.toNat ≤ limbs.toNat) :
    toNat (limbs.subtractFrom borrow).1 = limbs.toNat - borrow.toNat := by
  have hvalue := toNat_subtractFrom limbs hborrow
  rw [subtractFrom_borrow_eq_zero hborrow h, Nat.mul_zero] at hvalue
  omega

end Limbs

end DerContents
