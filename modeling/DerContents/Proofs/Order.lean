import DerContents.Basic

/-!
# Comparing numbers and lists

The order of numbers from their digits, the order of lists from that of their elements,
and lists brought into ascending order.
-/

namespace DerContents

theorem compare_add_right (a b summand : Nat) :
    compare (a + summand) (b + summand) = compare a b := by
  simp [Nat.compare_eq_ite_lt]

/-- The high digits decide unless they are equal. -/
theorem compare_add_mul {lowA lowB weight : Nat} (highA highB : Nat)
    (ha : lowA < weight) (hb : lowB < weight) :
    compare (lowA + weight * highA) (lowB + weight * highB) =
      (compare highA highB).then (compare lowA lowB) := by
  rcases Nat.lt_trichotomy highA highB with hlt | heq | hgt
  · have hstep := Nat.mul_le_mul_left weight (Nat.succ_le_of_lt hlt)
    rw [Nat.compare_eq_lt.2 hlt]
    exact Nat.compare_eq_lt.2 (by rw [Nat.mul_succ] at hstep; omega)
  · subst heq
    rw [Nat.compare_eq_eq.2 (rfl : highA = highA), Ordering.eq_then]
    rcases Nat.lt_trichotomy lowA lowB with hlt | heq | hgt
    · rw [Nat.compare_eq_lt.2 hlt, Nat.compare_eq_lt.2 (by omega)]
    · rw [heq, Nat.compare_eq_eq.2 rfl, Nat.compare_eq_eq.2 rfl]
    · rw [Nat.compare_eq_gt.2 hgt, Nat.compare_eq_gt.2 (by omega)]
  · have hstep := Nat.mul_le_mul_left weight (Nat.succ_le_of_lt hgt)
    rw [Nat.compare_eq_gt.2 hgt]
    exact Nat.compare_eq_gt.2 (by rw [Nat.mul_succ] at hstep; omega)

theorem compareLex_map {α β : Type} {cmp : β → β → Ordering} [Ord α] {f : α → β}
    (h : ∀ a b, cmp (f a) (f b) = compare a b) (left right : List α) :
    List.compareLex cmp (left.map f) (right.map f) = compare left right := by
  induction left generalizing right with
  | nil => cases right <;> rfl
  | cons a left ih =>
    cases right with
    | nil => rfl
    | cons b right =>
      rw [List.map_cons, List.map_cons, List.compareLex_cons_cons, h, ih,
        List.compare_cons_cons]

/-- Parts of one length in front decide first. -/
theorem compare_append {α : Type} [Ord α] {left right : List α} (h : left.length = right.length)
    (moreLeft moreRight : List α) :
    compare (left ++ moreLeft) (right ++ moreRight) =
      (compare left right).then (compare moreLeft moreRight) := by
  induction left generalizing right with
  | nil =>
    have hnil : right = [] := by simpa using h.symm
    rw [hnil]
    rfl
  | cons a left ih =>
    cases right with
    | nil => simp at h
    | cons b right =>
      rw [List.cons_append, List.cons_append, List.compare_cons_cons, List.compare_cons_cons,
        ih (by simpa using h), Ordering.then_assoc]

theorem compare_eq_lt_iff_lt {α : Type} [Ord α] [LT α] [Std.LawfulEqOrd α]
    (h : ∀ a b : α, compare a b = .lt ↔ a < b) (left right : List α) :
    compare left right = .lt ↔ left < right := by
  induction left generalizing right with
  | nil => cases right <;> simp
  | cons a left ih =>
    cases right with
    | nil => simp
    | cons b right =>
      rw [List.compare_cons_cons, Ordering.then_eq_lt, h, ih, Std.LawfulEqCmp.compare_eq_iff_eq,
        List.cons_lt_cons_iff]

section Sorting

variable {α : Type} [Ord α] [Std.TransOrd α]

theorem isLE_total (a b : α) : (compare a b).isLE = true ∨ (compare b a).isLE = true := by
  have hswap : compare b a = (compare a b).swap := Std.OrientedCmp.eq_swap
  rw [hswap]
  cases compare a b <;> decide

theorem pairwise_ascending (items : List α) :
    (ascending items).Pairwise fun a b => (compare a b).isLE = true := by
  apply List.pairwise_mergeSort
  · intro a b c
    exact Std.TransCmp.isLE_trans
  · intro a b
    rw [Bool.or_eq_true]
    exact isLE_total a b

theorem ascending_eq_of_perm [Std.LawfulEqOrd α] {items other : List α}
    (h : items.Perm other) : ascending items = ascending other := by
  apply List.Perm.eq_of_pairwise _ (pairwise_ascending items) (pairwise_ascending other)
  · exact (perm_ascending items).trans (h.trans (perm_ascending other).symm)
  · intro a b _ _ hle hge
    exact Std.LawfulEqCmp.eq_of_compare (Std.OrientedCmp.isLE_antisymm hle hge)

end Sorting

end DerContents
