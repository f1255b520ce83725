import DerContents.Proofs.Arc.Number
import DerContents.Proofs.Limbs.Checked

/-!
# Calculations with arcs

Steps on a normal arc do what they say to its number.  A calculation of any length
therefore gives the results of exact arithmetic, each of them a normal arc, and nothing
is lost on the way: no word overflows, a carry out fits a limb, and no borrow remains.
-/

namespace DerContents

namespace Arc

def Operation.onNumber? (number : Nat) : Operation → Option Nat
  | .mulAdd factor summand => some (number * factor.toNat + summand.toNat)
  | .add operand => some (number + operand.toNat)
  | .subtract operand =>
    if number < operand.toNat then none else some (number - operand.toNat)

def Operation.nextNumber (number : Nat) (operation : Operation) : Nat :=
  match operation.onNumber? number with
  | some result => result
  | none => number

/-- The result of each step on a number, each on what the steps before it left. -/
def calculateNumber (number : Nat) : List Operation → List (Option Nat)
  | [] => []
  | operation :: rest =>
    operation.onNumber? number :: calculateNumber (operation.nextNumber number) rest

def numberAfter (number : Nat) (operations : List Operation) : Nat :=
  operations.foldl Operation.nextNumber number

def Operation.next (arc : Arc) (operation : Operation) : Arc :=
  match operation.apply? arc with
  | some result => result
  | none => arc

def after (arc : Arc) (operations : List Operation) : Arc :=
  operations.foldl Operation.next arc

/--
Every operand finds room in the words that a pass computes with.  The carry out of a
multiplication fits one more limb, and a subtraction that is not below zero leaves no
borrow.
-/
structure PassesFit (arc : Arc) : Prop where
  mulAdd_checked : ∀ factor summand : UInt32,
    arc.limbs.mulAddChecked? factor summand.toUInt64 =
      some (arc.limbs.mulAddFrom factor summand.toUInt64)
  mulAdd_carry : ∀ factor summand : UInt32,
    (arc.limbs.mulAddFrom factor summand.toUInt64).2.toNat < 0x100000000
  subtract_checked : ∀ operand : UInt32,
    arc.limbs.subtractChecked? operand.toUInt64 =
      some (arc.limbs.subtractFrom operand.toUInt64)
  subtract_borrow : ∀ operand : UInt32, operand.toNat ≤ arc.toNat →
    (arc.limbs.subtractFrom operand.toUInt64).2 = 0

theorem passesFit (arc : Arc) : arc.PassesFit := by
  have hword (operand : UInt32) : operand.toUInt64.toNat < 0x100000000 := operand.toNat_lt
  constructor
  · intro factor summand
    exact Limbs.mulAddChecked?_eq factor arc.limbs (hword summand)
  · intro factor summand
    exact Limbs.mulAddFrom_carry_lt factor arc.limbs (hword summand)
  · intro operand
    exact Limbs.subtractChecked?_eq arc.limbs (hword operand)
  · intro operand hle
    exact UInt64.toNat_inj.1 (Limbs.subtractFrom_borrow_eq_zero (hword operand) hle)

theorem Normal.apply?_eq {arc : Arc} (h : arc.Normal) (operation : Operation) :
    operation.apply? arc = (operation.onNumber? arc.toNat).map ofNat := by
  cases operation with
  | mulAdd factor summand => exact congrArg some (mulAdd_eq arc factor summand)
  | add operand => exact congrArg some (addWord_eq arc operand)
  | subtract operand =>
    -- The guard compares limbs, which is right on normal arcs only.
    show arc.subWord? operand = Option.map ofNat
      (if arc.toNat < operand.toNat then none else some (arc.toNat - operand.toNat))
    rw [h.subWord?_eq]
    split
    · rfl
    · rfl

theorem Normal.next_eq {arc : Arc} (h : arc.Normal) (operation : Operation) :
    operation.next arc = ofNat (operation.nextNumber arc.toNat) := by
  rw [Operation.next, Operation.nextNumber, h.apply?_eq]
  cases operation.onNumber? arc.toNat with
  | none => exact h.ofNat_toNat.symm
  | some number => rfl

theorem calculate_cons (arc : Arc) (operation : Operation) (rest : List Operation) :
    arc.calculate (operation :: rest) =
      operation.apply? arc :: (operation.next arc).calculate rest := by
  rw [calculate, Operation.next]
  cases operation.apply? arc with
  | none => rfl
  | some result => rfl

theorem Normal.calculate_eq {start : Arc} (h : start.Normal) (operations : List Operation) :
    start.calculate operations =
      (calculateNumber start.toNat operations).map (Option.map ofNat) := by
  induction operations generalizing start with
  | nil => rfl
  | cons operation rest ih =>
    rw [calculate_cons, calculateNumber, h.next_eq, ih (normal_ofNat _), toNat_ofNat,
      h.apply?_eq, List.map_cons]

theorem Normal.after_eq {start : Arc} (h : start.Normal) (operations : List Operation) :
    start.after operations = ofNat (numberAfter start.toNat operations) := by
  induction operations generalizing start with
  | nil => exact h.ofNat_toNat.symm
  | cons operation rest ih =>
    rw [after, List.foldl_cons, ← after, h.next_eq, ih (normal_ofNat _), toNat_ofNat]
    rfl

theorem Normal.map_toNat_calculate {start : Arc} (h : start.Normal)
    (operations : List Operation) :
    (start.calculate operations).map (Option.map toNat) =
      calculateNumber start.toNat operations := by
  rw [h.calculate_eq, List.map_map]
  apply map_eq_self
  intro result _
  cases result with
  | none => rfl
  | some number => exact congrArg some (toNat_ofNat number)

theorem Normal.normal_of_mem_calculate {start arc : Arc} (h : start.Normal)
    {operations : List Operation} (hmem : some arc ∈ start.calculate operations) :
    arc.Normal := by
  rw [h.calculate_eq] at hmem
  obtain ⟨result, -, hresult⟩ := List.mem_map.1 hmem
  obtain ⟨number, -, rfl⟩ := Option.map_eq_some_iff.1 hresult
  exact normal_ofNat number

theorem calculate_concat (start : Arc) (operations : List Operation) (operation : Operation) :
    start.calculate (operations ++ [operation]) =
      start.calculate operations ++ [ operation.apply? (start.after operations)] := by
  induction operations generalizing start with
  | nil => rfl
  | cons first rest ih =>
    rw [List.cons_append, calculate_cons, ih, calculate_cons]
    rfl

theorem after_concat (start : Arc) (operations : List Operation) (operation : Operation) :
    start.after (operations ++ [operation]) = operation.next (start.after operations) := by
  rw [after, List.foldl_append]
  rfl

/--
A calculation on a normal arc is one on its number.  After any steps the results are
those of exact arithmetic in normal arcs, a subtraction has none exactly below zero and
then leaves the arc as it is, and the passes of a further step find room in their words.
-/
theorem calculate_refines_numbers {start : Arc} (hstart : start.Normal)
    (operations : List Operation) :
    (start.calculate operations).map (Option.map toNat) =
        calculateNumber start.toNat operations ∧
      (∀ arc, some arc ∈ start.calculate operations → arc.Normal) ∧
      (start.after operations).Normal ∧
      (start.after operations).toNat = numberAfter start.toNat operations ∧
      (∀ operation, start.calculate (operations ++ [operation]) =
        start.calculate operations ++ [ operation.apply? (start.after operations)]) ∧
      (∀ operand,
        ((start.after operations).subWord? operand = none ↔
          numberAfter start.toNat operations < operand.toNat) ∧
        (numberAfter start.toNat operations < operand.toNat →
          start.after (operations ++ [.subtract operand]) = start.after operations)) ∧
      (start.after operations).PassesFit := by
  have hafter : (start.after operations).Normal := by
    rw [hstart.after_eq]
    exact normal_ofNat _
  have hnumber : (start.after operations).toNat = numberAfter start.toNat operations := by
    rw [hstart.after_eq, toNat_ofNat]
  have hnone : ∀ operand, (start.after operations).subWord? operand = none ↔
      numberAfter start.toNat operations < operand.toNat := by
    intro operand
    rw [hafter.subWord?_eq, hnumber]
    simp
  refine ⟨hstart.map_toNat_calculate operations, fun arc => hstart.normal_of_mem_calculate,
    hafter, hnumber, calculate_concat start operations, ?_, passesFit _⟩
  intro operand
  refine ⟨hnone operand, ?_⟩
  intro hless
  have hresult : Operation.apply? (start.after operations) (.subtract operand) = none :=
    (hnone operand).2 hless
  rw [after_concat, Operation.next, hresult]

/-- A carry over three limbs, a borrow through them, and a subtraction below zero. -/
theorem calculate_refines_numbers_over_limbs :
    (ofUInt64 0xFFFFFFFFFFFFFFFF).Normal ∧
      ((ofUInt64 0xFFFFFFFFFFFFFFFF).calculate
          [.add 1, .subtract 1, .mulAdd 0xFFFFFFFF 0xFFFFFFFF, .mulAdd 0 3, .subtract 4,
            .subtract 3]).map (Option.map toNat) =
        [some 0x10000000000000000, some 0xFFFFFFFFFFFFFFFF, some 0xFFFFFFFF0000000000000000,
          some 3, none, some 0] :=
  ⟨normal_ofUInt64 _, (calculate_refines_numbers (normal_ofUInt64 _) _).1⟩

end Arc

end DerContents
