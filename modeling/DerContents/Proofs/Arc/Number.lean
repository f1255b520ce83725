import DerContents.Arc.Arithmetic
import DerContents.Proofs.Limbs.Number

/-!
# Arcs and numbers

`Arc.ofNat` names the normal arc of a number.  The order of normal arcs, their words
and their arithmetic are those of the numbers, so each operation is stated as the
arc of the number that it computes.
-/

namespace DerContents

theorem map_eq_self {α : Type} {f : α → α} {row : List α} (h : ∀ a ∈ row, f a = a) :
    row.map f = row := by
  calc
    row.map f = row.map id := List.map_congr_left h
    _ = row := List.map_id row

namespace Arc

/-- The normal arc of a number. -/
def ofNat (number : Nat) : Arc :=
  ⟨Limbs.ofNat number⟩

@[simp] theorem toNat_ofNat (number : Nat) : (ofNat number).toNat = number :=
  Limbs.toNat_ofNat number

theorem normal_ofNat (number : Nat) : (ofNat number).Normal :=
  Limbs.trimmed_ofNat number

theorem Normal.eq_of_toNat_eq {a b : Arc} (ha : a.Normal) (hb : b.Normal)
    (h : a.toNat = b.toNat) : a = b := by
  cases a
  cases b
  exact congrArg mk (Limbs.Trimmed.eq_of_toNat_eq ha hb h)

theorem Normal.eq_ofNat {arc : Arc} {number : Nat} (h : arc.Normal)
    (hnumber : arc.toNat = number) : arc = ofNat number :=
  h.eq_of_toNat_eq (normal_ofNat number) (by rw [hnumber, toNat_ofNat])

theorem Normal.ofNat_toNat {arc : Arc} (h : arc.Normal) : ofNat arc.toNat = arc :=
  (h.eq_ofNat rfl).symm

theorem ofNat_injective {a b : Nat} (h : ofNat a = ofNat b) : a = b := by
  rw [← toNat_ofNat a, h, toNat_ofNat]

theorem map_ofNat_map_toNat {arcs : List Arc} (h : ∀ arc ∈ arcs, arc.Normal) :
    (arcs.map toNat).map ofNat = arcs := by
  rw [List.map_map]
  apply map_eq_self
  intro arc hmem
  exact (h arc hmem).ofNat_toNat

theorem zero_eq : zero = ofNat 0 :=
  normal_zero.eq_ofNat rfl

theorem Normal.compare_eq {a b : Arc} (ha : a.Normal) (hb : b.Normal) :
    compare a b = compare a.toNat b.toNat :=
  Limbs.Trimmed.compare_eq ha hb

theorem ofUInt32_eq (value : UInt32) : ofUInt32 value = ofNat value.toNat :=
  (normal_ofUInt32 value).eq_ofNat (toNat_ofUInt32 value)

theorem ofUInt8_eq (value : UInt8) : ofUInt8 value = ofNat value.toNat :=
  (normal_ofUInt64 _).eq_ofNat (toNat_ofUInt8 value)

/-- More limbs than one denote a number that no limb holds. -/
theorem Normal.le_toNat_of_two {low high : UInt32} {rest : Limbs}
    (h : (mk (low :: high :: rest)).Normal) :
    0x100000000 ≤ (mk (low :: high :: rest)).toNat := by
  have hhigh : Limbs.weight 0 ≤ Limbs.weight rest.length :=
    Limbs.weight_le_weight (Nat.zero_le _)
  have hweight : Limbs.weight (rest.length + 1) ≤ Limbs.toNat (low :: high :: rest) :=
    Limbs.Trimmed.weight_le h rfl
  rw [Limbs.weight_succ] at hweight
  rw [Limbs.weight_zero] at hhigh
  exact Nat.le_trans (by omega) hweight

theorem Normal.toUInt32?_eq {arc : Arc} (h : arc.Normal) :
    arc.toUInt32? =
      if arc.toNat < 0x100000000 then some (UInt32.ofNat arc.toNat) else none := by
  obtain ⟨limbs⟩ := arc
  match limbs with
  | [] => rfl
  | [limb] =>
    have hvalue : (mk [limb]).toNat = limb.toNat := by simp [toNat]
    rw [hvalue, if_pos limb.toNat_lt, UInt32.ofNat_toNat]
    rfl
  | low :: high :: rest =>
    have hle := h.le_toNat_of_two
    rw [if_neg (by omega)]
    rfl

theorem toNat_word_of_two (low high : UInt32) :
    (high.toUInt64 <<< 32 ||| low.toUInt64).toNat = (mk [low, high]).toNat := by
  have hhigh : high.toUInt64.toNat < 0x100000000 := high.toNat_lt
  rw [Limbs.toNat_shiftLeft_or low hhigh, UInt32.toNat_toUInt64]
  simp [toNat, Nat.add_comm]

theorem Normal.toUInt64?_eq {arc : Arc} (h : arc.Normal) :
    arc.toUInt64? =
      if arc.toNat < 0x10000000000000000 then some (UInt64.ofNat arc.toNat) else none := by
  obtain ⟨limbs⟩ := arc
  match limbs with
  | [] => rfl
  | [low] =>
    have hlow := low.toNat_lt
    have hvalue : (mk [low]).toNat = low.toUInt64.toNat := by simp [toNat]
    rw [hvalue, if_pos low.toUInt64.toNat_lt, UInt64.ofNat_toNat]
    rfl
  | [low, high] =>
    have hvalue := toNat_word_of_two low high
    rw [← hvalue, if_pos (UInt64.toNat_lt _), UInt64.ofNat_toNat]
    rfl
  | low :: next :: high :: rest =>
    have hrest : (mk (next :: high :: rest)).Normal := Limbs.Trimmed.tail h
    have hle := hrest.le_toNat_of_two
    have hvalue : (mk (low :: next :: high :: rest)).toNat =
        low.toNat + 0x100000000 * (mk (next :: high :: rest)).toNat := rfl
    rw [if_neg (by omega)]
    rfl

theorem mulAdd_eq (arc : Arc) (mul add : UInt32) :
    arc.mulAdd mul add = ofNat (arc.toNat * mul.toNat + add.toNat) :=
  (normal_mulAdd arc mul add).eq_ofNat (toNat_mulAdd arc mul add)

theorem addWord_eq (arc : Arc) (add : UInt32) :
    arc.addWord add = ofNat (arc.toNat + add.toNat) :=
  (normal_addWord arc add).eq_ofNat (toNat_addWord arc add)

theorem Normal.subWord?_eq {arc : Arc} (h : arc.Normal) (sub : UInt32) :
    arc.subWord? sub =
      if arc.toNat < sub.toNat then none else some (ofNat (arc.toNat - sub.toNat)) := by
  have hword : sub.toUInt64.toNat = sub.toNat := UInt32.toNat_toUInt64 sub
  have hlt := sub.toNat_lt
  unfold subWord?
  rw [h.compare_eq (normal_ofUInt32 sub), toNat_ofUInt32]
  by_cases hless : arc.toNat < sub.toNat
  · rw [if_pos (Nat.compare_eq_lt.2 hless), if_pos hless]
  · rw [if_neg (fun hcompare => hless (Nat.compare_eq_lt.1 hcompare)), if_neg hless]
    refine congrArg some ((normal_ofLimbs _).eq_ofNat ?_)
    have hle : sub.toUInt64.toNat ≤ arc.limbs.toNat := by
      rw [hword]
      exact Nat.not_lt.1 hless
    rw [toNat_ofLimbs, Limbs.toNat_subtractFrom_of_le (by omega) hle, hword]
    rfl

theorem divRem_values (arc : Arc) {divisor : UInt32} (hpos : 0 < divisor.toNat) :
    (arc.divRem divisor).1.toNat = arc.toNat / divisor.toNat ∧
      (arc.divRem divisor).2.toNat = arc.toNat % divisor.toNat := by
  have hvalue := arc.toNat_divRem hpos
  have hrem := arc.divRem_remainder_lt hpos
  have hsum : (arc.divRem divisor).2.toNat + divisor.toNat * (arc.divRem divisor).1.toNat =
      arc.toNat := by
    rw [Nat.add_comm, Nat.mul_comm]
    exact hvalue
  have hunique := (Nat.div_mod_unique hpos).2 ⟨hsum, hrem⟩
  exact ⟨hunique.1.symm, hunique.2.symm⟩

end Arc

end DerContents
