import DerContents.Proofs.Oid.Contents
import DerContents.Proofs.Oid.Text
import DerContents.Proofs.Order

/-!
# The order of identifiers

Shortest forms compare as their numbers do, first by length and then octet by octet, and
the number that the first two arcs share compares as the two arcs.  So valid identifiers
compare as the pieces of their contents.  The order is total, and what it does not tell
apart is the same identifier, with the same contents and the same text.
-/

namespace DerContents

namespace Base128

/-- Shorter octets come first; of one length, the first octets that differ decide. -/
def shortlex (a b : Octets) : Ordering :=
  (compare a.length b.length).then (compare a b)

theorem length_continued_of_ne_zero {number : Nat} (h : number ≠ 0) :
    (continued number).length = (continued (number / 128)).length + 1 := by
  rw [continued_of_ne_zero h, List.length_append, List.length_singleton]

theorem compare_split (a b : Nat) :
    compare a b = (compare (a / 128) (b / 128)).then (compare (a % 128) (b % 128)) := by
  rw [← compare_add_mul _ _ (Nat.mod_lt a (by omega)) (Nat.mod_lt b (by omega)),
    Nat.mod_add_div, Nat.mod_add_div]

theorem compare_concat {highA highB : Octets} (h : highA.length = highB.length) {a b : Nat}
    (ha : a < 256) (hb : b < 256) :
    compare (highA ++ [UInt8.ofNat a]) (highB ++ [UInt8.ofNat b]) =
      (compare highA highB).then (compare a b) := by
  rw [compare_append h, List.compare_cons_cons, UInt8.compare_eq_toNat_compare_toNat,
    UInt8.toNat_ofNat', UInt8.toNat_ofNat', Nat.mod_eq_of_lt ha, Nat.mod_eq_of_lt hb,
    List.compare_nil_nil, Ordering.then_eq]

theorem compare_continued {a b : Nat} (h : (continued a).length = (continued b).length) :
    compare (continued a) (continued b) = compare a b := by
  induction a using Nat.strongRecOn generalizing b with
  | ind a ih =>
    by_cases ha : a = 0
    · by_cases hb : b = 0
      · rw [ha, hb]
        simp
      · rw [ha, continued_zero, length_continued_of_ne_zero hb] at h
        simp at h
    · by_cases hb : b = 0
      · rw [hb, continued_zero, length_continued_of_ne_zero ha] at h
        simp at h
      · rw [length_continued_of_ne_zero ha, length_continued_of_ne_zero hb] at h
        have hhigh := Nat.succ.inj h
        rw [continued_of_ne_zero ha, continued_of_ne_zero hb,
          compare_concat hhigh (by omega) (by omega), ih (a / 128) (by omega) hhigh,
          compare_split a b, compare_add_right]

theorem compare_shortest {a b : Nat} (h : (shortest a).length = (shortest b).length) :
    compare (shortest a) (shortest b) = compare a b := by
  have hhigh : (continued (a / 128)).length = (continued (b / 128)).length := by
    simpa [shortest] using h
  rw [shortest, shortest, compare_concat hhigh (by omega) (by omega), compare_continued hhigh,
    compare_split a b]

theorem shortlex_shortest (a b : Nat) : shortlex (shortest a) (shortest b) = compare a b := by
  unfold shortlex
  rcases Nat.lt_trichotomy (shortest a).length (shortest b).length with hlt | heq | hgt
  · rw [Nat.compare_eq_lt.2 hlt, Nat.compare_eq_lt.2 (lt_of_length_shortest_lt hlt)]
    rfl
  · rw [Nat.compare_eq_eq.2 heq, Ordering.eq_then, compare_shortest heq]
  · rw [Nat.compare_eq_gt.2 hgt, Nat.compare_eq_gt.2 (lt_of_length_shortest_lt hgt)]
    rfl

/-- Octets compared by their pieces: the first pieces that differ decide, in `shortlex`. -/
def compareContents (a b : Octets) : Ordering :=
  List.compareLex shortlex (cut a) (cut b)

theorem compareContents_flatMap_shortest (numbers others : List Nat) :
    compareContents (numbers.flatMap shortest) (others.flatMap shortest) =
      compare numbers others := by
  rw [compareContents, cut_flatMap_shortest, cut_flatMap_shortest,
    compareLex_map shortlex_shortest]

end Base128

namespace Arc

theorem compare_ofNat (a b : Nat) : compare (ofNat a) (ofNat b) = compare a b := by
  rw [(normal_ofNat a).compare_eq (normal_ofNat b), toNat_ofNat, toNat_ofNat]

instance : Std.TransOrd Arc :=
  inferInstanceAs (Std.TransCmp
    (compareLex (compareOn fun arc : Arc => arc.limbs.length)
      (compareOn fun arc : Arc => arc.limbs.reverse)))

instance : Std.LawfulEqOrd Arc where
  eq_of_compare {a b} h := by
    obtain ⟨-, hlimbs⟩ := Ordering.then_eq_eq.1 h
    have hreverse := Std.LawfulEqCmp.eq_of_compare hlimbs
    cases a
    cases b
    exact congrArg mk (List.reverse_injective hreverse)

end Arc

namespace Oid

open Base128

instance : Std.TransOrd Oid :=
  inferInstanceAs (Std.TransCmp (compareOn Oid.arcs))

instance : Std.LawfulEqOrd Oid where
  eq_of_compare {a b} h := by
    have harcs : a.arcs = b.arcs := Std.LawfulEqCmp.eq_of_compare h
    cases a
    cases b
    exact congrArg mk harcs

/-- Sharing a number keeps the order of the first two arcs. -/
theorem compare_firstTwo (a b : Nat) : compare (firstTwo a) (firstTwo b) = compare a b := by
  obtain ⟨firstA, secondA, hpairA, rfl, hfirstA, hsecondA⟩ := exists_firstTwo a
  obtain ⟨firstB, secondB, hpairB, rfl, hfirstB, hsecondB⟩ := exists_firstTwo b
  rw [hpairA, hpairB, List.compare_cons_cons, List.compare_cons_cons, List.compare_nil_nil,
    Ordering.then_eq]
  rcases Nat.lt_trichotomy firstA firstB with hlt | heq | hgt
  · have hpacked : 40 * firstA + secondA < 40 * firstB + secondB := by omega
    rw [Nat.compare_eq_lt.2 hlt, Nat.compare_eq_lt.2 hpacked]
    rfl
  · rw [heq, Nat.compare_eq_eq.2 rfl, Ordering.eq_then, Nat.add_comm (40 * firstB),
      Nat.add_comm (40 * firstB), compare_add_right]
  · have hpacked : 40 * firstB + secondB < 40 * firstA + secondA := by omega
    rw [Nat.compare_eq_gt.2 hgt, Nat.compare_eq_gt.2 hpacked]
    rfl

theorem length_firstTwo (number : Nat) : (firstTwo number).length = 2 := by
  obtain ⟨first, second, hpair, -⟩ := exists_firstTwo number
  rw [hpair]
  rfl

theorem compare_ofPacked (number other : Nat) (rest more : List Nat) :
    compare (ofPacked (number :: rest)) (ofPacked (other :: more)) =
      compare (number :: rest) (other :: more) := by
  have hlength : (firstTwo number).length = (firstTwo other).length := by
    rw [length_firstTwo, length_firstTwo]
  calc
    compare (ofPacked (number :: rest)) (ofPacked (other :: more)) =
        compare (firstTwo number ++ rest) (firstTwo other ++ more) :=
      compareLex_map Arc.compare_ofNat _ _
    _ = compare (number :: rest) (other :: more) := by
      rw [compare_append hlength, compare_firstTwo, List.compare_cons_cons]

theorem Valid.compare_eq_compareContents {a b : Oid} (ha : a.Valid) (hb : b.Valid) :
    compare a b = compareContents a.contents b.contents := by
  rw [ha.contents_eq, hb.contents_eq, compareContents_flatMap_shortest]
  -- Both sides now compare packed numbers: the identifiers are made of theirs.
  have hofA := ha.ofPacked_packed
  have hofB := hb.ofPacked_packed
  cases hpackedA : a.packed with
  | nil => exact absurd hpackedA ha.packed_ne_nil
  | cons number rest =>
    cases hpackedB : b.packed with
    | nil => exact absurd hpackedB hb.packed_ne_nil
    | cons other more =>
      rw [← hofA, ← hofB, hpackedA, hpackedB, compare_ofPacked]

theorem Valid.eq_of_contents_eq {a b : Oid} (ha : a.Valid) (hb : b.Valid)
    (h : a.contents = b.contents) : a = b := by
  have hread : ofContents ⟨a.contents.length, 0⟩ a.contents = .ok a :=
    ofContents_eq_ok_iff.2 ⟨ha, rfl, Nat.le_refl _⟩
  have hother : ofContents ⟨a.contents.length, 0⟩ a.contents = .ok b :=
    ofContents_eq_ok_iff.2 ⟨hb, h.symm, Nat.le_refl _⟩
  exact Except.ok.inj (hread.symm.trans hother)

theorem Valid.eq_of_text_eq {a b : Oid} (ha : a.Valid) (hb : b.Valid) (h : a.text = b.text) :
    a = b := by
  have harcs : a.arcs = b.arcs := by
    rw [← ha.segmentArcs_text, h, hb.segmentArcs_text]
  cases a
  cases b
  exact congrArg mk harcs

/--
The order of identifiers is that of their contents, cut into subidentifiers, the shorter
of them first.  It is total, tells apart exactly the identifiers that differ, and with
them their contents and texts; so an ascending list is determined by its elements.
-/
theorem compare_is_order_of_contents :
    (∀ a b : Oid, a.Valid → b.Valid → compare a b = compareContents a.contents b.contents) ∧
    (∀ a b : Oid, compare a b = (compare b a).swap) ∧
    (∀ a b : Oid, (compare a b).isLE = true → (compare b a).isLE = true → a = b) ∧
    (∀ a b c : Oid, (compare a b).isLE = true → (compare b c).isLE = true →
      (compare a c).isLE = true) ∧
    (∀ a b : Oid, (compare a b).isLE = true ∨ (compare b a).isLE = true) ∧
    (∀ a b : Oid, a.Valid → b.Valid →
      (compare a b = .eq ↔ a = b) ∧ (compare a b = .eq ↔ a.contents = b.contents) ∧
        (compare a b = .eq ↔ a.text = b.text)) ∧
    ∀ items : List Oid,
      (ascending items).Perm items ∧
      ((ascending items).Pairwise fun a b => (compare a b).isLE = true) ∧
      ∀ other, items.Perm other → ascending items = ascending other := by
  have hequal : ∀ a b : Oid, compare a b = .eq ↔ a = b := fun _ _ =>
    Std.LawfulEqCmp.compare_eq_iff_eq
  refine ⟨fun a b => Valid.compare_eq_compareContents, fun a b => Std.OrientedCmp.eq_swap,
    ?_, fun a b c => Std.TransCmp.isLE_trans, isLE_total, ?_, ?_⟩
  · intro a b hle hge
    exact (hequal a b).1 (Std.OrientedCmp.isLE_antisymm hle hge)
  · intro a b ha hb
    refine ⟨hequal a b, ?_, ?_⟩
    · rw [hequal]
      exact ⟨congrArg contents, ha.eq_of_contents_eq hb⟩
    · rw [hequal]
      exact ⟨congrArg text, ha.eq_of_text_eq hb⟩
  · intro items
    exact ⟨perm_ascending items, pairwise_ascending items, fun _ => ascending_eq_of_perm⟩

end Oid

end DerContents
