import DerContents.Proofs.Oid.Order
import DerContents.Proofs.Oid.Prefix

/-!
# Subtrees

What starts with a root lies in one interval of the order: the root comes first, and no
identifier in between starts otherwise.  So the subtrees of two roots, neither of which is
below the other, stand in the order of the roots, and an ascending list holds each subtree
in one piece.
-/

namespace DerContents

section Lexicographic

variable {α : Type} [Ord α] [Std.TransOrd α]

theorem compare_append_left (front left right : List α) :
    compare (front ++ left) (front ++ right) = compare left right := by
  have hself : compare front front = .eq := Std.ReflCmp.compare_self
  rw [compare_append rfl, hself, Ordering.eq_then]

theorem compare_append_of_ne_nil (front : List α) {more : List α} (h : more ≠ []) :
    compare front (front ++ more) = .lt := by
  have hcompare := compare_append_left front [] more
  rw [List.append_nil] at hcompare
  cases more with
  | nil => exact absurd rfl h
  | cons a rest => exact hcompare

theorem isLE_of_isPrefix {front row : List α} (h : front <+: row) :
    (compare front row).isLE = true := by
  rcases h with ⟨more, rfl⟩
  by_cases hmore : more = []
  · rw [hmore, List.append_nil]
    exact Std.ReflCmp.isLE_rfl
  · exact Ordering.isLE_of_eq_lt (compare_append_of_ne_nil front hmore)

theorem isPrefix_of_between [Std.LawfulEqOrd α] {front low row high : List α}
    (hlow : front <+: low) (hhigh : front <+: high) (hle : (compare low row).isLE = true)
    (hge : (compare row high).isLE = true) : front <+: row := by
  induction front generalizing low row high with
  | nil => exact List.nil_prefix
  | cons a front ih =>
    rcases hlow with ⟨moreLow, rfl⟩
    rcases hhigh with ⟨moreHigh, rfl⟩
    cases row with
    | nil => cases hle
    | cons b row =>
      rw [List.cons_append, List.compare_cons_cons] at hle hge
      -- The first elements decide unless they are the same, and they cannot decide both ways.
      have hsame : a = b := Std.LawfulEqCmp.eq_of_compare
        (Std.OrientedCmp.isLE_antisymm (Ordering.isLE_left_of_isLE_then hle)
          (Ordering.isLE_left_of_isLE_then hge))
      have hself : compare b b = .eq := Std.ReflCmp.compare_self
      rw [hsame, hself, Ordering.eq_then] at hle hge
      rw [hsame, List.cons_prefix_cons]
      exact ⟨rfl,
        ih (List.prefix_append front moreLow) (List.prefix_append front moreHigh) hle hge⟩

end Lexicographic

/-- A list splits where a property ends that passes from each element to those before it. -/
theorem exists_append_of_pairwise {α : Type} {low : α → Prop} {items : List α}
    (h : items.Pairwise fun a b => low b → low a) :
    ∃ front back,
      items = front ++ back ∧ (∀ a ∈ front, low a) ∧ ∀ a ∈ back, ¬ low a := by
  induction items with
  | nil => exact ⟨[], [], rfl, List.forall_mem_nil _, List.forall_mem_nil _⟩
  | cons a rest ih =>
    rw [List.pairwise_cons] at h
    by_cases ha : low a
    · rcases ih h.2 with ⟨front, back, rfl, hfront, hback⟩
      exact ⟨a :: front, back, rfl, List.forall_mem_cons.2 ⟨ha, hfront⟩, hback⟩
    · have hrest : ∀ b ∈ rest, ¬ low b := fun b hmem hb => ha (h.1 b hmem hb)
      exact ⟨[], a :: rest, rfl, List.forall_mem_nil _, List.forall_mem_cons.2 ⟨ha, hrest⟩⟩

namespace Oid

theorem startsWith_refl (oid : Oid) : oid.startsWith oid = true :=
  (startsWith_iff oid oid).2 (List.prefix_refl _)

section Roots

variable {oid root : Oid}

theorem startsWith_trans {top : Oid} (h : oid.startsWith root = true)
    (htop : root.startsWith top = true) : oid.startsWith top = true := by
  rw [startsWith_iff] at h htop ⊢
  exact htop.trans h

theorem eq_of_startsWith (h : oid.startsWith root = true) (hroot : root.startsWith oid = true) :
    oid = root := by
  rw [startsWith_iff] at h hroot
  have harcs : oid.arcs = root.arcs := hroot.eq_of_length_le h.length_le
  cases oid
  cases root
  exact congrArg mk harcs

theorem startsWith_or_startsWith {other : Oid} (h : oid.startsWith root = true)
    (hother : oid.startsWith other = true) :
    root.startsWith other = true ∨ other.startsWith root = true := by
  rw [startsWith_iff] at h hother
  rw [startsWith_iff, startsWith_iff]
  exact List.prefix_or_prefix_of_prefix hother h

theorem isLE_of_startsWith (h : oid.startsWith root = true) :
    (compare root oid).isLE = true :=
  isLE_of_isPrefix ((startsWith_iff oid root).1 h)

end Roots

theorem startsWith_of_between {root low oid high : Oid} (hlow : low.startsWith root = true)
    (hhigh : high.startsWith root = true) (hle : (compare low oid).isLE = true)
    (hge : (compare oid high).isLE = true) : oid.startsWith root = true := by
  rw [startsWith_iff] at hlow hhigh ⊢
  exact isPrefix_of_between hlow hhigh hle hge

/-- Everything below one root comes before everything below a later root outside its subtree. -/
theorem compare_lt_of_startsWith {root other oid next : Oid} (hlt : compare root other = .lt)
    (hother : ¬ other.startsWith root = true) (h : oid.startsWith root = true)
    (hnext : next.startsWith other = true) : compare oid next = .lt := by
  apply Std.OrientedCmp.lt_of_not_isLE
  intro hge
  -- Otherwise the later root would lie between the earlier one and what is below that.
  have hle : (compare other oid).isLE = true :=
    Std.TransCmp.isLE_trans (isLE_of_startsWith hnext) hge
  exact hother (startsWith_of_between (startsWith_refl root) h (Ordering.isLE_of_eq_lt hlt) hle)

theorem exists_subtree_of_ascending {items : List Oid}
    (h : items.Pairwise fun a b => (compare a b).isLE = true) (root : Oid) :
    ∃ before copies below after, items = before ++ (copies ++ below) ++ after ∧
      (∀ oid ∈ before, ¬ oid.startsWith root = true) ∧
      (∀ oid ∈ copies, oid = root) ∧
      (∀ oid ∈ below, oid.startsWith root = true ∧ compare root oid = .lt) ∧
      ∀ oid ∈ after, ¬ oid.startsWith root = true := by
  -- Three lower bounds cut the list: below the root, the root, and the rest of its subtree.
  have hsubtree : items.Pairwise fun a b =>
      ((compare b root).isLE = true ∨ b.startsWith root = true) →
        (compare a root).isLE = true ∨ a.startsWith root = true := by
    apply h.imp
    intro a b hle hb
    rcases hb with hb | hb
    · exact Or.inl (Std.TransCmp.isLE_trans hle hb)
    · by_cases ha : (compare a root).isLE = true
      · exact Or.inl ha
      · have hroot := Ordering.isLE_of_eq_lt (Std.OrientedCmp.lt_of_not_isLE ha)
        exact Or.inr (startsWith_of_between (startsWith_refl root) hb hroot hle)
  rcases exists_append_of_pairwise hsubtree with ⟨inside, after, rfl, hinside, hafter⟩
  rw [List.pairwise_append] at h
  have hupto : inside.Pairwise fun a b =>
      (compare b root).isLE = true → (compare a root).isLE = true :=
    h.1.imp Std.TransCmp.isLE_trans
  rcases exists_append_of_pairwise hupto with ⟨upto, below, rfl, hle, hbelow⟩
  have hstrict : upto.Pairwise fun a b => compare b root = .lt → compare a root = .lt :=
    (List.pairwise_append.1 h.1).1.imp Std.TransCmp.lt_of_isLE_of_lt
  rcases exists_append_of_pairwise hstrict with ⟨before, copies, rfl, hbefore, hcopies⟩
  refine ⟨before, copies, below, after, ?_, ?_, ?_, ?_, ?_⟩
  · rw [List.append_assoc before]
  · intro oid hmem hstarts
    exact Std.OrientedCmp.not_isLE_of_lt (hbefore oid hmem) (isLE_of_startsWith hstarts)
  · intro oid hmem
    rcases Ordering.isLE_iff_eq_lt_or_eq_eq.1 (hle oid (List.mem_append_right before hmem)) with
      hlt | heq
    · exact absurd hlt (hcopies oid hmem)
    · exact Std.LawfulEqCmp.eq_of_compare heq
  · intro oid hmem
    have hnot := hbelow oid hmem
    exact ⟨(hinside oid (List.mem_append_right _ hmem)).resolve_left hnot,
      Std.OrientedCmp.lt_of_not_isLE hnot⟩
  · intro oid hmem hstarts
    exact hafter oid hmem (Or.inr hstarts)

/--
A subtree is an interval of the order.  Its root comes first in it, nothing in between is
left out, and two roots of which the later is not below the earlier order all that is below
them.  Starting with a root is a partial order, a chain above each identifier.  So an
ascending list holds each subtree in one piece that its root leads.
-/
theorem subtrees_are_intervals :
    (∀ oid root : Oid, oid.startsWith root = true → (compare root oid).isLE = true) ∧
    (∀ root low oid high : Oid, low.startsWith root = true → high.startsWith root = true →
      (compare low oid).isLE = true → (compare oid high).isLE = true →
      oid.startsWith root = true) ∧
    (∀ root other : Oid, ¬ other.startsWith root = true → compare root other = .lt →
      ∀ oid next : Oid, oid.startsWith root = true → next.startsWith other = true →
        compare oid next = .lt) ∧
    (∀ oid : Oid, oid.startsWith oid = true) ∧
    (∀ oid root top : Oid, oid.startsWith root = true → root.startsWith top = true →
      oid.startsWith top = true) ∧
    (∀ oid root : Oid,
      oid.startsWith root = true → root.startsWith oid = true → oid = root) ∧
    (∀ oid root other : Oid, oid.startsWith root = true → oid.startsWith other = true →
      root.startsWith other = true ∨ other.startsWith root = true) ∧
    ∀ items : List Oid, (items.Pairwise fun a b => (compare a b).isLE = true) →
      ∀ root, ∃ before copies below after, items = before ++ (copies ++ below) ++ after ∧
        (∀ oid ∈ before, ¬ oid.startsWith root = true) ∧
        (∀ oid ∈ copies, oid = root) ∧
        (∀ oid ∈ below, oid.startsWith root = true ∧ compare root oid = .lt) ∧
        ∀ oid ∈ after, ¬ oid.startsWith root = true := by
  refine ⟨?_, ?_, ?_, startsWith_refl, ?_, ?_, ?_, ?_⟩
  · intro oid root
    exact isLE_of_startsWith
  · intro root low oid high
    exact startsWith_of_between
  · intro root other hother hlt oid next
    exact compare_lt_of_startsWith hlt hother
  · intro oid root top
    exact startsWith_trans
  · intro oid root
    exact eq_of_startsWith
  · intro oid root other
    exact startsWith_or_startsWith
  · intro items
    exact exists_subtree_of_ascending

end Oid

end DerContents
