import DerContents.Proofs.Oid.Subtree

/-!
# Children and parents

The rules concern the first two arcs and the limits the length of the contents, so arcs
added behind those of an identifier can only make it too long, and contents and text go on
where its own end.  Without its last arc an identifier is one still, or has a single arc.
-/

namespace DerContents

namespace Oid

theorem exists_cons_of_check {arcs : List Arc} (h : check arcs = .ok ()) :
    ∃ first second rest, arcs = first :: second :: rest := by
  match arcs with
  | [] => cases h
  | [_] => cases h
  | first :: second :: rest => exact ⟨first, second, rest, rfl⟩

theorem check_of_ofArcs {limits : Limits} {arcs : List Arc} {oid : Oid}
    (h : ofArcs limits arcs = .ok oid) : check arcs = .ok () := by
  unfold ofArcs at h
  cases hcheck : check arcs with
  | error reason =>
    rw [hcheck] at h
    cases h
  | ok passed => rfl

theorem ofArcs_of_check {arcs : List Arc} (h : check arcs = .ok ()) (limits : Limits) :
    ofArcs limits arcs =
      if encodedLength ⟨arcs⟩ ≤ limits.maxOctets then .ok ⟨arcs⟩
      else .error .tooLong := by
  unfold ofArcs
  rw [h]
  by_cases hlength : encodedLength ⟨arcs⟩ ≤ limits.maxOctets
  · rw [if_pos hlength]
    exact if_neg (Nat.not_lt.2 hlength)
  · rw [if_neg hlength]
    exact if_pos (Nat.lt_of_not_le hlength)

theorem arcs_of_ofArcs {limits : Limits} {arcs : List Arc} {oid : Oid}
    (h : ofArcs limits arcs = .ok oid) : oid.arcs = arcs := by
  rw [ofArcs_of_check (check_of_ofArcs h)] at h
  split at h
  · rw [← Except.ok.inj h]
  · cases h

theorem Valid.check_arcs {oid : Oid} (h : oid.Valid) : check oid.arcs = .ok () := by
  obtain ⟨first, second, rest, rfl⟩ := h.exists_cons
  obtain ⟨hnormal, hfirst, hsecond⟩ := valid_cons_iff.1 h
  have hmem : second ∈ first :: second :: rest := List.mem_cons_of_mem _ List.mem_cons_self
  rw [check_cons (hnormal first List.mem_cons_self) (hnormal second hmem), if_neg (by omega),
    if_neg (by omega)]

section Appending

variable {front : List Arc} (h : check front = .ok ()) (more : List Arc)

include h

theorem contents_append :
    contents ⟨front ++ more⟩ = contents ⟨front⟩ ++ more.flatMap Arc.base128 := by
  obtain ⟨first, second, rest, rfl⟩ := exists_cons_of_check h
  rw [contents, contents, ← List.flatMap_append]
  rfl

theorem encodedLength_append :
    encodedLength ⟨front ++ more⟩ =
      encodedLength ⟨front⟩ + (more.map Arc.base128Length).sum := by
  rw [← length_contents, ← length_contents, contents_append h, List.length_append,
    List.length_flatMap]
  simp only [Arc.length_base128]

end Appending

end Oid

end DerContents
