import DerContents.Proofs.Oid.Contents
import DerContents.Proofs.Oid.Size

/-!
# Identifiers below others

An identifier starts with another exactly when its numbers, its contents and its text do.
Contents show where a number ends, so octets agree in front only where whole numbers do.
A text has to go on with a dot, since digits would go on with another number.
-/

namespace DerContents

namespace Oid

open Base128

theorem startsWith_iff (oid root : Oid) : oid.startsWith root = true ↔ root.arcs <+: oid.arcs :=
  List.isPrefixOf_iff_prefix

theorem packed_isPrefix {oid root : Oid} (h : root.arcs <+: oid.arcs) :
    root.packed <+: oid.packed := by
  cases oid
  rcases root with ⟨arcs⟩
  rcases h with ⟨more, rfl⟩
  match arcs with
  | [] => exact List.nil_prefix
  | [_] => exact List.nil_prefix
  | first :: second :: rest =>
    refine ⟨more.map Arc.toNat, ?_⟩
    simp [packed]

theorem arcs_ofPacked_isPrefix {numbers others : List Nat} (h : numbers <+: others) :
    (ofPacked numbers).arcs <+: (ofPacked others).arcs := by
  cases numbers with
  | nil => exact List.nil_prefix
  | cons number rest =>
    rcases h with ⟨more, rfl⟩
    refine ⟨more.map Arc.ofNat, ?_⟩
    simp [ofPacked]

theorem Valid.packed_isPrefix_iff {oid root : Oid} (hoid : oid.Valid) (hroot : root.Valid) :
    root.packed <+: oid.packed ↔ root.arcs <+: oid.arcs := by
  constructor
  · intro h
    have harcs := arcs_ofPacked_isPrefix h
    rwa [hroot.ofPacked_packed, hoid.ofPacked_packed] at harcs
  · exact packed_isPrefix

theorem Valid.startsWith_iff_contents {oid root : Oid} (hoid : oid.Valid) (hroot : root.Valid) :
    oid.startsWith root = true ↔ root.contents <+: oid.contents := by
  rw [startsWith_iff, hoid.contents_eq, hroot.contents_eq, flatMap_shortest_isPrefix_iff,
    hoid.packed_isPrefix_iff hroot]

theorem segments_append (front back : String) :
    segments (front ++ "." ++ back) = segments front ++ segments back := by
  unfold segments
  rw [String.toList_append, String.toList_append, List.append_assoc]
  exact List.splitOn_append_cons_self front.toList back.toList

theorem dotted_append {front back : List Arc} (hfront : front ≠ []) (hback : back ≠ []) :
    dotted ⟨front ++ back⟩ = dotted ⟨front⟩ ++ '.' :: dotted ⟨back⟩ := by
  cases front with
  | nil => exact absurd rfl hfront
  | cons first rest =>
    cases back with
    | nil => exact absurd rfl hback
    | cons next more => simp [dotted_cons]

theorem text_append {front back : List Arc} (hfront : front ≠ []) (hback : back ≠ []) :
    text ⟨front ++ back⟩ = text ⟨front⟩ ++ "." ++ text ⟨back⟩ := by
  unfold text
  rw [dotted_append hfront hback, String.append_assoc, String.ofList_append, String.ofList_cons]
  rfl

/-- Segments in front are the arcs in front: a numeral ends where its segment does. -/
theorem Valid.arcs_isPrefix_of_segments {oid root : Oid} (hoid : oid.Valid) (hroot : root.Valid)
    (h : segments root.text <+: segments oid.text) : root.arcs <+: oid.arcs := by
  have harcs := h.map fun segment => Arc.ofNat (segmentNumber segment)
  rw [← hroot.segmentArcs_text, ← hoid.segmentArcs_text]
  exact harcs

theorem Valid.startsWith_iff_text {oid root : Oid} (hoid : oid.Valid) (hroot : root.Valid) :
    oid.startsWith root = true ↔
      oid.text = root.text ∨ ∃ rest, oid.text = root.text ++ "." ++ rest := by
  rw [startsWith_iff]
  constructor
  · intro h
    rcases h with ⟨more, hmore⟩
    have hoid' : oid = ⟨root.arcs ++ more⟩ := congrArg mk hmore.symm
    by_cases hnil : more = []
    · left
      rw [hoid', hnil, List.append_nil]
    · right
      exact ⟨text ⟨more⟩, by rw [hoid', text_append hroot.arcs_ne_nil hnil]⟩
  · intro h
    apply hoid.arcs_isPrefix_of_segments hroot
    rcases h with heq | ⟨rest, hrest⟩
    · rw [heq]
    · rw [hrest, segments_append]
      exact List.prefix_append _ _

/--
An identifier starts with another exactly when its contents begin with the contents of
the other, and exactly when its text is that of the other or goes on behind it with a dot.
-/
theorem startsWith_agrees_with_contents_and_text {oid root : Oid} (hoid : oid.Valid)
    (hroot : root.Valid) :
    (oid.startsWith root = true ↔ root.contents <+: oid.contents) ∧
    (oid.startsWith root = true ↔
      oid.text = root.text ∨ ∃ rest, oid.text = root.text ++ "." ++ rest) :=
  ⟨hoid.startsWith_iff_contents hroot, hoid.startsWith_iff_text hroot⟩

/-- The text of `1.2.840` begins with that of `1.2.84`, but not with a dot behind it. -/
theorem startsWith_agrees_for_numeral_in_numeral :
    Valid ⟨[⟨[1]⟩, ⟨[2]⟩, ⟨[840]⟩]⟩ ∧
    Valid ⟨[⟨[1]⟩, ⟨[2]⟩, ⟨[84]⟩]⟩ ∧
    ¬ contents ⟨[⟨[1]⟩, ⟨[2]⟩, ⟨[84]⟩]⟩ <+:
      contents ⟨[⟨[1]⟩, ⟨[2]⟩, ⟨[840]⟩]⟩ ∧
    ¬ (text ⟨[⟨[1]⟩, ⟨[2]⟩, ⟨[840]⟩]⟩ =
        text ⟨[⟨[1]⟩, ⟨[2]⟩, ⟨[84]⟩]⟩ ∨
      ∃ rest, text ⟨[⟨[1]⟩, ⟨[2]⟩, ⟨[840]⟩]⟩ =
        text ⟨[⟨[1]⟩, ⟨[2]⟩, ⟨[84]⟩]⟩ ++ "." ++ rest) := by
  have hoid : Valid ⟨[⟨[1]⟩, ⟨[2]⟩, ⟨[840]⟩]⟩ := by decide
  have hroot : Valid ⟨[⟨[1]⟩, ⟨[2]⟩, ⟨[84]⟩]⟩ := by decide
  have hnot :
      ¬ startsWith ⟨[⟨[1]⟩, ⟨[2]⟩, ⟨[840]⟩]⟩ ⟨[⟨[1]⟩, ⟨[2]⟩, ⟨[84]⟩]⟩ = true := by
    decide
  have hagrees := startsWith_agrees_with_contents_and_text hoid hroot
  exact ⟨hoid, hroot, fun h => hnot (hagrees.1.2 h), fun h => hnot (hagrees.2.2 h)⟩

end Oid

end DerContents
