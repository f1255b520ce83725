import DerContents.Oid.Text
import DerContents.Proofs.Arc.Numeral
import DerContents.Proofs.Oid.Packing

/-!
# Dotted text read back

Splitting at dots undoes joining with them, and the segments of an accepted text are
the numerals of its arcs.  So reading inverts writing.  Any other text is refused for
its leftmost segment that is no numeral, or else for the arcs that it names.
-/

namespace DerContents

namespace Oid

def segments (text : String) : List (List Char) :=
  text.toList.splitOn '.'

def segmentNumber (segment : List Char) : Nat :=
  Nat.ofDigitChars 10 segment 0

/-- The arcs with the numbers of the segments. -/
def segmentArcs (text : String) : List Arc :=
  (segments text).map fun segment => Arc.ofNat (segmentNumber segment)

/-- The leftmost segment that is no numeral. -/
def badSegment? (text : String) : Option (List Char) :=
  (segments text).find? fun segment => ¬ IsNumeral segment

theorem readSegment_eq (segment : List Char) :
    readSegment segment =
      if IsNumeral segment then .ok (Arc.ofNat (segmentNumber segment))
      else .error (.invalidArc (String.ofList segment)) := by
  unfold readSegment
  rw [Arc.ofDigits?_eq]
  by_cases h : IsNumeral segment
  · rw [if_pos h, if_pos h]
    rfl
  · rw [if_neg h, if_neg h]

theorem mapM_readSegment (segments : List (List Char)) :
    segments.mapM readSegment =
      match segments.find? fun segment => ¬ IsNumeral segment with
      | some segment => .error (.invalidArc (String.ofList segment))
      | none => .ok (segments.map fun segment => Arc.ofNat (segmentNumber segment)) := by
  induction segments with
  | nil => rfl
  | cons segment rest ih =>
    rw [List.mapM_cons, readSegment_eq, ih]
    by_cases h : IsNumeral segment
    · rw [if_pos h, List.find?_cons_of_neg (by simpa using h)]
      cases rest.find? fun segment => ¬ IsNumeral segment with
      | none => rfl
      | some bad => rfl
    · rw [if_neg h, List.find?_cons_of_pos (by simpa using h)]
      rfl

theorem isNumeral_of_badSegment? {text : String} (h : badSegment? text = none) :
    ∀ segment ∈ segments text, IsNumeral segment := by
  intro segment hmem
  have hgood := List.find?_eq_none.1 h segment hmem
  simpa using hgood

theorem ofText_eq (limits : Limits) (text : String) :
    ofText limits text =
      if text = "" then .error .empty
      else if limits.maxTextLength < text.utf8ByteSize then .error .tooLong
      else match badSegment? text with
        | some segment => .error (.invalidArc (String.ofList segment))
        | none => ofArcs limits (segmentArcs text) := by
  unfold ofText badSegment? segments
  rw [mapM_readSegment]
  split
  · rfl
  split
  · rfl
  split
  · rfl
  · rfl

theorem dot_notMem {digits : List Char} (h : IsNumeral digits) : '.' ∉ digits := by
  intro hmem
  exact absurd (h.isDigit '.' hmem) (by decide)

theorem Valid.arcs_ne_nil {oid : Oid} (h : oid.Valid) : oid.arcs ≠ [] := by
  obtain ⟨first, second, rest, rfl⟩ := h.exists_cons
  exact List.cons_ne_nil _ _

theorem Valid.segments_text {oid : Oid} (h : oid.Valid) :
    segments oid.text = oid.arcs.map Arc.digits := by
  unfold segments text dotted
  rw [String.toList_ofList]
  apply List.splitOn_intercalate
  · intro digits hmem
    obtain ⟨arc, harc, rfl⟩ := List.mem_map.1 hmem
    exact dot_notMem (h.1 arc harc).isNumeral_digits
  · intro hnil
    exact h.arcs_ne_nil (List.map_eq_nil_iff.1 hnil)

theorem Valid.badSegment?_text {oid : Oid} (h : oid.Valid) : badSegment? oid.text = none := by
  unfold badSegment?
  rw [h.segments_text, List.find?_eq_none]
  intro digits hmem
  obtain ⟨arc, harc, rfl⟩ := List.mem_map.1 hmem
  simpa using (h.1 arc harc).isNumeral_digits

theorem Valid.text_ne_empty {oid : Oid} (h : oid.Valid) : oid.text ≠ "" := by
  intro hempty
  have hbad := h.badSegment?_text
  rw [hempty] at hbad
  exact absurd hbad (by decide)

theorem ofNat_segmentNumber_digits {arc : Arc} (h : arc.Normal) :
    Arc.ofNat (segmentNumber arc.digits) = arc := by
  unfold segmentNumber
  rw [h.digits_eq, Nat.ofDigitChars_ten_toDigits, h.ofNat_toNat]

theorem digits_ofNat_segmentNumber {segment : List Char} (h : IsNumeral segment) :
    (Arc.ofNat (segmentNumber segment)).digits = segment :=
  Arc.digits_ofNat_ofDigitChars h

theorem Valid.segmentArcs_text {oid : Oid} (h : oid.Valid) : segmentArcs oid.text = oid.arcs := by
  unfold segmentArcs
  rw [h.segments_text, List.map_map]
  apply map_eq_self
  intro arc hmem
  exact ofNat_segmentNumber_digits (h.1 arc hmem)

theorem map_digits_segmentArcs {text : String} (h : badSegment? text = none) :
    (segmentArcs text).map Arc.digits = segments text := by
  unfold segmentArcs
  rw [List.map_map]
  apply map_eq_self
  intro segment hmem
  exact digits_ofNat_segmentNumber (isNumeral_of_badSegment? h segment hmem)

theorem text_segmentArcs {input : String} (h : badSegment? input = none) :
    text ⟨segmentArcs input⟩ = input := by
  unfold text dotted
  rw [map_digits_segmentArcs h, segments, List.intercalate_splitOn, String.ofList_toList]

theorem normal_of_mem_segmentArcs {text : String} : ∀ arc ∈ segmentArcs text, arc.Normal := by
  intro arc hmem
  obtain ⟨segment, -, rfl⟩ := List.mem_map.1 hmem
  exact Arc.normal_ofNat (segmentNumber segment)

theorem ofText_eq_ok_iff {limits : Limits} {input : String} {oid : Oid} :
    ofText limits input = .ok oid ↔
      oid.Valid ∧ input = oid.text ∧ input.utf8ByteSize ≤ limits.maxTextLength ∧
        oid.contents.length ≤ limits.maxOctets := by
  rw [ofText_eq]
  constructor
  · intro h
    split at h
    · cases h
    split at h
    · cases h
    next hlength =>
      cases hbad : badSegment? input with
      | some segment =>
        rw [hbad] at h
        cases h
      | none =>
        rw [hbad] at h
        obtain ⟨harcs, hvalid, hoctets⟩ := (ofArcs_eq_ok_iff normal_of_mem_segmentArcs).1 h
        have htext : oid.text = input := by
          rw [← text_segmentArcs hbad, ← harcs]
        exact ⟨hvalid, htext.symm, Nat.not_lt.1 hlength, hoctets⟩
  · intro h
    rcases h with ⟨hvalid, rfl, hlength, hoctets⟩
    have hread := (ofArcs_eq_ok_iff hvalid.1).2 ⟨rfl, hvalid, hoctets⟩
    rw [if_neg hvalid.text_ne_empty, if_neg (Nat.not_lt.2 hlength), hvalid.badSegment?_text,
      hvalid.segmentArcs_text]
    exact hread

theorem Valid.ofText_text {oid : Oid} (h : oid.Valid) (limits : Limits) :
    ofText limits oid.text =
      if oid.text.utf8ByteSize ≤ limits.maxTextLength ∧
          oid.encodedLength ≤ limits.maxOctets then
        .ok oid
      else
        .error .tooLong := by
  rw [← length_contents, ofText_eq, if_neg h.text_ne_empty, h.badSegment?_text,
    h.segmentArcs_text, ofArcs_of_valid h]
  simp only [← Nat.not_le]
  by_cases hlength : oid.text.utf8ByteSize ≤ limits.maxTextLength
  · by_cases hoctets : oid.contents.length ≤ limits.maxOctets
    · simp [hlength, hoctets]
    · simp [hlength, hoctets]
  · simp [hlength]

/--
Reading a text inverts writing it: an identifier comes out of its own text, of no other
spelling, and up to the two limits exactly.
-/
theorem ofText_inverts_text (limits : Limits) (input : String) (oid : Oid) :
    (ofText limits input = .ok oid ↔
      oid.Valid ∧ input = oid.text ∧ input.utf8ByteSize ≤ limits.maxTextLength ∧
        oid.contents.length ≤ limits.maxOctets) ∧
    (oid.Valid → oid.text.utf8ByteSize ≤ limits.maxTextLength →
      oid.contents.length ≤ limits.maxOctets → ofText limits oid.text = .ok oid) ∧
    ∀ wide other, ofText limits input = .ok oid → ofText wide other = .ok oid →
      input = other := by
  refine ⟨ofText_eq_ok_iff, ?_, ?_⟩
  · intro hvalid hlength hoctets
    exact ofText_eq_ok_iff.2 ⟨hvalid, rfl, hlength, hoctets⟩
  · intro wide other h hother
    rw [(ofText_eq_ok_iff.1 h).2.1, (ofText_eq_ok_iff.1 hother).2.1]

/--
The outcome of reading any text and of making an identifier of any arcs, with the
reasons in their order.  Segments come before arcs, and the first two arcs before the
length of the contents.
-/
theorem ofText_outcome (limits : Limits) :
    (∀ text, ofText limits text =
      if text = "" then .error .empty
      else if limits.maxTextLength < text.utf8ByteSize then .error .tooLong
      else match badSegment? text with
        | some segment => .error (.invalidArc (String.ofList segment))
        | none => ofArcs limits (segmentArcs text)) ∧
    ∀ arcs : List Arc, (∀ arc ∈ arcs, arc.Normal) → ofArcs limits arcs =
      match arcs with
      | first :: second :: rest =>
        if 2 < first.toNat then .error .firstArcOutOfRange
        else if first.toNat < 2 ∧ 39 < second.toNat then .error .secondArcOutOfRange
        else if limits.maxOctets <
            (((40 * first.toNat + second.toNat) :: rest.map Arc.toNat).flatMap
              Base128.shortest).length then
          .error .tooLong
        else .ok ⟨arcs⟩
      | _ => .error .tooFewArcs := by
  refine ⟨ofText_eq limits, ?_⟩
  intro arcs hnormal
  match arcs with
  | [] => rfl
  | [_] => rfl
  | first :: second :: rest => exact ofArcs_cons hnormal limits

end Oid

end DerContents
