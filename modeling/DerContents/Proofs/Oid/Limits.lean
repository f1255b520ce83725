import DerContents.Proofs.Oid.Contents
import DerContents.Proofs.Oid.Text

/-!
# Narrower and wider limits

Text and contents are checked against a limit before they are read, arcs after they have
passed the rules.  Either way narrower limits give the result of wider ones, but for what
is now too long, and the checks say exactly what that is.
-/

namespace DerContents

namespace Oid

/-- A result under limits that may be narrower than those it was made under. -/
def capped (limits : Limits) (result : Except ParseError Oid) : Except ParseError Oid :=
  result >>= fun oid =>
    if limits.maxOctets < oid.encodedLength then .error .tooLong else .ok oid

theorem capped_ok_of_lt {limits : Limits} {oid : Oid} (h : limits.maxOctets < oid.encodedLength) :
    capped limits (.ok oid) = .error .tooLong :=
  if_pos h

theorem capped_ok_of_le {limits : Limits} {oid : Oid} (h : oid.encodedLength ≤ limits.maxOctets) :
    capped limits (.ok oid) = .ok oid :=
  if_neg (Nat.not_lt.2 h)

theorem capped_eq_or (limits : Limits) (result : Except ParseError Oid) :
    capped limits result = result ∨ capped limits result = .error .tooLong := by
  cases result with
  | error reason => exact Or.inl rfl
  | ok oid =>
    rcases Nat.lt_or_ge limits.maxOctets oid.encodedLength with hlong | hfits
    · exact Or.inr (capped_ok_of_lt hlong)
    · exact Or.inl (capped_ok_of_le hfits)

theorem capped_eq_ok_iff {limits : Limits} {result : Except ParseError Oid} {oid : Oid} :
    capped limits result = .ok oid ↔
      result = .ok oid ∧ oid.encodedLength ≤ limits.maxOctets := by
  constructor
  · intro h
    cases result with
    | error reason => cases h
    | ok made =>
      rcases Nat.lt_or_ge limits.maxOctets made.encodedLength with hlong | hfits
      · rw [capped_ok_of_lt hlong] at h
        cases h
      · rw [capped_ok_of_le hfits] at h
        cases h
        exact ⟨rfl, hfits⟩
  · intro h
    rw [h.1, capped_ok_of_le h.2]

section Narrowing

variable {narrow wide : Limits}

theorem ofArcs_narrow (h : narrow ≤ wide) (arcs : List Arc) :
    ofArcs narrow arcs = capped narrow (ofArcs wide arcs) := by
  unfold ofArcs
  cases check arcs with
  | error reason => rfl
  | ok passed =>
    show (if narrow.maxOctets < encodedLength ⟨arcs⟩ then _ else _) =
      capped narrow (if wide.maxOctets < encodedLength ⟨arcs⟩ then _ else _)
    by_cases hwide : wide.maxOctets < encodedLength ⟨arcs⟩
    · rw [if_pos hwide, if_pos (Nat.lt_of_le_of_lt h.1 hwide)]
      rfl
    · rw [if_neg hwide]
      rfl

theorem ofText_narrow (h : narrow ≤ wide) (input : String) :
    ofText narrow input =
      if narrow.maxTextLength < input.utf8ByteSize then .error .tooLong
      else capped narrow (ofText wide input) := by
  have hle : narrow.maxTextLength ≤ wide.maxTextLength := h.2
  rw [ofText_eq, ofText_eq]
  by_cases hempty : input = ""
  · rw [if_pos hempty, if_pos hempty, hempty]
    rfl
  rw [if_neg hempty, if_neg hempty]
  by_cases hlength : narrow.maxTextLength < input.utf8ByteSize
  · rw [if_pos hlength, if_pos hlength]
  · have hwide : ¬ wide.maxTextLength < input.utf8ByteSize := by omega
    rw [if_neg hlength, if_neg hlength, if_neg hwide]
    cases badSegment? input with
    | some segment => rfl
    | none => exact ofArcs_narrow h (segmentArcs input)

theorem ofContents_narrow (h : narrow ≤ wide) (octets : Octets) :
    ofContents narrow octets =
      if narrow.maxOctets < octets.length then .error .tooLong
      else ofContents wide octets := by
  have hle : narrow.maxOctets ≤ wide.maxOctets := h.1
  rw [ofContents_eq, ofContents_eq]
  by_cases hempty : octets = []
  · rw [if_pos hempty, if_pos hempty, hempty]
    rfl
  rw [if_neg hempty, if_neg hempty]
  by_cases hlength : narrow.maxOctets < octets.length
  · rw [if_pos hlength, if_pos hlength]
  · have hwide : ¬ wide.maxOctets < octets.length := by omega
    rw [if_neg hlength, if_neg hlength, if_neg hwide]

/--
Narrower limits give what wider ones give, down to the segment reported, or else that it
is too long.  What they accept is exactly what wider ones accept within them, the same
identifier each time.
-/
theorem narrower_limits_only_make_too_long (h : narrow ≤ wide) :
    (∀ arcs,
      (ofArcs narrow arcs = ofArcs wide arcs ∨ ofArcs narrow arcs = .error .tooLong) ∧
      ∀ oid, ofArcs narrow arcs = .ok oid ↔
        ofArcs wide arcs = .ok oid ∧ oid.encodedLength ≤ narrow.maxOctets) ∧
    (∀ input,
      (ofText narrow input = ofText wide input ∨ ofText narrow input = .error .tooLong) ∧
      ∀ oid, ofText narrow input = .ok oid ↔
        ofText wide input = .ok oid ∧ input.utf8ByteSize ≤ narrow.maxTextLength ∧
          oid.encodedLength ≤ narrow.maxOctets) ∧
    ∀ octets,
      (ofContents narrow octets = ofContents wide octets ∨
        ofContents narrow octets = .error .tooLong) ∧
      ∀ oid, ofContents narrow octets = .ok oid ↔
        ofContents wide octets = .ok oid ∧ octets.length ≤ narrow.maxOctets := by
  refine ⟨?_, ?_, ?_⟩
  · intro arcs
    rw [ofArcs_narrow h]
    exact ⟨capped_eq_or narrow _, fun oid => capped_eq_ok_iff⟩
  · intro input
    rw [ofText_narrow h]
    by_cases hlength : narrow.maxTextLength < input.utf8ByteSize
    · rw [if_pos hlength]
      simp [Nat.not_le.2 hlength]
    · rw [if_neg hlength]
      simp only [capped_eq_ok_iff, Nat.not_lt.1 hlength, true_and, implies_true, and_true]
      exact capped_eq_or narrow _
  · intro octets
    rw [ofContents_narrow h]
    by_cases hlength : narrow.maxOctets < octets.length
    · rw [if_pos hlength]
      simp [Nat.not_le.2 hlength]
    · rw [if_neg hlength]
      simp [Nat.not_lt.1 hlength]

end Narrowing

/-- Limits that `1.2.840` just keeps to, and one octet less for its contents. -/
theorem narrower_limits_only_make_too_long_by_one_octet :
    (⟨2, 7⟩ : Limits) ≤ ⟨3, 7⟩ ∧
    ofText ⟨3, 7⟩ "1.2.840" = .ok ⟨[⟨[1]⟩, ⟨[2]⟩, ⟨[840]⟩]⟩ ∧
    ofText ⟨2, 7⟩ "1.2.840" = .error .tooLong ∧
    ofContents ⟨3, 7⟩ [0x2A, 0x86, 0x48] = .ok ⟨[⟨[1]⟩, ⟨[2]⟩, ⟨[840]⟩]⟩ ∧
    ofContents ⟨2, 7⟩ [0x2A, 0x86, 0x48] = .error .tooLong := by
  have hle : (⟨2, 7⟩ : Limits) ≤ ⟨3, 7⟩ := by decide
  have htext : ofText ⟨3, 7⟩ "1.2.840" = .ok ⟨[⟨[1]⟩, ⟨[2]⟩, ⟨[840]⟩]⟩ := rfl
  have hread :
      ofContents ⟨3, 7⟩ [0x2A, 0x86, 0x48] = .ok ⟨[⟨[1]⟩, ⟨[2]⟩, ⟨[840]⟩]⟩ := rfl
  have hlength : encodedLength ⟨[⟨[1]⟩, ⟨[2]⟩, ⟨[840]⟩]⟩ = 3 := by decide +kernel
  obtain ⟨-, hofText, hofContents⟩ := narrower_limits_only_make_too_long hle
  refine ⟨hle, htext, ?_, hread, ?_⟩
  · obtain ⟨hsame | hlong, hok⟩ := hofText "1.2.840"
    · rw [htext] at hsame
      have hfits := ((hok _).1 hsame).2.2
      rw [hlength] at hfits
      exact absurd hfits (by decide)
    · exact hlong
  · obtain ⟨hsame | hlong, hok⟩ := hofContents [0x2A, 0x86, 0x48]
    · rw [hread] at hsame
      exact absurd ((hok _).1 hsame).2 (by decide)
    · exact hlong

end Oid

end DerContents
