import DerContents.Proofs.Oid.Packing
import DerContents.Proofs.Oid.Reading

/-!
# Contents octets read back

Reading contents inverts writing them, and the octets decide every outcome: a length
beyond the limit is reported before an empty leading group, that before an unfinished
last number, and whatever remains is the contents of a valid identifier.
-/

namespace DerContents

namespace Oid

open Base128

theorem arcs_ofPacked (number : Nat) (rest : List Nat) :
    unpack (Arc.ofNat number) ++ rest.map Arc.ofNat = (ofPacked (number :: rest)).arcs := by
  rw [unpack_ofNat, ← List.map_append]
  rfl

theorem contents_ofPacked (number : Nat) (rest : List Nat) :
    (ofPacked (number :: rest)).contents = (number :: rest).flatMap shortest := by
  rw [(valid_ofPacked number rest).contents_eq, packed_ofPacked]

theorem ofArcs_unpack {limits : Limits} {number : Nat} {rest : List Nat}
    (h : ((number :: rest).flatMap shortest).length ≤ limits.maxOctets) :
    ofArcs limits (unpack (Arc.ofNat number) ++ rest.map Arc.ofNat) =
      .ok (ofPacked (number :: rest)) := by
  rw [arcs_ofPacked, ofArcs_of_valid (valid_ofPacked number rest), contents_ofPacked,
    if_neg (Nat.not_lt.2 h)]

theorem ofSubidentifiers_map_ofNat {limits : Limits} {numbers : List Nat} (hne : numbers ≠ [])
    (h : (numbers.flatMap shortest).length ≤ limits.maxOctets) :
    ofSubidentifiers limits (numbers.map Arc.ofNat) = .ok (ofPacked numbers) := by
  cases numbers with
  | nil => exact absurd rfl hne
  | cons number rest =>
    rw [List.map_cons, ofSubidentifiers, ofArcs_unpack h]
    rfl

theorem ofContents_of_length_le {limits : Limits} {octets : Octets} (hne : octets ≠ [])
    (h : octets.length ≤ limits.maxOctets) :
    ofContents limits octets =
      readSubidentifiers Arc.zero true octets >>= ofSubidentifiers limits := by
  rw [ofContents, if_neg hne, if_neg (Nat.not_lt.2 h)]

theorem ofContents_flatMap_shortest {limits : Limits} {numbers : List Nat} (hne : numbers ≠ [])
    (h : (numbers.flatMap shortest).length ≤ limits.maxOctets) :
    ofContents limits (numbers.flatMap shortest) = .ok (ofPacked numbers) := by
  have hread : readSubidentifiers Arc.zero true (numbers.flatMap shortest) =
      .ok (numbers.map Arc.ofNat) :=
    readSubidentifiers_eq_ok_iff.2 ⟨numbers, rfl, rfl⟩
  rw [ofContents_of_length_le (flatMap_shortest_ne_nil hne) h, hread]
  exact ofSubidentifiers_map_ofNat hne h

/-- Octets that are neither padded nor truncated are the shortest forms of their numbers. -/
theorem flatMap_shortest_cut {octets : Octets} (hne : octets ≠ []) (hpad : ¬ Padded octets)
    (hend : ¬ Truncated octets) : ((cut octets).map number).flatMap shortest = octets := by
  have hread : readSubidentifiers Arc.zero true octets =
      .ok (((cut octets).map number).map Arc.ofNat) := by
    rw [padded_iff] at hpad
    rw [← truncatedFrom_iff true hne] at hend
    rw [Arc.zero_eq, readSubidentifiers_eq, if_neg hpad, if_neg hend, numbersFrom_zero]
  obtain ⟨numbers, harcs, hnumbers⟩ := readSubidentifiers_eq_ok_iff.1 hread
  rw [(List.map_inj_right fun _ _ => Arc.ofNat_injective).1 harcs, hnumbers]

/-- What reading gives for any octets, its reasons in their order. -/
theorem ofContents_eq (limits : Limits) (octets : Octets) :
    ofContents limits octets =
      if octets = [] then .error .empty
      else if limits.maxOctets < octets.length then .error .tooLong
      else if Padded octets then .error .nonMinimal
      else if Truncated octets then .error .truncated
      else .ok (ofPacked ((cut octets).map number)) := by
  by_cases hne : octets = []
  · rw [ofContents, if_pos hne, if_pos hne]
  by_cases hlength : limits.maxOctets < octets.length
  · rw [ofContents, if_neg hne, if_pos hlength, if_neg hne, if_pos hlength]
  have hle := Nat.not_lt.1 hlength
  rw [if_neg hne, if_neg hlength]
  by_cases hpad : Padded octets
  · rw [ofContents_of_length_le hne hle, Arc.zero_eq, readSubidentifiers_eq,
      if_pos ((padded_iff octets).1 hpad), if_pos hpad]
    rfl
  rw [if_neg hpad]
  by_cases hend : Truncated octets
  · have hunpadded : ¬ PaddedFrom true octets := by rwa [← padded_iff]
    rw [ofContents_of_length_le hne hle, Arc.zero_eq, readSubidentifiers_eq, if_neg hunpadded,
      if_pos ((truncatedFrom_iff true hne).2 hend), if_pos hend]
    rfl
  rw [if_neg hend]
  -- The octets are the shortest forms of their numbers, so no limit is exceeded afterwards.
  have hoctets := flatMap_shortest_cut hne hpad hend
  have hnumbers : (cut octets).map number ≠ [] := by
    intro hnil
    exact cut_ne_nil hne (List.map_eq_nil_iff.1 hnil)
  rw [← hoctets] at hle
  have hread := ofContents_flatMap_shortest hnumbers hle
  rwa [hoctets] at hread

theorem ofContents_eq_ok_iff {limits : Limits} {octets : Octets} {oid : Oid} :
    ofContents limits octets = .ok oid ↔
      oid.Valid ∧ oid.contents = octets ∧ octets.length ≤ limits.maxOctets := by
  constructor
  · intro h
    rw [ofContents_eq] at h
    split at h
    · cases h
    split at h
    · cases h
    split at h
    · cases h
    split at h
    · cases h
    next hne hlength hpad hend =>
      cases h
      have hoctets := flatMap_shortest_cut hne hpad hend
      cases hcut : (cut octets).map number with
      | nil => exact absurd (List.map_eq_nil_iff.1 hcut) (cut_ne_nil hne)
      | cons number rest =>
        rw [hcut] at hoctets
        exact ⟨valid_ofPacked number rest, (contents_ofPacked number rest).trans hoctets,
          Nat.not_lt.1 hlength⟩
  · intro h
    rcases h with ⟨hvalid, rfl, hlength⟩
    rw [hvalid.contents_eq] at hlength ⊢
    rw [ofContents_flatMap_shortest hvalid.packed_ne_nil hlength, hvalid.ofPacked_packed]

theorem Valid.contents_ne_nil {oid : Oid} (h : oid.Valid) : oid.contents ≠ [] := by
  rw [h.contents_eq]
  exact Base128.flatMap_shortest_ne_nil h.packed_ne_nil

theorem Valid.ofContents_contents {oid : Oid} (h : oid.Valid) (limits : Limits) :
    ofContents limits oid.contents =
      if oid.encodedLength ≤ limits.maxOctets then .ok oid else .error .tooLong := by
  rw [← length_contents]
  split
  next hlength => exact ofContents_eq_ok_iff.2 ⟨h, rfl, hlength⟩
  next hlength =>
    rw [ofContents, if_neg h.contents_ne_nil, if_pos (Nat.lt_of_not_le hlength)]

/--
Reading contents inverts writing them: an identifier comes out of its own contents, of no
other octets, and whatever is accepted is written again octet for octet.
-/
theorem ofContents_inverts_contents (limits : Limits) (octets : Octets) (oid : Oid) :
    (ofContents limits octets = .ok oid ↔
      oid.Valid ∧ oid.contents = octets ∧ octets.length ≤ limits.maxOctets) ∧
    (oid.Valid → oid.contents.length ≤ limits.maxOctets →
      ofContents limits oid.contents = .ok oid) ∧
    ∀ wide other, ofContents limits octets = .ok oid → ofContents wide other = .ok oid →
      octets = other := by
  refine ⟨ofContents_eq_ok_iff, ?_, ?_⟩
  · intro hvalid hlength
    exact ofContents_eq_ok_iff.2 ⟨hvalid, rfl, hlength⟩
  · intro wide other h hother
    rw [← (ofContents_eq_ok_iff.1 h).2.1, ← (ofContents_eq_ok_iff.1 hother).2.1]

/--
The outcome of reading for any octets, its reasons in their order.  The rules of the
first two arcs and the limit never fail for arcs that have been read.
-/
theorem ofContents_outcome (limits : Limits) (octets : Octets) :
    ofContents limits octets =
      (if octets = [] then .error .empty
      else if limits.maxOctets < octets.length then .error .tooLong
      else if Padded octets then .error .nonMinimal
      else if Truncated octets then .error .truncated
      else .ok (ofPacked ((cut octets).map number))) ∧
    ofContents limits octets ≠ .error .invalidStructure ∧
    ∀ first rest, octets.length ≤ limits.maxOctets →
      readSubidentifiers Arc.zero true octets = .ok (first :: rest) →
        ofArcs limits (unpack first ++ rest) = .ok ⟨unpack first ++ rest⟩ := by
  refine ⟨ofContents_eq limits octets, ?_, ?_⟩
  · rw [ofContents_eq]
    split
    · simp
    split
    · simp
    split
    · simp
    split
    · simp
    · simp
  · intro first rest hlength hread
    obtain ⟨numbers, harcs, rfl⟩ := readSubidentifiers_eq_ok_iff.1 hread
    cases numbers with
    | nil => exact absurd harcs (List.cons_ne_nil _ _)
    | cons number more =>
      obtain ⟨rfl, rfl⟩ := List.cons.inj harcs
      rw [ofArcs_unpack hlength, arcs_ofPacked]

end Oid

end DerContents
