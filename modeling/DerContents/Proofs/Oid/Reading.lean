import DerContents.Oid.Contents
import DerContents.Proofs.Arc.Number
import DerContents.Proofs.Base128

/-!
# Reading subidentifiers

What one octet does to the reader (`readSubidentifiers_cons`), and from it by induction
what reading all of them gives: the outcome for any octets (`readSubidentifiers_eq`), and
the octets that are accepted, which are the shortest forms and no others
(`readSubidentifiers_eq_ok_iff`).
-/

namespace DerContents

namespace Base128

/-- An octet `80` before others stands in front, or behind an octet below `80`. -/
def Padded (octets : Octets) : Prop :=
  ∃ index, octets[index]? = some 0x80 ∧ index + 1 < octets.length ∧
    (index = 0 ∨ ∃ before, octets[index - 1]? = some before ∧ before < 0x80)

/-- The last octet has its high bit set. -/
def Truncated (octets : Octets) : Prop :=
  ∃ last, octets.getLast? = some last ∧ 0x80 ≤ last

/-- `Padded` from the left; `atStart` says that the first octet starts a number. -/
def PaddedFrom (atStart : Bool) : Octets → Prop
  | [] => False
  | octet :: rest =>
    (atStart = true ∧ octet = 0x80 ∧ rest ≠ []) ∨ PaddedFrom (octet < 0x80) rest

/-- `Truncated` from the left; no octets at all are truncated behind a set high bit. -/
def TruncatedFrom (atStart : Bool) : Octets → Prop
  | [] => atStart = false
  | octet :: rest => TruncatedFrom (octet < 0x80) rest

instance decidablePaddedFrom : (atStart : Bool) → DecidablePred (PaddedFrom atStart)
  | _, [] => inferInstanceAs (Decidable False)
  | _, octet :: rest =>
    have := decidablePaddedFrom (octet < 0x80) rest
    inferInstanceAs (Decidable (_ ∨ _))

instance decidableTruncatedFrom : (atStart : Bool) → DecidablePred (TruncatedFrom atStart)
  | atStart, [] => inferInstanceAs (Decidable (atStart = false))
  | _, octet :: rest => decidableTruncatedFrom (octet < 0x80) rest

theorem paddedFrom_iff (atStart : Bool) (octets : Octets) :
    PaddedFrom atStart octets ↔
      ∃ index, octets[index]? = some 0x80 ∧ index + 1 < octets.length ∧
        (index = 0 ∧ atStart = true ∨
          ∃ before, 0 < index ∧ octets[index - 1]? = some before ∧ before < 0x80) := by
  induction octets generalizing atStart with
  | nil => simp [PaddedFrom]
  | cons octet rest ih =>
    rw [PaddedFrom, ih]
    constructor
    · intro h
      rcases h with ⟨hstart, rfl, hrest⟩ | ⟨index, hpad, hindex, hbefore⟩
      · exact ⟨0, rfl, by simpa [List.length_pos_iff] using hrest, Or.inl ⟨rfl, hstart⟩⟩
      · refine ⟨index + 1, hpad, by simpa using hindex, Or.inr ?_⟩
        rcases hbefore with ⟨rfl, hlow⟩ | ⟨before, hpos, hat, hlow⟩
        · exact ⟨octet, by omega, rfl, of_decide_eq_true hlow⟩
        · obtain ⟨index, rfl⟩ := Nat.exists_eq_succ_of_ne_zero (Nat.ne_of_gt hpos)
          exact ⟨before, by omega, hat, hlow⟩
    · intro h
      rcases h with ⟨index, hpad, hindex, hbefore⟩
      cases index with
      | zero =>
        rcases hbefore with ⟨-, hstart⟩ | ⟨before, hpos, -⟩
        · refine Or.inl ⟨hstart, by simpa using hpad, ?_⟩
          intro hnil
          subst hnil
          simp at hindex
        · omega
      | succ index =>
        refine Or.inr ⟨index, hpad, by simpa using hindex, ?_⟩
        rcases hbefore with ⟨hzero, -⟩ | ⟨before, -, hat, hlow⟩
        · omega
        · cases index with
          | zero =>
            have hsame : octet = before := by simpa using hat
            exact Or.inl ⟨rfl, by simpa [hsame] using hlow⟩
          | succ index => exact Or.inr ⟨before, by omega, hat, hlow⟩

theorem padded_iff (octets : Octets) : Padded octets ↔ PaddedFrom true octets := by
  rw [paddedFrom_iff]
  constructor
  · intro h
    rcases h with ⟨index, hpad, hindex, hbefore⟩
    refine ⟨index, hpad, hindex, ?_⟩
    by_cases hzero : index = 0
    · exact Or.inl ⟨hzero, rfl⟩
    · obtain ⟨before, hat, hlow⟩ := hbefore.resolve_left hzero
      exact Or.inr ⟨before, by omega, hat, hlow⟩
  · intro h
    rcases h with ⟨index, hpad, hindex, ⟨hzero, -⟩ | ⟨before, -, hat, hlow⟩⟩
    · exact ⟨index, hpad, hindex, Or.inl hzero⟩
    · exact ⟨index, hpad, hindex, Or.inr ⟨before, hat, hlow⟩⟩

instance (octets : Octets) : Decidable (Padded octets) :=
  decidable_of_iff' _ (padded_iff octets)

theorem truncatedFrom_iff (atStart : Bool) {octets : Octets} (h : octets ≠ []) :
    TruncatedFrom atStart octets ↔ Truncated octets := by
  induction octets generalizing atStart with
  | nil => exact absurd rfl h
  | cons octet rest ih =>
    by_cases hrest : rest = []
    · subst hrest
      simp [TruncatedFrom, Truncated]
    · have hlast : (octet :: rest).getLast? = rest.getLast? := by
        rw [List.getLast?_cons_of_ne_nil hrest]
      rw [TruncatedFrom, ih _ hrest, Truncated, Truncated, hlast]

instance (octets : Octets) : Decidable (Truncated octets) :=
  match h : octets.getLast? with
  | some last => decidable_of_iff (0x80 ≤ last) (by simp [Truncated, h])
  | none => isFalse (by simp [Truncated, h])

end Base128

namespace Oid

open Base128

theorem high_bit_eq_zero_iff (octet : UInt8) : octet &&& 0x80 = 0 ↔ octet < 0x80 := by
  have hall : ∀ value < 256, value &&& 128 = 0 ↔ value < 128 := by decide +kernel
  rw [← UInt8.toNat_inj, UInt8.toNat_and, UInt8.lt_iff_toNat_lt]
  exact hall octet.toNat octet.toNat_lt

theorem readSubidentifiers_cons (read : Nat) (atStart : Bool) (octet : UInt8) (rest : Octets) :
    readSubidentifiers (Arc.ofNat read) atStart (octet :: rest) =
      if atStart = true ∧ octet = 0x80 ∧ rest ≠ [] then
        .error .nonMinimal
      else if octet < 0x80 then
        (readSubidentifiers (Arc.ofNat 0) true rest).map
          (Arc.ofNat (read * 128 + octet.toNat % 128) :: ·)
      else
        readSubidentifiers (Arc.ofNat (read * 128 + octet.toNat % 128)) false rest := by
  rw [readSubidentifiers, Arc.mulAdd_eq, Arc.toNat_ofNat, toNat_low_groups, Arc.zero_eq]
  simp only [high_bit_eq_zero_iff]
  rfl

theorem readSubidentifiers_ending {octet : UInt8} (h : octet < 0x80) (read : Nat)
    (atStart : Bool) (rest : Octets) :
    readSubidentifiers (Arc.ofNat read) atStart (octet :: rest) =
      (readSubidentifiers (Arc.ofNat 0) true rest).map
        (Arc.ofNat (read * 128 + octet.toNat % 128) :: ·) := by
  have hpad : ¬ (atStart = true ∧ octet = 0x80 ∧ rest ≠ []) := by
    intro hall
    rw [hall.2.1] at h
    exact absurd h (by decide)
  rw [readSubidentifiers_cons, if_neg hpad, if_pos h]

theorem readSubidentifiers_continuing {read : Nat} {atStart : Bool} {octet : UInt8}
    {rest : Octets} (h : ¬ octet < 0x80)
    (hpad : ¬ (atStart = true ∧ octet = 0x80 ∧ rest ≠ [])) :
    readSubidentifiers (Arc.ofNat read) atStart (octet :: rest) =
      readSubidentifiers (Arc.ofNat (read * 128 + octet.toNat % 128)) false rest := by
  rw [readSubidentifiers_cons, if_neg hpad, if_neg h]

theorem readSubidentifiers_eq (read : Nat) (atStart : Bool) (octets : Octets) :
    readSubidentifiers (Arc.ofNat read) atStart octets =
      if PaddedFrom atStart octets then .error .nonMinimal
      else if TruncatedFrom atStart octets then .error .truncated
      else .ok ((numbersFrom read octets).map Arc.ofNat) := by
  induction octets generalizing read atStart with
  | nil => cases atStart <;> rfl
  | cons octet rest ih =>
    by_cases hpad : atStart = true ∧ octet = 0x80 ∧ rest ≠ []
    · have hpadded : PaddedFrom atStart (octet :: rest) := Or.inl hpad
      rw [readSubidentifiers_cons, if_pos hpad, if_pos hpadded]
    have hpadded : PaddedFrom atStart (octet :: rest) ↔ PaddedFrom (octet < 0x80) rest := by
      rw [PaddedFrom, or_iff_right hpad]
    simp only [hpadded, TruncatedFrom]
    by_cases hlast : octet < 0x80
    · rw [readSubidentifiers_ending hlast, ih, numbersFrom_cons_of_lt read hlast]
      simp only [hlast, decide_true]
      split
      · rfl
      split
      · rfl
      · rfl
    · rw [readSubidentifiers_continuing hlast hpad, ih]
      simp only [hlast, decide_false]
      by_cases hrest : rest = []
      · subst hrest
        rfl
      · rw [numbersFrom_cons_of_not_lt read hlast hrest]

/--
What is accepted behind groups already read completes shortest forms.  The reader stands
at a start exactly as long as the groups make the number zero.
-/
theorem flatMap_shortest_of_readSubidentifiers {read : Nat} {octets : Octets} {arcs : List Arc}
    (h : readSubidentifiers (Arc.ofNat read) (decide (read = 0)) octets = .ok arcs) :
    ∃ numbers : List Nat, arcs = numbers.map Arc.ofNat ∧
      numbers.flatMap shortest = continued read ++ octets := by
  induction octets generalizing read arcs with
  | nil =>
    by_cases hzero : read = 0
    · subst hzero
      cases h
      refine ⟨[], rfl, ?_⟩
      rw [continued_zero]
      rfl
    · rw [decide_eq_false hzero] at h
      cases h
  | cons octet rest ih =>
    by_cases hpad : decide (read = 0) = true ∧ octet = 0x80 ∧ rest ≠ []
    · rw [readSubidentifiers_cons, if_pos hpad] at h
      cases h
    by_cases hlast : octet < 0x80
    · rw [readSubidentifiers_ending hlast] at h
      cases hmore : readSubidentifiers (Arc.ofNat 0) true rest with
      | error failure =>
        rw [hmore] at h
        cases h
      | ok more =>
        rw [hmore] at h
        cases h
        obtain ⟨numbers, rfl, hnumbers⟩ := ih hmore
        refine ⟨(read * 128 + octet.toNat % 128) :: numbers, rfl, ?_⟩
        rw [List.flatMap_cons, shortest_group read hlast, hnumbers, continued_zero,
          List.nil_append, List.append_assoc, List.singleton_append]
    · rw [readSubidentifiers_continuing hlast hpad] at h
      have hrest : rest ≠ [] := by
        intro hnil
        subst hnil
        cases h
      have hne : read ≠ 0 ∨ octet ≠ 0x80 := by
        rw [← Decidable.not_and_iff_not_or_not]
        intro hboth
        exact hpad ⟨decide_eq_true hboth.1, hboth.2, hrest⟩
      have hcontinued := continued_group hlast hne
      have hread : read * 128 + octet.toNat % 128 ≠ 0 := by
        intro hzero
        rw [hzero, continued_zero] at hcontinued
        exact List.append_ne_nil_of_right_ne_nil _ (List.cons_ne_nil _ _) hcontinued.symm
      rw [← decide_eq_false hread] at h
      obtain ⟨numbers, harcs, hnumbers⟩ := ih h
      refine ⟨numbers, harcs, ?_⟩
      rw [hnumbers, hcontinued, List.append_assoc, List.singleton_append]

theorem readSubidentifiers_continued (number : Nat) {rest : Octets} (hrest : rest ≠ []) :
    readSubidentifiers (Arc.ofNat 0) true (continued number ++ rest) =
      readSubidentifiers (Arc.ofNat number) (decide (number = 0)) rest := by
  induction number using Nat.strongRecOn generalizing rest with
  | ind number ih =>
    by_cases hzero : number = 0
    · subst hzero
      rw [continued_zero]
      rfl
    have hoctet : (UInt8.ofNat (number % 128 + 128)).toNat = number % 128 + 128 := by
      rw [UInt8.toNat_ofNat']
      omega
    have hlast : ¬ UInt8.ofNat (number % 128 + 128) < 0x80 := by
      rw [UInt8.lt_iff_toNat_lt, hoctet]
      exact Nat.not_lt.2 (Nat.le_add_left _ _)
    have hpad : ¬ (decide (number / 128 = 0) = true ∧
        UInt8.ofNat (number % 128 + 128) = 0x80 ∧ rest ≠ []) := by
      intro hall
      have hhigh : number / 128 = 0 := of_decide_eq_true hall.1
      have hlow : number % 128 + 128 = 128 := by
        rw [← hoctet, hall.2.1]
        rfl
      omega
    have hnumber : number / 128 * 128 + (number % 128 + 128) % 128 = number := by omega
    rw [continued_of_ne_zero hzero, List.append_assoc, List.singleton_append,
      ih (number / 128) (by omega) (List.cons_ne_nil _ _),
      readSubidentifiers_continuing hlast hpad, hoctet, hnumber, decide_eq_false hzero]

theorem readSubidentifiers_shortest (number : Nat) (rest : Octets) :
    readSubidentifiers (Arc.ofNat 0) true (shortest number ++ rest) =
      (readSubidentifiers (Arc.ofNat 0) true rest).map (Arc.ofNat number :: ·) := by
  have hnumber : number / 128 * 128 + number % 128 % 128 = number := by omega
  rw [shortest, List.append_assoc, List.singleton_append,
    readSubidentifiers_continued _ (List.cons_ne_nil _ _),
    readSubidentifiers_ending (last_group_lt number), toNat_last_group, hnumber]

theorem readSubidentifiers_flatMap_shortest (numbers : List Nat) :
    readSubidentifiers (Arc.ofNat 0) true (numbers.flatMap shortest) =
      .ok (numbers.map Arc.ofNat) := by
  induction numbers with
  | nil => rfl
  | cons number rest ih =>
    rw [List.flatMap_cons, readSubidentifiers_shortest, ih]
    rfl

/-- Exactly the rows of shortest forms are accepted. -/
theorem readSubidentifiers_eq_ok_iff {octets : Octets} {arcs : List Arc} :
    readSubidentifiers Arc.zero true octets = .ok arcs ↔
      ∃ numbers : List Nat,
        arcs = numbers.map Arc.ofNat ∧ numbers.flatMap shortest = octets := by
  rw [Arc.zero_eq]
  constructor
  · intro h
    have hnumbers := flatMap_shortest_of_readSubidentifiers h
    rwa [continued_zero, List.nil_append] at hnumbers
  · intro h
    rcases h with ⟨numbers, rfl, rfl⟩
    exact readSubidentifiers_flatMap_shortest numbers

end Oid

end DerContents
