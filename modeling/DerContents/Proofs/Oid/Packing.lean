import DerContents.Oid.Contents
import DerContents.Proofs.Arc.Base128

/-!
# Packing the first two arcs

The first two arcs of a valid identifier share the number `40 * first + second`, and the
number gives them back.  So valid identifiers and non-empty lists of numbers are in
bijection (`ofPacked`, `packed`), and the contents are the shortest forms of the numbers.
The checks of `ofArcs` are stated on the numbers of the arcs.
-/

namespace DerContents

namespace Oid

/-- The numbers of the subidentifiers: one that the first two arcs share, then an arc each. -/
def packed (oid : Oid) : List Nat :=
  match oid.arcs with
  | first :: second :: rest => (40 * first.toNat + second.toNat) :: rest.map Arc.toNat
  | _ => []

/-- The first two arcs that share a number. -/
def firstTwo (number : Nat) : List Nat :=
  if number < 40 then [0, number]
  else if number < 80 then [1, number - 40]
  else [2, number - 80]

/-- The identifier with the given numbers of subidentifiers. -/
def ofPacked : List Nat → Oid
  | [] => ⟨[]⟩
  | number :: rest => ⟨(firstTwo number ++ rest).map Arc.ofNat⟩

theorem packed_cons (first second : Arc) (rest : List Arc) :
    packed ⟨first :: second :: rest⟩ =
      (40 * first.toNat + second.toNat) :: rest.map Arc.toNat := rfl

theorem valid_cons_iff {first second : Arc} {rest : List Arc} :
    Valid ⟨first :: second :: rest⟩ ↔
      (∀ arc ∈ first :: second :: rest, arc.Normal) ∧
        first.toNat ≤ 2 ∧ (first.toNat < 2 → second.toNat < 40) :=
  Iff.rfl

theorem Valid.exists_cons {oid : Oid} (h : oid.Valid) :
    ∃ first second rest, oid = ⟨first :: second :: rest⟩ := by
  obtain ⟨arcs⟩ := oid
  match arcs with
  | [] => exact absurd h.2 id
  | [_] => exact absurd h.2 id
  | first :: second :: rest => exact ⟨first, second, rest, rfl⟩

theorem exists_firstTwo (number : Nat) :
    ∃ first second, firstTwo number = [first, second] ∧ 40 * first + second = number ∧
      first ≤ 2 ∧ (first < 2 → second < 40) := by
  unfold firstTwo
  split
  · exact ⟨0, number, rfl, by omega, by omega, by omega⟩
  split
  · exact ⟨1, number - 40, rfl, by omega, by omega, by omega⟩
  · exact ⟨2, number - 80, rfl, by omega, by omega, by omega⟩

theorem firstTwo_pack {first second : Nat} (hfirst : first ≤ 2)
    (hsecond : first < 2 → second < 40) : firstTwo (40 * first + second) = [first, second] := by
  unfold firstTwo
  split
  · rw [show first = 0 by omega]
    simp
  split
  · rw [show first = 1 by omega]
    simp
  · rw [show first = 2 by omega]
    simp

theorem valid_ofPacked (number : Nat) (rest : List Nat) : (ofPacked (number :: rest)).Valid := by
  obtain ⟨first, second, hpair, -, hfirst, hsecond⟩ := exists_firstTwo number
  rw [ofPacked, hpair]
  refine valid_cons_iff.2 ⟨?_, ?_⟩
  · intro arc hmem
    obtain ⟨number, -, rfl⟩ :=
      List.mem_map.1 (show arc ∈ (first :: second :: rest).map Arc.ofNat from hmem)
    exact Arc.normal_ofNat number
  · simp only [Arc.toNat_ofNat]
    exact ⟨hfirst, hsecond⟩

theorem packed_ofPacked (number : Nat) (rest : List Nat) :
    (ofPacked (number :: rest)).packed = number :: rest := by
  obtain ⟨first, second, hpair, hnumber, -, -⟩ := exists_firstTwo number
  rw [ofPacked, hpair]
  simp [packed, hnumber, Function.comp_def]

theorem Valid.ofPacked_packed {oid : Oid} (h : oid.Valid) : ofPacked oid.packed = oid := by
  obtain ⟨first, second, rest, rfl⟩ := h.exists_cons
  obtain ⟨hnormal, hfirst, hsecond⟩ := valid_cons_iff.1 h
  have harcs := Arc.map_ofNat_map_toNat hnormal
  rw [packed_cons, ofPacked, firstTwo_pack hfirst hsecond]
  exact congrArg mk harcs

theorem Valid.packed_ne_nil {oid : Oid} (h : oid.Valid) : oid.packed ≠ [] := by
  obtain ⟨first, second, rest, rfl⟩ := h.exists_cons
  exact List.cons_ne_nil _ _

theorem subidentifiers_cons (first second : Arc) (rest : List Arc) :
    subidentifiers ⟨first :: second :: rest⟩ = pack first second :: rest := rfl

theorem pack_eq {first : Arc} (second : Arc) (hnormal : first.Normal)
    (hfirst : first.toNat ≤ 2) :
    pack first second = Arc.ofNat (40 * first.toNat + second.toNat) := by
  unfold pack
  rw [hnormal.toUInt32?_eq, if_pos (by omega), Option.getD_some, Arc.addWord_eq]
  have hword : (40 * UInt32.ofNat first.toNat).toNat = 40 * first.toNat := by
    rw [UInt32.toNat_mul, UInt32.toNat_ofNat']
    simp
    omega
  rw [hword, Nat.add_comm]

theorem Valid.subidentifiers_eq {oid : Oid} (h : oid.Valid) :
    oid.subidentifiers = oid.packed.map Arc.ofNat := by
  obtain ⟨first, second, rest, rfl⟩ := h.exists_cons
  obtain ⟨hnormal, hfirst, -⟩ := valid_cons_iff.1 h
  have hrest : (rest.map Arc.toNat).map Arc.ofNat = rest :=
    Arc.map_ofNat_map_toNat fun arc hmem =>
      hnormal arc (List.mem_cons_of_mem _ (List.mem_cons_of_mem _ hmem))
  rw [subidentifiers_cons, packed_cons, List.map_cons, hrest,
    pack_eq second (hnormal first List.mem_cons_self) hfirst]

theorem Valid.contents_eq {oid : Oid} (h : oid.Valid) :
    oid.contents = oid.packed.flatMap Base128.shortest := by
  unfold contents
  rw [h.subidentifiers_eq, List.flatMap_map]
  apply List.flatMap_congr
  intro number _
  rw [(Arc.normal_ofNat number).base128_eq, Arc.toNat_ofNat]

/-- Below 80 the number is a word, and the first arc and the second its quotient and remainder. -/
theorem unpack_ofNat_of_lt {number : Nat} (h : number < 80) :
    unpack (Arc.ofNat number) = [Arc.ofNat (number / 40), Arc.ofNat (number % 40)] := by
  have hnormal := Arc.normal_ofNat number
  have hword : (UInt32.ofNat number).toNat = number := by
    rw [UInt32.toNat_ofNat']
    omega
  unfold unpack
  rw [hnormal.subWord?_eq, hnormal.toUInt32?_eq, Arc.toNat_ofNat,
    if_pos (show number < (80 : UInt32).toNat from h), if_pos (by omega), Option.getD_some]
  simp only [Arc.ofUInt32_eq, UInt32.toNat_div, UInt32.toNat_mod, hword, UInt32.reduceToNat]

theorem unpack_ofNat_of_le {number : Nat} (h : 80 ≤ number) :
    unpack (Arc.ofNat number) = [Arc.ofNat 2, Arc.ofNat (number - 80)] := by
  unfold unpack
  rw [(Arc.normal_ofNat number).subWord?_eq, Arc.toNat_ofNat,
    if_neg (show ¬ number < (80 : UInt32).toNat from Nat.not_lt.2 h), Arc.ofUInt8_eq]
  rfl

theorem unpack_ofNat (number : Nat) :
    unpack (Arc.ofNat number) = (firstTwo number).map Arc.ofNat := by
  unfold firstTwo
  split
  next h =>
    rw [unpack_ofNat_of_lt (by omega), show number / 40 = 0 by omega,
      show number % 40 = number by omega]
    rfl
  next hlow =>
    split
    next h =>
      rw [unpack_ofNat_of_lt h, show number / 40 = 1 by omega,
        show number % 40 = number - 40 by omega]
      rfl
    next h =>
      rw [unpack_ofNat_of_le (Nat.not_lt.1 h)]
      rfl

theorem check_cons {first second : Arc} {rest : List Arc} (hfirst : first.Normal)
    (hsecond : second.Normal) :
    check (first :: second :: rest) =
      if 2 < first.toNat then .error .firstArcOutOfRange
      else if first.toNat < 2 ∧ 39 < second.toNat then .error .secondArcOutOfRange
      else .ok () := by
  have hlimit : compare second (Arc.ofUInt8 39) = .gt ↔ 39 < second.toNat := by
    rw [Arc.ofUInt8_eq, hsecond.compare_eq (Arc.normal_ofNat _), Arc.toNat_ofNat]
    exact Nat.compare_eq_gt
  rw [check, hfirst.toUInt32?_eq]
  by_cases hword : first.toNat < 0x100000000
  · have hvalue : (UInt32.ofNat first.toNat).toNat = first.toNat := by
      rw [UInt32.toNat_ofNat']
      omega
    rw [if_pos hword]
    simp only [UInt32.lt_iff_toNat_lt, hvalue, hlimit, UInt32.reduceToNat]
  · rw [if_neg hword, if_pos (by omega)]

/-- The outcome of making an identifier of at least two arcs, its reasons in their order. -/
theorem ofArcs_cons {first second : Arc} {rest : List Arc}
    (hnormal : ∀ arc ∈ first :: second :: rest, arc.Normal) (limits : Limits) :
    ofArcs limits (first :: second :: rest) =
      if 2 < first.toNat then .error .firstArcOutOfRange
      else if first.toNat < 2 ∧ 39 < second.toNat then .error .secondArcOutOfRange
      else if limits.maxOctets <
          ((packed ⟨first :: second :: rest⟩).flatMap Base128.shortest).length then
        .error .tooLong
      else .ok ⟨first :: second :: rest⟩ := by
  have hnext : second ∈ first :: second :: rest := List.mem_cons_of_mem _ List.mem_cons_self
  unfold ofArcs
  rw [check_cons (hnormal first List.mem_cons_self) (hnormal second hnext)]
  split
  · rfl
  split
  · rfl
  -- Only the arcs that have passed the checks are known to be valid, and so to have a length.
  next hfirst hsecond =>
    have hvalid : Valid ⟨first :: second :: rest⟩ :=
      valid_cons_iff.2 ⟨hnormal, by omega, by omega⟩
    rw [← hvalid.contents_eq, length_contents]
    rfl

theorem ofArcs_of_valid {oid : Oid} (h : oid.Valid) (limits : Limits) :
    ofArcs limits oid.arcs =
      if limits.maxOctets < oid.contents.length then .error .tooLong else .ok oid := by
  obtain ⟨first, second, rest, rfl⟩ := h.exists_cons
  obtain ⟨hnormal, hfirst, hsecond⟩ := valid_cons_iff.1 h
  rw [ofArcs_cons hnormal, if_neg (by omega), if_neg (by omega), h.contents_eq]

theorem ofArcs_eq_ok_iff {limits : Limits} {arcs : List Arc} {oid : Oid}
    (hnormal : ∀ arc ∈ arcs, arc.Normal) :
    ofArcs limits arcs = .ok oid ↔
      oid.arcs = arcs ∧ oid.Valid ∧ oid.contents.length ≤ limits.maxOctets := by
  constructor
  · intro h
    match arcs with
    | [] => cases h
    | [_] => cases h
    | first :: second :: rest =>
      rw [ofArcs_cons hnormal] at h
      split at h
      · cases h
      split at h
      · cases h
      split at h
      · cases h
      next hfirst hsecond hlength =>
        cases h
        have hvalid : Valid ⟨first :: second :: rest⟩ :=
          valid_cons_iff.2 ⟨hnormal, by omega, by omega⟩
        rw [← hvalid.contents_eq] at hlength
        exact ⟨rfl, hvalid, Nat.not_lt.1 hlength⟩
  · intro h
    rcases h with ⟨rfl, hvalid, hlength⟩
    rw [ofArcs_of_valid hvalid, if_neg (Nat.not_lt.2 hlength)]

/-- Only arcs that follow the rules are refused for the length of their contents. -/
theorem ofArcs_eq_tooLong_iff {limits : Limits} {arcs : List Arc}
    (hnormal : ∀ arc ∈ arcs, arc.Normal) :
    ofArcs limits arcs = .error .tooLong ↔
      Valid ⟨arcs⟩ ∧ limits.maxOctets < (contents ⟨arcs⟩).length := by
  constructor
  · intro h
    match arcs with
    | [] => cases h
    | [_] => cases h
    | first :: second :: rest =>
      rw [ofArcs_cons hnormal] at h
      split at h
      · cases h
      split at h
      · cases h
      split at h
      next hfirst hsecond hlength =>
        have hvalid : Valid ⟨first :: second :: rest⟩ :=
          valid_cons_iff.2 ⟨hnormal, by omega, by omega⟩
        rw [← hvalid.contents_eq] at hlength
        exact ⟨hvalid, hlength⟩
      · cases h
  · intro h
    obtain ⟨hvalid, hlength⟩ := h
    have houtcome := ofArcs_of_valid hvalid limits
    rwa [if_pos hlength] at houtcome

end Oid

end DerContents
