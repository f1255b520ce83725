import DerContents.Proofs.Oid.Prefix

/-!
# Contents in parts

Behind accepted octets the reader stands where it began.  So octets joined to contents are
read as they would be alone, except that their first number is now one arc.  Contents cut
off are contents again where a number ends, and truncated everywhere else.
-/

namespace DerContents

namespace Base128

theorem Padded.of_isPrefix {front octets : Octets} (h : Padded front)
    (hfront : front <+: octets) : Padded octets := by
  rcases hfront with ⟨back, rfl⟩
  rcases h with ⟨index, hpad, hindex, hbefore⟩
  refine ⟨index, ?_, ?_, ?_⟩
  · rwa [List.getElem?_append_left (by omega)]
  · rw [List.length_append]
    omega
  · rwa [List.getElem?_append_left (by omega)]

end Base128

namespace Oid

open Base128

theorem readSubidentifiers_flatMap_shortest_append (numbers : List Nat) (rest : Octets) :
    readSubidentifiers Arc.zero true (numbers.flatMap shortest ++ rest) =
      (readSubidentifiers Arc.zero true rest).map (numbers.map Arc.ofNat ++ ·) := by
  rw [Arc.zero_eq]
  induction numbers with
  | nil =>
    rw [List.flatMap_nil, List.nil_append]
    cases readSubidentifiers (Arc.ofNat 0) true rest <;> rfl
  | cons number more ih =>
    rw [List.flatMap_cons, List.append_assoc, readSubidentifiers_shortest, ih]
    cases readSubidentifiers (Arc.ofNat 0) true rest <;> rfl

/-- The arcs of an identifier and behind them one arc for each number of another. -/
def followedBy (oid other : Oid) : Oid :=
  ⟨oid.arcs ++ other.packed.map Arc.ofNat⟩

theorem followedBy_cons (oid : Oid) {first second : Arc} {rest : List Arc}
    (hrest : ∀ arc ∈ rest, arc.Normal) :
    oid.followedBy ⟨first :: second :: rest⟩ =
      ⟨oid.arcs ++ Arc.ofNat (40 * first.toNat + second.toNat) :: rest⟩ := by
  rw [followedBy, packed_cons, List.map_cons, Arc.map_ofNat_map_toNat hrest]

theorem Valid.ofPacked_append {oid : Oid} (h : oid.Valid) {numbers : List Nat}
    (hne : numbers ≠ []) :
    ofPacked (oid.packed ++ numbers) = oid.followedBy (ofPacked numbers) := by
  cases numbers with
  | nil => exact absurd rfl hne
  | cons next more =>
    have hofPacked := h.ofPacked_packed
    cases hpacked : oid.packed with
    | nil => exact absurd hpacked h.packed_ne_nil
    | cons number rest =>
      rw [followedBy, packed_ofPacked, ← hofPacked, hpacked]
      simp [ofPacked]

theorem Valid.ofContents_contents_append {oid : Oid} (h : oid.Valid) {limits : Limits}
    {back : Octets} (hback : back ≠ [])
    (hlength : oid.contents.length + back.length ≤ limits.maxOctets) :
    ofContents limits (oid.contents ++ back) =
      (ofContents limits back).map oid.followedBy := by
  have hjoined : (oid.contents ++ back).length ≤ limits.maxOctets := by
    rwa [List.length_append]
  rw [ofContents_of_length_le (List.append_ne_nil_of_right_ne_nil _ hback) hjoined,
    ofContents_of_length_le hback (by omega), h.contents_eq,
    readSubidentifiers_flatMap_shortest_append]
  cases hread : readSubidentifiers Arc.zero true back with
  | error reason => rfl
  | ok arcs =>
    -- The octets behind are shortest forms too, so no check fails for the numbers of both.
    obtain ⟨numbers, rfl, rfl⟩ := readSubidentifiers_eq_ok_iff.1 hread
    have hnumbers : numbers ≠ [] := by
      intro hnil
      exact hback (by rw [hnil, List.flatMap_nil])
    have hwhole : ((oid.packed ++ numbers).flatMap shortest).length ≤ limits.maxOctets := by
      rwa [List.flatMap_append, ← h.contents_eq]
    calc
      ofSubidentifiers limits (oid.packed.map Arc.ofNat ++ numbers.map Arc.ofNat) =
          .ok (ofPacked (oid.packed ++ numbers)) := by
        rw [← List.map_append,
          ofSubidentifiers_map_ofNat (List.append_ne_nil_of_right_ne_nil _ hnumbers) hwhole]
      _ = .ok (oid.followedBy (ofPacked numbers)) := by rw [h.ofPacked_append hnumbers]
      _ = (ofSubidentifiers limits (numbers.map Arc.ofNat)).map oid.followedBy := by
        rw [ofSubidentifiers_map_ofNat hnumbers (by omega)]
        rfl

/--
Octets joined to accepted ones are refused for the same reason as alone, or else read as
alone: the arcs in front stay, the first two arcs behind are read as the one arc that
they share, and all other arcs stay.  Only the length counts for both together.
-/
theorem ofContents_of_joined_octets {narrow : Limits} {front back : Octets} {oid : Oid}
    (hfront : ofContents narrow front = .ok oid) (hback : back ≠ []) (limits : Limits) :
    (limits.maxOctets < front.length + back.length →
      ofContents limits (front ++ back) = .error .tooLong) ∧
    (front.length + back.length ≤ limits.maxOctets →
      (∀ reason, ofContents limits back = .error reason →
        ofContents limits (front ++ back) = .error reason) ∧
      ∀ other, ofContents limits back = .ok other →
        ∃ first second rest, other = ⟨first :: second :: rest⟩ ∧
          ofContents limits (front ++ back) =
            .ok ⟨oid.arcs ++ Arc.ofNat (40 * first.toNat + second.toNat) :: rest⟩) := by
  obtain ⟨hvalid, rfl, -⟩ := ofContents_eq_ok_iff.1 hfront
  constructor
  · intro hlength
    rw [ofContents, if_neg (List.append_ne_nil_of_right_ne_nil _ hback), List.length_append,
      if_pos hlength]
  · intro hlength
    have hjoined := hvalid.ofContents_contents_append hback hlength
    constructor
    · intro reason hreason
      rw [hjoined, hreason]
      rfl
    · intro other hother
      have hotherValid := (ofContents_eq_ok_iff.1 hother).1
      obtain ⟨first, second, rest, rfl⟩ := hotherValid.exists_cons
      have hrest : ∀ arc ∈ rest, arc.Normal := fun arc hmem =>
        hotherValid.1 arc (List.mem_cons_of_mem _ (List.mem_cons_of_mem _ hmem))
      refine ⟨first, second, rest, rfl, ?_⟩
      rw [hjoined, hother, ← followedBy_cons oid hrest]
      rfl

/-- `1.2.840` and `2.999` make `1.2.840.1079`; an unfinished number behind stays unfinished. -/
theorem ofContents_of_joined_octets_at_the_limit :
    ofContents Limits.standard [0x2A, 0x86, 0x48] =
      .ok ⟨[⟨[1]⟩, ⟨[2]⟩, ⟨[840]⟩]⟩ ∧
    ([0x88, 0x37] : Octets) ≠ [] ∧
    ofContents ⟨5, 0⟩ ([0x2A, 0x86, 0x48] ++ [0x88, 0x37]) =
      .ok ⟨[⟨[1]⟩, ⟨[2]⟩, ⟨[840]⟩, ⟨[1079]⟩]⟩ ∧
    ofContents ⟨4, 0⟩ ([0x2A, 0x86, 0x48] ++ [0x88, 0x37]) = .error .tooLong ∧
    ofContents ⟨5, 0⟩ ([0x2A, 0x86, 0x48] ++ [0x88]) = .error .truncated := by
  have hfront : ofContents Limits.standard [0x2A, 0x86, 0x48] =
      .ok ⟨[⟨[1]⟩, ⟨[2]⟩, ⟨[840]⟩]⟩ := rfl
  have hback : ([0x88, 0x37] : Octets) ≠ [] := List.cons_ne_nil _ _
  have hother : ofContents ⟨5, 0⟩ [0x88, 0x37] = .ok ⟨[⟨[2]⟩, ⟨[999]⟩]⟩ := rfl
  refine ⟨hfront, hback, ?_, ?_, ?_⟩
  · obtain ⟨first, second, rest, hpair, hjoined⟩ :=
      ((ofContents_of_joined_octets hfront hback ⟨5, 0⟩).2 (by decide)).2 _ hother
    cases hpair
    have hshared : Arc.ofNat 1079 = ⟨[1079]⟩ :=
      (Arc.Normal.eq_ofNat (show Arc.Normal ⟨[1079]⟩ by decide) rfl).symm
    rw [hjoined]
    exact congrArg (fun arc => Except.ok (mk [⟨[1]⟩, ⟨[2]⟩, ⟨[840]⟩, arc])) hshared
  · exact (ofContents_of_joined_octets hfront hback ⟨4, 0⟩).1 (by decide)
  · exact ((ofContents_of_joined_octets hfront (List.cons_ne_nil _ _) ⟨5, 0⟩).2
      (by decide)).1 .truncated rfl

/-- The number of octets up to the end of the given number of subidentifiers. -/
def boundary (oid : Oid) (count : Nat) : Nat :=
  ((oid.subidentifiers.take count).flatMap Arc.base128).length

/-- The arcs of the given number of subidentifiers; the first of these stands for two arcs. -/
def leading (oid : Oid) (count : Nat) : Oid :=
  ⟨oid.arcs.take (count + 1)⟩

theorem take_boundary (oid : Oid) (count : Nat) :
    oid.contents.take (oid.boundary count) =
      (oid.subidentifiers.take count).flatMap Arc.base128 := by
  have hsplit : oid.contents = (oid.subidentifiers.take count).flatMap Arc.base128 ++
      (oid.subidentifiers.drop count).flatMap Arc.base128 := by
    rw [← List.flatMap_append, List.take_append_drop]
    rfl
  rw [hsplit, boundary, List.take_left]

theorem Valid.leading {oid : Oid} (h : oid.Valid) {count : Nat} (hcount : 0 < count) :
    (oid.leading count).Valid := by
  obtain ⟨first, second, rest, rfl⟩ := h.exists_cons
  obtain ⟨count, rfl⟩ := Nat.exists_eq_succ_of_ne_zero (Nat.ne_of_gt hcount)
  exact ⟨fun arc hmem => h.1 arc (List.mem_of_mem_take hmem), h.2⟩

theorem Valid.contents_leading {oid : Oid} (h : oid.Valid) {count : Nat} (hcount : 0 < count) :
    (oid.leading count).contents = oid.contents.take (oid.boundary count) := by
  rw [take_boundary]
  obtain ⟨first, second, rest, rfl⟩ := h.exists_cons
  obtain ⟨count, rfl⟩ := Nat.exists_eq_succ_of_ne_zero (Nat.ne_of_gt hcount)
  rfl

theorem Valid.length_contents_leading {oid : Oid} (h : oid.Valid) {count : Nat}
    (hcount : 0 < count) : (oid.leading count).contents.length = oid.boundary count := by
  rw [h.contents_leading hcount, take_boundary, boundary]

theorem startsWith_leading (oid : Oid) (count : Nat) :
    oid.startsWith (oid.leading count) = true :=
  (startsWith_iff oid _).2 (List.take_prefix _ _)

theorem Valid.exists_leading {oid root : Oid} (hroot : root.Valid)
    (h : oid.startsWith root = true) : ∃ count, 0 < count ∧ root = oid.leading count := by
  have harcs := List.prefix_iff_eq_take.1 ((startsWith_iff oid root).1 h)
  obtain ⟨first, second, rest, rfl⟩ := hroot.exists_cons
  exact ⟨rest.length + 1, Nat.succ_pos _, congrArg mk harcs⟩

theorem Valid.not_padded {oid : Oid} (h : oid.Valid) : ¬ Padded oid.contents := by
  intro hpad
  have hread := ofContents_eq ⟨oid.contents.length, 0⟩ oid.contents
  rw [if_neg h.contents_ne_nil, if_neg (Nat.lt_irrefl _), if_pos hpad,
    ofContents_eq_ok_iff.2 ⟨h, rfl, Nat.le_refl _⟩] at hread
  cases hread

theorem Valid.ofContents_isPrefix {oid : Oid} (h : oid.Valid) (limits : Limits)
    {front : Octets} (hfront : front <+: oid.contents) (hne : front ≠ [])
    (hlength : front.length ≤ limits.maxOctets) :
    ofContents limits front = .error .truncated ∨
      ∃ root, ofContents limits front = .ok root ∧ root.Valid ∧ root.contents = front ∧
        oid.startsWith root = true := by
  have hpad : ¬ Padded front := fun hpad => h.not_padded (hpad.of_isPrefix hfront)
  have houtcome := ofContents_eq limits front
  rw [if_neg hne, if_neg (Nat.not_lt.2 hlength), if_neg hpad] at houtcome
  -- No group in front is new, so the last octet alone decides between the two.
  split at houtcome
  · exact Or.inl houtcome
  · obtain ⟨hroot, hcontents, -⟩ := ofContents_eq_ok_iff.1 houtcome
    refine Or.inr ⟨_, houtcome, hroot, hcontents, ?_⟩
    rw [h.startsWith_iff_contents hroot, hcontents]
    exact hfront

theorem Valid.ofContents_take {oid : Oid} (h : oid.Valid) {limits : Limits} {length : Nat}
    (hlength : length ≤ oid.contents.length) (hlimits : length ≤ limits.maxOctets) :
    (length = 0 ∧ ofContents limits (oid.contents.take length) = .error .empty) ∨
    ofContents limits (oid.contents.take length) = .error .truncated ∨
    ∃ count, length = oid.boundary count ∧
      ofContents limits (oid.contents.take length) = .ok (oid.leading count) := by
  have htake : (oid.contents.take length).length = length := List.length_take_of_le hlength
  by_cases hzero : length = 0
  · left
    rw [hzero, List.take_zero]
    exact ⟨rfl, rfl⟩
  right
  have hne : oid.contents.take length ≠ [] := List.ne_nil_of_length_pos (by omega)
  rcases h.ofContents_isPrefix limits (List.take_prefix length _) hne (by omega) with
    htruncated | ⟨root, hread, hroot, hcontents, hstarts⟩
  · exact Or.inl htruncated
  · rcases hroot.exists_leading hstarts with ⟨count, hcount, rfl⟩
    have hboundary := h.length_contents_leading hcount
    rw [hcontents, htake] at hboundary
    exact Or.inr ⟨count, hboundary, hread⟩

/--
Contents cut off after any number of octets.  Nothing left is empty; what ends with a
subidentifier is the contents of the arcs up to there; everything else is truncated.  No
other reason is given, and no identifier comes out that the whole does not start with.
-/
theorem ofContents_of_cut_contents {oid : Oid} (h : oid.Valid) (limits : Limits) (length : Nat)
    (hlength : length ≤ oid.contents.length) (hlimits : length ≤ limits.maxOctets) :
    (length = 0 → ofContents limits (oid.contents.take length) = .error .empty) ∧
    (∀ count, 0 < count → length = oid.boundary count →
      ofContents limits (oid.contents.take length) = .ok (oid.leading count) ∧
        oid.startsWith (oid.leading count) = true ∧
        (oid.leading count).contents = oid.contents.take length) ∧
    (0 < length → (∀ count, length ≠ oid.boundary count) →
      ofContents limits (oid.contents.take length) = .error .truncated) ∧
    ofContents limits (oid.contents.take length) ≠ .error .nonMinimal ∧
    ofContents limits (oid.contents.take length) ≠ .error .invalidStructure ∧
    ∀ root, ofContents limits (oid.contents.take length) = .ok root →
      oid.startsWith root = true := by
  have houtcome := h.ofContents_take hlength hlimits
  refine ⟨?_, ?_, ?_, ?_⟩
  · intro hzero
    rw [hzero, List.take_zero]
    rfl
  · intro count hcount hboundary
    have hcontents := h.contents_leading hcount
    rw [← hboundary] at hcontents
    have hfits : (oid.contents.take length).length ≤ limits.maxOctets :=
      Nat.le_trans (List.length_take_le _ _) hlimits
    exact ⟨ofContents_eq_ok_iff.2 ⟨h.leading hcount, hcontents, hfits⟩,
      startsWith_leading oid count, hcontents⟩
  · intro hpos hinside
    rcases houtcome with ⟨hzero, -⟩ | htruncated | ⟨count, hboundary, -⟩
    · omega
    · exact htruncated
    · exact absurd hboundary (hinside count)
  · rcases houtcome with ⟨-, hread⟩ | hread | ⟨count, -, hread⟩
    · rw [hread]
      simp
    · rw [hread]
      simp
    · rw [hread]
      simpa using startsWith_leading oid count

/-- The contents `2A 81 80 00` of `1.2.16384`, cut off behind an empty group and behind `2A`. -/
theorem ofContents_of_cut_contents_behind_empty_group :
    Valid ⟨[⟨[1]⟩, ⟨[2]⟩, ⟨[16384]⟩]⟩ ∧
    contents ⟨[⟨[1]⟩, ⟨[2]⟩, ⟨[16384]⟩]⟩ = [0x2A, 0x81, 0x80, 0x00] ∧
    ofContents ⟨3, 0⟩ [0x2A, 0x81, 0x80] = .error .truncated ∧
    ofContents ⟨1, 0⟩ [0x2A] = .ok ⟨[⟨[1]⟩, ⟨[2]⟩]⟩ := by
  have hvalid : Valid ⟨[⟨[1]⟩, ⟨[2]⟩, ⟨[16384]⟩]⟩ := by decide
  have hcontents :
      contents ⟨[⟨[1]⟩, ⟨[2]⟩, ⟨[16384]⟩]⟩ = [0x2A, 0x81, 0x80, 0x00] := by
    decide +kernel
  have hinside : ∀ count, 3 ≠ boundary ⟨[⟨[1]⟩, ⟨[2]⟩, ⟨[16384]⟩]⟩ count := by
    intro count
    match count with
    | 0 => decide
    | 1 => decide +kernel
    | more + 2 =>
      rw [boundary, List.take_of_length_le (Nat.le_add_left 2 more)]
      decide +kernel
  have hlong := ofContents_of_cut_contents hvalid ⟨3, 0⟩ 3
    (by rw [hcontents]; decide) (Nat.le_refl _)
  have hshort := ofContents_of_cut_contents hvalid ⟨1, 0⟩ 1
    (by rw [hcontents]; decide) (Nat.le_refl _)
  rw [hcontents] at hlong hshort
  exact ⟨hvalid, hcontents, hlong.2.2.1 (by decide) hinside,
    (hshort.2.1 1 (by decide) (by decide +kernel)).1⟩

end Oid

end DerContents
