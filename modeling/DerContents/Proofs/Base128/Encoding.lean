import DerContents.Proofs.Base128

/-!
# The encoding of a number

The rule for octets that encode a number is stated on the octets alone: the number that
their groups make, where the high bit is set, and no empty group in front.  Each number
has one form that follows the rule, and no octets with the same groups are fewer.
-/

namespace DerContents

namespace Base128

/--
The rule for the octets of a number: its groups with the most significant first, the high
bit set in every octet but the last, and no empty group in front.
-/
structure Encodes (octets : Octets) (value : Nat) : Prop where
  number_eq : number octets = value
  continuing : ∀ octet ∈ octets.dropLast, 0x80 ≤ octet
  ending : ∃ last, octets.getLast? = some last ∧ last < 0x80
  head_ne : octets.head? ≠ some 0x80

theorem head?_concat_ne_iff {high : Octets} {last octet : UInt8} :
    (high ++ [last]).head? ≠ some octet ↔
      high.head? ≠ some octet ∧ (high = [] → last ≠ octet) := by
  cases high with
  | nil => simp
  | cons first rest => simp

theorem head?_continued_ne (value : Nat) : (continued value).head? ≠ some 0x80 := by
  induction value using Nat.strongRecOn with
  | ind value ih =>
    by_cases hzero : value = 0
    · simp [hzero]
    · rw [continued_of_ne_zero hzero, head?_concat_ne_iff]
      refine ⟨ih (value / 128) (by omega), ?_⟩
      intro hnil hlast
      have hhigh : value / 128 = 0 := by
        rw [← number_continued (value / 128), hnil]
        rfl
      have hgroup := congrArg UInt8.toNat hlast
      simp only [UInt8.toNat_ofNat', UInt8.reduceToNat] at hgroup
      omega

theorem encodes_shortest (value : Nat) : Encodes (shortest value) value where
  number_eq := number_shortest value
  continuing := by
    rw [shortest, List.dropLast_concat]
    intro octet hmem
    exact UInt8.not_lt.1 (not_lt_of_mem_continued hmem)
  ending := by
    refine ⟨UInt8.ofNat (value % 128), ?_, last_group_lt value⟩
    rw [shortest, List.getLast?_concat]
  head_ne := by
    rw [shortest, head?_concat_ne_iff]
    refine ⟨head?_continued_ne _, ?_⟩
    intro _ hlast
    exact absurd (hlast ▸ last_group_lt value) (by decide)

theorem continued_number {high : Octets} (hhigh : ∀ octet ∈ high, ¬ octet < 0x80)
    (hhead : high.head? ≠ some 0x80) : continued (number high) = high := by
  induction high using List.reverseRecOn with
  | nil => exact continued_zero
  | append_singleton high octet ih =>
    have hlast := hhigh octet (List.mem_append_right high (List.mem_singleton_self octet))
    rw [number_snoc]
    cases high with
    | nil =>
      have hne : octet ≠ 0x80 := by simpa using hhead
      rw [continued_group hlast (Or.inr hne)]
      simp [number, numberFrom]
    | cons first rest =>
      have hrest := ih (fun other hmem => hhigh other (List.mem_append_left _ hmem)) hhead
      have hne : number (first :: rest) ≠ 0 := by
        intro hzero
        rw [hzero, continued_zero] at hrest
        exact List.cons_ne_nil first rest hrest.symm
      rw [continued_group hlast (Or.inl hne), hrest]

theorem Encodes.eq_shortest {octets : Octets} {value : Nat} (h : Encodes octets value) :
    octets = shortest value := by
  rcases h.ending with ⟨last, hlast, hlow⟩
  have hsplit : octets.dropLast ++ [last] = octets := List.dropLast_append_getLast? last hlast
  have hhigh : ∀ octet ∈ octets.dropLast, ¬ octet < 0x80 := fun octet hmem =>
    UInt8.not_lt.2 (h.continuing octet hmem)
  have hhead := h.head_ne
  have hvalue := h.number_eq
  rw [← hsplit, head?_concat_ne_iff] at hhead
  rw [← hsplit, number_snoc] at hvalue
  rw [← hvalue, shortest_group _ hlow, continued_number hhigh hhead.1, hsplit]

/-- The rule determines the octets of a number, and every number has some. -/
theorem encodes_iff {octets : Octets} {value : Nat} :
    Encodes octets value ↔ octets = shortest value := by
  constructor
  · exact Encodes.eq_shortest
  · intro h
    rw [h]
    exact encodes_shortest value

theorem number_lt_pow (octets : Octets) : number octets < 128 ^ octets.length := by
  induction octets using List.reverseRecOn with
  | nil => exact Nat.one_pos
  | append_singleton high octet ih =>
    have hgroup : octet.toNat % 128 < 128 := Nat.mod_lt _ (by omega)
    rw [number_snoc, List.length_append, List.length_singleton, pow_succ]
    omega

theorem Encodes.length_le {form : Octets} {value : Nat} (h : Encodes form value)
    {octets : Octets} (hne : octets ≠ []) (hvalue : number octets = value) :
    form.length ≤ octets.length := by
  rw [h.eq_shortest, length_shortest_le_iff (List.length_pos_iff.2 hne), ← hvalue]
  exact number_lt_pow octets

end Base128

end DerContents
