import DerContents.Basic
import Mathlib.Data.Nat.Digits.Lemmas

/-!
# Numbers in base 128

A number is written in groups of seven bits, the most significant first.  In its
shortest form the first group is not empty unless it is the only one, and every octet
but the last has its high bit set, so a row of octets is cut into numbers after every
octet below `80`.
-/

namespace DerContents

namespace Base128

/-- The groups of a number in octets with the high bit set; zero has none. -/
def continued (number : Nat) : Octets :=
  (Nat.digits 128 number).reverse.map fun group => UInt8.ofNat (group + 128)

/-- The form of a number with the fewest octets; only the last has the high bit clear. -/
def shortest (number : Nat) : Octets :=
  continued (number / 128) ++ [UInt8.ofNat (number % 128)]

/-- The number that the groups of some octets make behind those already read. -/
def numberFrom (read : Nat) (octets : Octets) : Nat :=
  octets.foldl (fun value octet => value * 128 + octet.toNat % 128) read

/-- The number that octets denote, most significant group first. -/
def number (octets : Octets) : Nat :=
  numberFrom 0 octets

/-- Octets in pieces, cut after every octet below `80`. -/
def cut : Octets → List Octets
  | [] => []
  | octet :: rest =>
    if octet < 0x80 then
      [octet] :: cut rest
    else
      match cut rest with
      | [] => [[octet]]
      | piece :: pieces => (octet :: piece) :: pieces

/-! ### One more group -/

@[simp] theorem continued_zero : continued 0 = [] := by
  simp [continued]

theorem continued_snoc {number group : Nat} (hgroup : group < 128)
    (hne : number ≠ 0 ∨ group ≠ 0) :
    continued (number * 128 + group) = continued number ++ [UInt8.ofNat (group + 128)] := by
  have hdigits := Nat.digits_add 128 (by omega) group number hgroup (by omega)
  rw [show number * 128 + group = group + 128 * number by omega, continued, hdigits]
  simp [continued]

theorem continued_of_ne_zero {number : Nat} (h : number ≠ 0) :
    continued number = continued (number / 128) ++ [UInt8.ofNat (number % 128 + 128)] := by
  have hsplit : number / 128 * 128 + number % 128 = number := Nat.div_add_mod' number 128
  have hsnoc : continued (number / 128 * 128 + number % 128) = _ :=
    continued_snoc (Nat.mod_lt number (by omega)) (by omega)
  rwa [hsplit] at hsnoc

theorem shortest_snoc {number group : Nat} (hgroup : group < 128) :
    shortest (number * 128 + group) = continued number ++ [UInt8.ofNat group] := by
  have hhigh : (number * 128 + group) / 128 = number := by omega
  have hlow : (number * 128 + group) % 128 = group := by omega
  rw [shortest, hhigh, hlow]

theorem shortest_group (read : Nat) {octet : UInt8} (h : octet < 0x80) :
    shortest (read * 128 + octet.toNat % 128) = continued read ++ [octet] := by
  have hlt : octet.toNat < 128 := h
  rw [Nat.mod_eq_of_lt hlt, shortest_snoc hlt, UInt8.ofNat_toNat]

theorem continued_group {read : Nat} {octet : UInt8} (h : ¬ octet < 0x80)
    (hne : read ≠ 0 ∨ octet ≠ 0x80) :
    continued (read * 128 + octet.toNat % 128) = continued read ++ [octet] := by
  have hle : 128 ≤ octet.toNat := Nat.not_lt.1 h
  have hlt := octet.toNat_lt
  have hgroup : octet.toNat % 128 + 128 = octet.toNat := by omega
  have hnonzero : octet ≠ 0x80 → octet.toNat % 128 ≠ 0 := by
    intro hne hzero
    exact hne (UInt8.toNat_inj.1 (show octet.toNat = 128 by omega))
  rw [continued_snoc (Nat.mod_lt _ (by omega)) (hne.imp_right hnonzero), hgroup,
    UInt8.ofNat_toNat]

theorem toNat_last_group (number : Nat) :
    (UInt8.ofNat (number % 128)).toNat = number % 128 := by
  rw [UInt8.toNat_ofNat']
  omega

theorem last_group_lt (number : Nat) : UInt8.ofNat (number % 128) < 0x80 := by
  rw [UInt8.lt_iff_toNat_lt, toNat_last_group]
  exact Nat.mod_lt number (by decide)

theorem shortest_ne_nil (number : Nat) : shortest number ≠ [] := by
  simp [shortest]

theorem flatMap_shortest_ne_nil {numbers : List Nat} (h : numbers ≠ []) :
    numbers.flatMap shortest ≠ [] := by
  cases numbers with
  | nil => exact absurd rfl h
  | cons number rest =>
    exact List.append_ne_nil_of_left_ne_nil (shortest_ne_nil number) _

/-! ### The number read back -/

theorem toNat_low_bits (octet : UInt8) : (octet &&& 0x7F).toNat = octet.toNat % 128 := by
  rw [UInt8.toNat_and, show (0x7F : UInt8).toNat = 2 ^ 7 - 1 from rfl,
    Nat.and_two_pow_sub_one_eq_mod]

theorem toNat_low_groups (octet : UInt8) :
    (octet &&& 0x7F).toUInt32.toNat = octet.toNat % 128 := by
  rw [UInt8.toNat_toUInt32, toNat_low_bits]

theorem number_snoc (high : Octets) (last : UInt8) :
    number (high ++ [last]) = number high * 128 + last.toNat % 128 := by
  simp [number, numberFrom, List.foldl_append]

theorem number_continued (value : Nat) : number (continued value) = value := by
  induction value using Nat.strongRecOn with
  | ind value ih =>
    by_cases hzero : value = 0
    · rw [hzero, continued_zero]
      rfl
    · rw [continued_of_ne_zero hzero, number_snoc, ih (value / 128) (by omega),
        UInt8.toNat_ofNat']
      omega

theorem number_shortest (value : Nat) : number (shortest value) = value := by
  rw [shortest, number_snoc, number_continued, toNat_last_group]
  omega

theorem shortest_injective {a b : Nat} (h : shortest a = shortest b) : a = b := by
  rw [← number_shortest a, h, number_shortest]

/-! ### Length -/

theorem length_shortest (number : Nat) :
    (shortest number).length = (Nat.digits 128 (number / 128)).length + 1 := by
  simp [shortest, continued]

/-- A form of at least one octet suffices exactly for the numbers below its power of 128. -/
theorem length_shortest_le_iff {number length : Nat} (hlength : 0 < length) :
    (shortest number).length ≤ length ↔ number < 128 ^ length := by
  obtain ⟨length, rfl⟩ := Nat.exists_eq_succ_of_ne_zero (Nat.ne_of_gt hlength)
  rw [length_shortest, Nat.succ_eq_add_one, Nat.add_le_add_iff_right,
    Nat.digits_length_le_iff (by omega), Nat.div_lt_iff_lt_mul (by omega), pow_succ]

theorem length_shortest_pos (number : Nat) : 0 < (shortest number).length :=
  List.length_pos_iff.2 (shortest_ne_nil number)

theorem lt_pow_length_shortest (number : Nat) : number < 128 ^ (shortest number).length :=
  (length_shortest_le_iff (length_shortest_pos number)).1 (Nat.le_refl _)

theorem pow_le_of_lt_length_shortest {number length : Nat} (hlength : 0 < length)
    (h : length < (shortest number).length) : 128 ^ length ≤ number := by
  apply Nat.le_of_not_lt
  rw [← length_shortest_le_iff hlength]
  exact Nat.not_le.2 h

theorem lt_of_length_shortest_lt {a b : Nat} (h : (shortest a).length < (shortest b).length) :
    a < b :=
  Nat.lt_of_lt_of_le (lt_pow_length_shortest a)
    (pow_le_of_lt_length_shortest (length_shortest_pos a) h)

theorem digits_eq_map_range (number : Nat) :
    Nat.digits 128 number =
      (List.range (Nat.digits 128 number).length).map fun index => number / 128 ^ index % 128 := by
  apply List.ext_getElem
  · simp
  · intro index hleft hright
    have hdigit := Nat.getD_digits number index (show 2 ≤ 128 by omega)
    rw [List.getElem_map, List.getElem_range, ← hdigit,
      List.getD_eq_getElem?_getD, List.getElem?_eq_getElem hleft, Option.getD_some]

/-! ### Cutting -/

theorem cut_cons_of_lt {octet : UInt8} {rest : Octets} (h : octet < 0x80) :
    cut (octet :: rest) = [octet] :: cut rest := by
  rw [cut, if_pos h]

theorem cut_cons_of_not_lt {octet : UInt8} {rest piece : Octets} {pieces : List Octets}
    (h : ¬ octet < 0x80) (hrest : cut rest = piece :: pieces) :
    cut (octet :: rest) = (octet :: piece) :: pieces := by
  rw [cut, if_neg h, hrest]

theorem cut_ne_nil {octets : Octets} (h : octets ≠ []) : cut octets ≠ [] := by
  cases octets with
  | nil => exact absurd rfl h
  | cons octet rest =>
    unfold cut
    split
    · exact List.cons_ne_nil _ _
    · split <;> exact List.cons_ne_nil _ _

theorem not_lt_of_mem_continued {number : Nat} {octet : UInt8}
    (h : octet ∈ continued number) : ¬ octet < 0x80 := by
  obtain ⟨group, hgroup, rfl⟩ := List.mem_map.1 h
  have hlt : group < 128 := Nat.digits_lt_base (by omega) (List.mem_reverse.1 hgroup)
  rw [UInt8.lt_iff_toNat_lt, UInt8.toNat_ofNat', Nat.mod_eq_of_lt (by omega)]
  exact Nat.not_lt.2 (Nat.le_add_left 128 group)

/-- A piece is cut off behind its only octet below `80`. -/
theorem cut_append {high rest : Octets} {last : UInt8} (hhigh : ∀ octet ∈ high, ¬ octet < 0x80)
    (hlast : last < 0x80) : cut (high ++ last :: rest) = (high ++ [last]) :: cut rest := by
  induction high with
  | nil => exact cut_cons_of_lt hlast
  | cons octet high ih =>
    have hmore := ih fun other hmem => hhigh other (List.mem_cons_of_mem octet hmem)
    exact cut_cons_of_not_lt (hhigh octet List.mem_cons_self) hmore

theorem cut_shortest_append (number : Nat) (rest : Octets) :
    cut (shortest number ++ rest) = shortest number :: cut rest := by
  rw [shortest, List.append_assoc, List.singleton_append]
  exact cut_append (fun _ => not_lt_of_mem_continued) (last_group_lt number)

theorem cut_flatMap_shortest (numbers : List Nat) :
    cut (numbers.flatMap shortest) = numbers.map shortest := by
  induction numbers with
  | nil => rfl
  | cons number rest ih =>
    rw [List.flatMap_cons, cut_shortest_append, ih, List.map_cons]

/-- The end of a number shows in its last octet, so rows begin alike as their numbers do. -/
theorem flatMap_shortest_isPrefix_iff {numbers others : List Nat} :
    numbers.flatMap shortest <+: others.flatMap shortest ↔ numbers <+: others := by
  induction numbers generalizing others with
  | nil => simp
  | cons number rest ih =>
    cases others with
    | nil =>
      have hne := flatMap_shortest_ne_nil (List.cons_ne_nil number rest)
      simp only [List.flatMap_nil, List.prefix_nil, hne, List.cons_ne_nil]
    | cons other more =>
      constructor
      · intro h
        rcases h with ⟨tail, htail⟩
        rw [List.flatMap_cons, List.flatMap_cons, List.append_assoc] at htail
        have hcut : shortest number :: cut (rest.flatMap shortest ++ tail) =
            shortest other :: cut (more.flatMap shortest) := by
          rw [← cut_shortest_append, htail, cut_shortest_append]
        have hsame : number = other := shortest_injective (List.cons.inj hcut).1
        rw [hsame] at htail ⊢
        exact List.cons_prefix_cons.2 ⟨rfl, ih.1 ⟨tail, List.append_cancel_left htail⟩⟩
      · intro h
        rcases List.cons_prefix_cons.1 h with ⟨rfl, hrest⟩
        rw [List.flatMap_cons, List.flatMap_cons, List.prefix_append_right_inj]
        exact ih.2 hrest

/-- The numbers of the pieces, the first of them behind groups already read. -/
def numbersFrom (read : Nat) (octets : Octets) : List Nat :=
  match cut octets with
  | [] => []
  | piece :: pieces => numberFrom read piece :: pieces.map number

theorem numbersFrom_zero (octets : Octets) : numbersFrom 0 octets = (cut octets).map number := by
  unfold numbersFrom
  cases cut octets with
  | nil => rfl
  | cons piece pieces => rfl

theorem numbersFrom_cons_of_lt (read : Nat) {octet : UInt8} {rest : Octets}
    (h : octet < 0x80) :
    numbersFrom read (octet :: rest) =
      (read * 128 + octet.toNat % 128) :: numbersFrom 0 rest := by
  rw [numbersFrom_zero, numbersFrom, cut_cons_of_lt h]
  rfl

theorem numbersFrom_cons_of_not_lt (read : Nat) {octet : UInt8} {rest : Octets}
    (h : ¬ octet < 0x80) (hrest : rest ≠ []) :
    numbersFrom read (octet :: rest) = numbersFrom (read * 128 + octet.toNat % 128) rest := by
  cases hcut : cut rest with
  | nil => exact absurd hcut (cut_ne_nil hrest)
  | cons piece pieces =>
    rw [numbersFrom, cut_cons_of_not_lt h hcut, numbersFrom, hcut]
    rfl

end Base128

end DerContents
