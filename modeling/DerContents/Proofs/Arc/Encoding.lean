import DerContents.Proofs.Arc.Base128
import DerContents.Proofs.Base128.Encoding
import Mathlib.Order.Bounds.Basic

/-!
# The encoding of an arc

An arc is written behind other octets, one octet at a time, and read back by taking up
one octet at a time.  What is written are the digits of its number in base 128, as few as
suffice, and reading them back gives the same arc.
-/

namespace DerContents

namespace Base128

/-- The digits of a number in base 128, the most significant first; zero has one. -/
def groups (number : Nat) : List Nat :=
  if number = 0 then [0] else (Nat.digits 128 number).reverse

theorem groups_of_ne_zero {number : Nat} (h : number ≠ 0) :
    groups number = (Nat.digits 128 (number / 128)).reverse ++ [number % 128] := by
  rw [groups, if_neg h, Nat.digits_def' (by omega) (Nat.pos_of_ne_zero h), List.reverse_cons]

theorem low_bits_of_digit {digit : Nat} (h : digit < 128) :
    (UInt8.ofNat (digit + 128) &&& 0x7F).toNat = digit := by
  rw [toNat_low_bits, UInt8.toNat_ofNat']
  omega

theorem map_low_bits_continued (number : Nat) :
    ((continued number).map fun octet => (octet &&& 0x7F).toNat) =
      (Nat.digits 128 number).reverse := by
  rw [continued, List.map_map]
  apply map_eq_self
  intro digit hmem
  exact low_bits_of_digit (Nat.digits_lt_base (by omega) (List.mem_reverse.1 hmem))

theorem map_low_bits_shortest (number : Nat) :
    ((shortest number).map fun octet => (octet &&& 0x7F).toNat) = groups number := by
  by_cases hzero : number = 0
  · rw [hzero]
    simp [shortest, groups]
  · rw [groups_of_ne_zero hzero, shortest, List.map_append, map_low_bits_continued,
      List.map_singleton, toNat_low_bits, toNat_last_group, Nat.mod_mod]

end Base128

namespace Arc

open Base128

/-- The octets of the groups below an index written behind a target, the highest group first. -/
def writeGroups (arc : Arc) (target : Octets) : Nat → Octets
  | 0 => target
  | index + 1 => arc.writeGroups (target ++ [arc.groupOctet index]) index

def writeBase128 (arc : Arc) (target : Octets) : Octets :=
  arc.writeGroups target arc.base128Length

theorem writeGroups_eq (arc : Arc) (target : Octets) (count : Nat) :
    arc.writeGroups target count =
      target ++ (List.range count).reverse.map arc.groupOctet := by
  induction count generalizing target with
  | zero => simp [writeGroups]
  | succ index ih => simp [writeGroups, ih, List.range_succ]

theorem writeBase128_eq (arc : Arc) (target : Octets) :
    arc.writeBase128 target = target ++ arc.base128 :=
  writeGroups_eq arc target arc.base128Length

def appendGroup (read : Arc) (octet : UInt8) : Arc :=
  read.mulAdd 0x80 (octet &&& 0x7F).toUInt32

theorem appendGroup_ofNat (read : Nat) (octet : UInt8) :
    appendGroup (ofNat read) octet = ofNat (read * 128 + octet.toNat % 128) := by
  rw [appendGroup, mulAdd_eq, toNat_ofNat, toNat_low_groups]
  rfl

theorem foldl_appendGroup (read : Nat) (octets : Octets) :
    octets.foldl appendGroup (ofNat read) = ofNat (numberFrom read octets) := by
  induction octets generalizing read with
  | nil => rfl
  | cons octet rest ih =>
    rw [List.foldl_cons, appendGroup_ofNat, ih]
    rfl

theorem Normal.isLeast_base128Length {arc : Arc} (h : arc.Normal) :
    IsLeast {length | 1 ≤ length ∧ arc.toNat < 128 ^ length} arc.base128Length := by
  have hpos := arc.base128Length_pos
  constructor
  · exact ⟨hpos, (h.base128Length_le_iff hpos).1 (Nat.le_refl _)⟩
  · intro length hlength
    exact (h.base128Length_le_iff hlength.1).2 hlength.2

/--
An arc is written behind any target in the fewest octets that its number leaves room for.
They hold the digits of the number in base 128, follow the rule for the octets of a
number, and give the arc again when they are read.
-/
theorem writeBase128_is_exact_and_minimal {arc : Arc} (h : arc.Normal) (target : Octets) :
    arc.writeBase128 target = target ++ arc.base128 ∧
    arc.base128.length = arc.base128Length ∧
    IsLeast {length | 1 ≤ length ∧ arc.toNat < 128 ^ length} arc.base128Length ∧
    (arc.base128.map fun octet => (octet &&& 0x7F).toNat) = groups arc.toNat ∧
    (∀ octet ∈ arc.base128.dropLast, 0x80 ≤ octet) ∧
    (∃ last, arc.base128.getLast? = some last ∧ last < 0x80) ∧
    arc.base128.head? ≠ some 0x80 ∧
    arc.base128.foldl appendGroup zero = arc := by
  have hform : arc.base128 = shortest arc.toNat := h.base128_eq
  -- The high bits and the first octet are what the rule for a number says of its octets.
  have hrule : Encodes arc.base128 arc.toNat := encodes_iff.2 hform
  have hdigits : (arc.base128.map fun octet => (octet &&& 0x7F).toNat) = groups arc.toNat := by
    rw [hform, map_low_bits_shortest]
  have hread : arc.base128.foldl appendGroup zero = arc := by
    rw [zero_eq, foldl_appendGroup, ← number, hrule.number_eq, h.ofNat_toNat]
  exact ⟨writeBase128_eq arc target, length_base128 arc, h.isLeast_base128Length, hdigits,
    hrule.continuing, hrule.ending, hrule.head_ne, hread⟩

/-- Three bits far apart: groups that begin in one limb and end in the next, most of them empty. -/
theorem writeBase128_over_limb_boundaries :
    Normal ⟨[1, 0x80000000, 0, 2]⟩ ∧
    writeBase128 ⟨[1, 0x80000000, 0, 2]⟩ [0x06, 0x10] =
      [0x06, 0x10, 0xC0, 0x80, 0x80, 0x80, 0x81, 0x80, 0x80, 0x80, 0x80, 0x80, 0x80, 0x80, 0x80,
        0x01] ∧
    IsLeast {length | 1 ≤ length ∧ toNat ⟨[1, 0x80000000, 0, 2]⟩ < 128 ^ length} 14 ∧
    [0xC0, 0x80, 0x80, 0x80, 0x81, 0x80, 0x80, 0x80, 0x80, 0x80, 0x80, 0x80, 0x80,
      0x01].foldl appendGroup zero = ⟨[1, 0x80000000, 0, 2]⟩ := by
  have hnormal : Normal ⟨[1, 0x80000000, 0, 2]⟩ := by decide
  have hoctets : base128 ⟨[1, 0x80000000, 0, 2]⟩ =
      [0xC0, 0x80, 0x80, 0x80, 0x81, 0x80, 0x80, 0x80, 0x80, 0x80, 0x80, 0x80, 0x80, 0x01] := by
    decide +kernel
  rcases writeBase128_is_exact_and_minimal hnormal [0x06, 0x10] with
    ⟨hwritten, hlength, hleast, -, -, -, -, hread⟩
  rw [hoctets] at hwritten hlength hread
  rw [← hlength] at hleast
  exact ⟨hnormal, hwritten, hleast, hread⟩

end Arc

end DerContents
