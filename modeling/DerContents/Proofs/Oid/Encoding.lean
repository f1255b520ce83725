import DerContents.Proofs.Base128.Encoding
import DerContents.Proofs.Oid.Contents

/-!
# Contents by the rule

The contents of an identifier are the encodings of its numbers one after the other, each
by the rule for one number.  Their length is known from the bit lengths of the numbers
before any octet is written, and no fewer octets are read as the same identifier.
-/

namespace DerContents

namespace Oid

open Base128

theorem Valid.encodedLength_eq {oid : Oid} (h : oid.Valid) :
    oid.encodedLength = (oid.packed.map fun number => max 1 ((number.size + 6) / 7)).sum := by
  have hlength (number : Nat) :
      (Arc.ofNat number).base128Length = max 1 ((number.size + 6) / 7) := by
    rw [(Arc.normal_ofNat number).base128Length_eq_size, Arc.toNat_ofNat]
  unfold encodedLength
  rw [h.subidentifiers_eq, List.foldr_map]
  simp only [hlength, List.sum_eq_foldr, List.foldr_map]

theorem forall₂_encodes_shortest (numbers : List Nat) :
    List.Forall₂ Encodes (numbers.map shortest) numbers := by
  rw [List.forall₂_map_left_iff]
  exact List.forall₂_same.2 fun number _ => encodes_shortest number

/--
The contents of an identifier encode the number that its first two arcs share, and then
every other arc, in order and each by the rule for one number, which leaves one form to
each and none of fewer octets.  The length is that computed from bit lengths, and no
fewer octets are read as the identifier, whatever the limits.
-/
theorem contents_follow_rule {oid : Oid} (h : oid.Valid) :
    (∃ first second rest, oid.arcs = first :: second :: rest ∧
      (∃ forms, oid.contents = forms.flatten ∧
        List.Forall₂ Encodes forms
          ((40 * first.toNat + second.toNat) :: rest.map Arc.toNat)) ∧
      oid.encodedLength =
        (((40 * first.toNat + second.toNat) :: rest.map Arc.toNat).map fun number =>
          max 1 ((number.size + 6) / 7)).sum) ∧
    (∀ form value, Encodes form value →
      (∀ other, Encodes other value → other = form) ∧
      ∀ octets, octets ≠ [] → number octets = value → form.length ≤ octets.length) ∧
    oid.contents.length = oid.encodedLength ∧
    ∀ limits octets, octets.length < oid.contents.length →
      ofContents limits octets ≠ .ok oid := by
  refine ⟨?_, ?_, length_contents oid, ?_⟩
  · have hcontents := h.contents_eq
    have hlength := h.encodedLength_eq
    obtain ⟨first, second, rest, rfl⟩ := h.exists_cons
    rw [packed_cons] at hcontents hlength
    refine ⟨first, second, rest, rfl, ⟨_, ?_, forall₂_encodes_shortest _⟩, hlength⟩
    rw [hcontents, List.flatMap_def]
  · intro form value hform
    refine ⟨?_, fun octets => hform.length_le⟩
    intro other hother
    rw [encodes_iff.1 hform, encodes_iff.1 hother]
  · intro limits octets hfewer hread
    rw [(ofContents_eq_ok_iff.1 hread).2.1] at hfewer
    exact Nat.lt_irrefl _ hfewer

/-- The first two arcs of `2.34359738288` share `2^35`: a carry, and one group more than
`2^35 - 1` has. -/
theorem contents_follow_rule_over_a_carry :
    Valid ⟨[⟨[2]⟩, ⟨[4294967216, 7]⟩]⟩ ∧
    contents ⟨[⟨[2]⟩, ⟨[4294967216, 7]⟩]⟩ = [0x81, 0x80, 0x80, 0x80, 0x80, 0x00] ∧
    encodedLength ⟨[⟨[2]⟩, ⟨[4294967216, 7]⟩]⟩ = 6 ∧
    ∀ limits octets, octets.length < 6 →
      ofContents limits octets ≠ .ok ⟨[⟨[2]⟩, ⟨[4294967216, 7]⟩]⟩ := by
  have hvalid : Valid ⟨[⟨[2]⟩, ⟨[4294967216, 7]⟩]⟩ := by decide
  have hcontents : contents ⟨[⟨[2]⟩, ⟨[4294967216, 7]⟩]⟩ =
      [0x81, 0x80, 0x80, 0x80, 0x80, 0x00] := by decide +kernel
  obtain ⟨-, -, hlength, hfewer⟩ := contents_follow_rule hvalid
  rw [hcontents] at hlength hfewer
  exact ⟨hvalid, hcontents, hlength.symm, hfewer⟩

end Oid

end DerContents
