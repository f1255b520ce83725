import DerContents.Arc.Basic
import DerContents.Basic

/-!
# Base 128

An arc is encoded in groups of seven bits, the most significant group first.  Every
octet but the last has its high bit set.  There are as many groups as the number has
significant bits for, and one for zero, so no encoding starts with an empty group.
-/

namespace DerContents

namespace Arc

/-- The number of groups of the encoding. -/
def base128Length (arc : Arc) : Nat :=
  max 1 ((arc.limbs.bitLength + 6) / 7)

/--
The seven bits with the given index, index zero being the least significant.  A group
that starts above bit 25 of its limb goes on in the next one.
-/
def group (arc : Arc) (index : Nat) : UInt8 :=
  let limb := index * 7 / 32
  let shift := index * 7 % 32
  let low := (arc.limbs.limbAt limb).toUInt64 >>> shift.toUInt64
  let value :=
    if 25 < shift then
      low ||| (arc.limbs.limbAt (limb + 1)).toUInt64 <<< (32 - shift).toUInt64
    else
      low
  (value &&& 0x7F).toUInt8

def groupOctet (arc : Arc) (index : Nat) : UInt8 :=
  if index = 0 then arc.group index else arc.group index ||| 0x80

def base128 (arc : Arc) : Octets :=
  (List.range arc.base128Length).reverse.map arc.groupOctet

@[simp] theorem length_base128 (arc : Arc) : arc.base128.length = arc.base128Length := by
  simp [base128]

theorem base128Length_pos (arc : Arc) : 0 < arc.base128Length := by
  unfold base128Length
  omega

end Arc

end DerContents
