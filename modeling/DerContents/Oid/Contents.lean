import DerContents.Oid.Basic

/-!
# Contents octets

The contents of an object identifier are its subidentifiers in base 128, one after
the other.  Every subidentifier has the fewest octets, so none starts with `80`.
Values below 80 of the first subidentifier belong to the first arcs 0 and 1, all
others to 2.
-/

namespace DerContents

namespace Oid

def contents (oid : Oid) : Octets :=
  oid.subidentifiers.flatMap Arc.base128

/--
Read subidentifiers up to the end of the octets, the groups in `current` already read.
`atStart` says that the next octet starts a subidentifier.  A start with an empty group
is reported unless no octet follows it.
-/
def readSubidentifiers (current : Arc) (atStart : Bool) :
    Octets → Except DecodeError (List Arc)
  | [] => if atStart then .ok [] else .error .truncated
  | octet :: rest =>
    if atStart ∧ octet = 0x80 ∧ rest ≠ [] then
      .error .nonMinimal
    else
      let value := current.mulAdd 0x80 (octet &&& 0x7F).toUInt32
      if octet &&& 0x80 = 0 then
        (readSubidentifiers Arc.zero true rest).map (value :: ·)
      else
        readSubidentifiers value false rest

def unpack (packed : Arc) : List Arc :=
  match packed.subWord? 80 with
  | some second => [Arc.ofUInt8 2, second]
  | none =>
    let value := packed.toUInt32?.getD 0
    [Arc.ofUInt32 (value / 40), Arc.ofUInt32 (value % 40)]

def ofSubidentifiers (limits : Limits) : List Arc → Except DecodeError Oid
  | [] => .error .invalidStructure
  | packed :: rest =>
    (ofArcs limits (unpack packed ++ rest)).mapError fun _ => .invalidStructure

/-- Read contents; their length is checked before anything else of them. -/
def ofContents (limits : Limits) (octets : Octets) : Except DecodeError Oid :=
  if octets = [] then
    .error .empty
  else if limits.maxOctets < octets.length then
    .error .tooLong
  else
    readSubidentifiers Arc.zero true octets >>= ofSubidentifiers limits

theorem length_contents (oid : Oid) : oid.contents.length = oid.encodedLength := by
  unfold contents encodedLength
  induction oid.subidentifiers with
  | nil => rfl
  | cons arc rest ih =>
    rw [List.flatMap_cons, List.length_append, Arc.length_base128, ih, List.foldr_cons]

end Oid

end DerContents
