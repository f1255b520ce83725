import DerContents.Arc.Base128
import DerContents.Arc.Arithmetic

/-!
# Object identifiers

An object identifier is a list of at least two arcs.  The first is 0, 1 or 2, and
below 0 and 1 the second is at most 39; this lets the first two share one
subidentifier of the encoding.  Text, contents and lists of arcs all go through
`Oid.ofArcs`, which checks these rules.
-/

namespace DerContents

/-- A list of arcs; the valid ones are object identifiers. -/
structure Oid where
  arcs : List Arc
deriving DecidableEq, Repr

namespace Oid

/-- The rules of object identifiers, and every arc in normal form. -/
def Valid (oid : Oid) : Prop :=
  (∀ arc ∈ oid.arcs, arc.Normal) ∧
    match oid.arcs with
    | first :: second :: _ =>
      first.toNat ≤ 2 ∧ (first.toNat < 2 → second.toNat < 40)
    | _ => False

instance (oid : Oid) : Decidable oid.Valid := by
  unfold Valid
  split <;> infer_instance

def first? (oid : Oid) : Option Arc :=
  oid.arcs[0]?

def second? (oid : Oid) : Option Arc :=
  oid.arcs[1]?

def length (oid : Oid) : Nat :=
  oid.arcs.length

def startsWith (oid root : Oid) : Bool :=
  root.arcs.isPrefixOf oid.arcs

protected def compare (a b : Oid) : Ordering :=
  compare a.arcs b.arcs

instance : Ord Oid := ⟨Oid.compare⟩

/-- The number that the first two arcs share.  The first arc of a valid identifier is a word. -/
def pack (first second : Arc) : Arc :=
  second.addWord (40 * first.toUInt32?.getD 2)

def subidentifiers (oid : Oid) : List Arc :=
  match oid.arcs with
  | first :: second :: rest => pack first second :: rest
  | _ => []

def encodedLength (oid : Oid) : Nat :=
  oid.subidentifiers.foldr (fun arc total => arc.base128Length + total) 0

def check : List Arc → Except ParseError Unit
  | first :: second :: _ =>
    match first.toUInt32? with
    | none => .error .firstArcOutOfRange
    | some value =>
      if 2 < value then
        .error .firstArcOutOfRange
      else if value < 2 ∧ compare second (Arc.ofUInt8 39) = .gt then
        .error .secondArcOutOfRange
      else
        .ok ()
  | _ => .error .tooFewArcs

def ofArcs (limits : Limits) (arcs : List Arc) : Except ParseError Oid := do
  check arcs
  if limits.maxOctets < encodedLength ⟨arcs⟩ then .error .tooLong else .ok ⟨arcs⟩

end Oid

end DerContents
