/-!
# Octets, limits and errors

What reading and writing share: rows of octets, the limits that reading is subject to,
since object identifiers are unbounded, and the reasons why something is not read.
Whatever is ordered can be brought into ascending order.
-/

namespace DerContents

abbrev Octets := List UInt8

structure Limits where
  maxOctets : Nat
  maxTextLength : Nat
deriving DecidableEq, Repr

namespace Limits

def standard : Limits := ⟨1024, 4096⟩

/-- The largest bound that can be asked for, a 64-bit word. -/
def largest : Nat := 0xFFFFFFFFFFFFFFFF

/-- Bounds that nothing in memory exceeds. -/
def unlimited : Limits := ⟨largest, largest⟩

instance : LE Limits where
  le narrow wide :=
    narrow.maxOctets ≤ wide.maxOctets ∧ narrow.maxTextLength ≤ wide.maxTextLength

theorem le_iff {narrow wide : Limits} :
    narrow ≤ wide ↔
      narrow.maxOctets ≤ wide.maxOctets ∧ narrow.maxTextLength ≤ wide.maxTextLength :=
  Iff.rfl

instance (narrow wide : Limits) : Decidable (narrow ≤ wide) :=
  decidable_of_iff' _ le_iff

end Limits

/-- An invalid arc is reported with the segment between dots that is no numeral. -/
inductive ParseError where
  | empty
  | invalidArc (segment : String)
  | tooFewArcs
  | firstArcOutOfRange
  | secondArcOutOfRange
  | tooLong
deriving DecidableEq, Repr

/-- Truncated octets end inside a subidentifier; a non-minimal one starts with an empty group. -/
inductive DecodeError where
  | empty
  | truncated
  | nonMinimal
  | invalidStructure
  | invalidUtf8
  | tooLong
deriving DecidableEq, Repr

def ParseError.message : ParseError → String
  | .empty => "empty object identifier"
  | .invalidArc segment => "invalid component '" ++ segment ++ "'"
  | .tooFewArcs => "at least two components required"
  | .firstArcOutOfRange => "first component can only be 0, 1, or 2"
  | .secondArcOutOfRange => "second component for 0. and 1. must be less than 40"
  | .tooLong => "object identifier too long"

def DecodeError.message : DecodeError → String
  | .empty => "empty contents"
  | .truncated => "unexpected end of data"
  | .nonMinimal => "non-minimal subidentifier encoding"
  | .invalidStructure => "invalid object identifier"
  | .invalidUtf8 => "invalid UTF-8"
  | .tooLong => "contents too long"

/-- The elements in ascending order; equal ones keep their places. -/
def ascending {α : Type} [Ord α] (items : List α) : List α :=
  items.mergeSort fun a b => (compare a b).isLE

def distinctCount {α : Type} [BEq α] (items : List α) : Nat :=
  items.eraseDups.length

theorem length_ascending {α : Type} [Ord α] (items : List α) :
    (ascending items).length = items.length :=
  List.length_mergeSort items

theorem perm_ascending {α : Type} [Ord α] (items : List α) : (ascending items).Perm items :=
  List.mergeSort_perm items _

end DerContents
