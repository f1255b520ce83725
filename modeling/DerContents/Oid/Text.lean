import DerContents.Arc.Decimal
import DerContents.Oid.Basic

/-!
# Dotted text

An object identifier is written as the numerals of its arcs with a dot between them.
No other spelling is read.
-/

namespace DerContents

namespace Oid

def dotted (oid : Oid) : List Char :=
  ['.'].intercalate (oid.arcs.map Arc.digits)

def text (oid : Oid) : String :=
  String.ofList oid.dotted

def readSegment (segment : List Char) : Except ParseError Arc :=
  match Arc.ofDigits? segment with
  | some arc => .ok arc
  | none => .error (.invalidArc (String.ofList segment))

/-- Read a text; its length counts in UTF-8 octets, and the first bad segment is reported. -/
def ofText (limits : Limits) (text : String) : Except ParseError Oid :=
  if text = "" then
    .error .empty
  else if limits.maxTextLength < text.utf8ByteSize then
    .error .tooLong
  else
    (text.toList.splitOn '.').mapM readSegment >>= ofArcs limits

def inspectArcs (oid : Oid) : String :=
  "Arcs \x7b arcs: [" ++ String.intercalate ", " (oid.arcs.map Arc.inspect) ++ "] \x7d"

def inspect (oid : Oid) : String :=
  "Oid \x7b arcs: " ++ oid.inspectArcs ++ " \x7d"

end Oid

end DerContents
