import DerContents.Oid.Contents
import DerContents.Oid.Text

/-!
# Sources and sessions

An object identifier is made from its text, its contents or its arcs.  A session is what
calls have made so far.  Each call has limits of its own and makes an identifier from
given input or from the arcs, the contents and the text of identifiers at hand; a call
that fails leaves them as they are.
-/

namespace DerContents

inductive Source where
  | text (dotted : String)
  | contents (octets : Octets)
  | arcs (numbers : List Arc)
deriving DecidableEq, Repr

namespace Source

inductive Error where
  | parse (error : ParseError)
  | decode (error : DecodeError)
deriving DecidableEq, Repr

def make (limits : Limits) : Source → Except Error Oid
  | .text dotted => (Oid.ofText limits dotted).mapError .parse
  | .contents octets => (Oid.ofContents limits octets).mapError .decode
  | .arcs numbers => (Oid.ofArcs limits numbers).mapError .parse

end Source

/-- An identifier and the limits that it was made under. -/
structure Made where
  limits : Limits
  oid : Oid
deriving DecidableEq, Repr

/-- The identifiers made so far, the first of them in front. -/
abbrev Session := List Made

namespace Session

/-- An arc comes from a word of any width, from a numeral, or out of an identifier at hand. -/
inductive ArcInput where
  | word (value : UInt64)
  | numeral (text : String)
  | taken (origin index : Nat)
deriving DecidableEq, Repr

/-- Arcs put together one by one or from identifiers at hand, cut out, or with one replaced. -/
inductive ArcsInput where
  | empty
  | single (arc : ArcInput)
  | taken (origin : Nat)
  | joined (front back : ArcsInput)
  | cut (start length : Nat) (arcs : ArcsInput)
  | replaced (index : Nat) (arc : ArcInput) (arcs : ArcsInput)
deriving DecidableEq, Repr

/-- Any octets, or contents of identifiers at hand, joined and cut. -/
inductive OctetsInput where
  | given (octets : Octets)
  | encoded (origin : Nat)
  | joined (front back : OctetsInput)
  | cut (start length : Nat) (octets : OctetsInput)
deriving DecidableEq, Repr

inductive TextInput where
  | given (text : String)
  | written (origin : Nat)
deriving DecidableEq, Repr

inductive Input where
  | text (input : TextInput)
  | contents (input : OctetsInput)
  | arcs (input : ArcsInput)
deriving DecidableEq, Repr

structure Call where
  limits : Limits
  input : Input
deriving DecidableEq, Repr

/-- An input is missing when it names what is not at hand, or an arc by no numeral. -/
inductive Failure where
  | missing
  | refused (error : Source.Error)
deriving DecidableEq, Repr

section Evaluation

variable (session : Session)

def oid? (origin : Nat) : Option Oid :=
  session[origin]?.map Made.oid

def arc? : ArcInput → Option Arc
  | .word value => some (Arc.ofUInt64 value)
  | .numeral text => Arc.ofDecimal? text
  | .taken origin index => do (← session.oid? origin).arcs[index]?

def arcs? : ArcsInput → Option (List Arc)
  | .empty => some []
  | .single input => do return [← session.arc? input]
  | .taken origin => do return (← session.oid? origin).arcs
  | .joined front back => do return (← arcs? front) ++ (← arcs? back)
  | .cut start length input => do return ((← arcs? input).drop start).take length
  | .replaced index arc input => do return (← arcs? input).set index (← session.arc? arc)

def octets? : OctetsInput → Option Octets
  | .given octets => some octets
  | .encoded origin => do return (← session.oid? origin).contents
  | .joined front back => do return (← octets? front) ++ (← octets? back)
  | .cut start length input => do return ((← octets? input).drop start).take length

def text? : TextInput → Option String
  | .given text => some text
  | .written origin => do return (← session.oid? origin).text

def source? : Input → Option Source
  | .text input => (session.text? input).map .text
  | .contents input => (session.octets? input).map .contents
  | .arcs input => (session.arcs? input).map .arcs

def outcome (call : Call) : Except Failure Oid :=
  match session.source? call.input with
  | none => .error .missing
  | some source => (source.make call.limits).mapError .refused

def step (call : Call) : Session :=
  match session.outcome call with
  | .ok oid => session ++ [⟨call.limits, oid⟩]
  | .error _ => session

/-- The session after calls, each of which finds what those before it have made. -/
def run (calls : List Call) : Session :=
  calls.foldl step session

end Evaluation

end Session

end DerContents
