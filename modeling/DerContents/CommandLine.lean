import DerContents.Hex
import DerContents.Oid.Contents
import DerContents.Oid.Text

/-!
# Command line

Every argument is answered on a line of its own, under the standard limits.  Dotted text
is answered with the list of its contents octets, and hex text behind `-d` with the dotted
text of the contents it gives.  An error is reported behind the argument.
-/

namespace DerContents

namespace CommandLine

inductive Failure where
  | hex (error : Hex.Error)
  | decode (error : DecodeError)
  | parse (error : ParseError)
deriving DecidableEq, Repr

def Failure.message : Failure → String
  | .hex error => error.message
  | .decode error => error.message
  | .parse error => error.message

/-- The octets in decimal, as a list in brackets. -/
def octetList (octets : Octets) : String :=
  let items := octets.map fun octet => String.ofList (Nat.toDigits 10 octet.toNat)
  "[" ++ String.intercalate ", " items ++ "]"

def decodeHex (digits : List Char) : Except Failure String := do
  let octets ← (Hex.ofText digits).mapError .hex
  let oid ← (Oid.ofContents .standard octets).mapError .decode
  return oid.text

def encodeText (text : String) : Except Failure String := do
  let oid ← (Oid.ofText .standard text).mapError .parse
  return octetList oid.contents

def answer (argument : String) : Except Failure String :=
  match argument.toList with
  | '-' :: 'd' :: digits => decodeHex digits
  | _ => encodeText argument

def line (argument : String) : String :=
  match answer argument with
  | .ok text => text
  | .error failure => argument ++ ": " ++ failure.message ++ "."

def output (arguments : List String) : String :=
  String.join (arguments.map fun argument => line argument ++ "\n")

end CommandLine

end DerContents
