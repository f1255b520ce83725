import DerContents.Utf8.Basic

/-!
# Hex text

Octets as pairs of hex digits.  A text is read by its UTF-8 octets, two at a time, so a
character beyond ASCII counts with each of its octets and is never a digit.  A plus sign
may stand in place of a leading zero digit.
-/

namespace DerContents

namespace Hex

inductive Error where
  | oddLength
  | notHex
deriving DecidableEq, Repr

def Error.message : Error → String
  | .oddLength => "odd number of hex digits"
  | .notHex => "only hex digits allowed"

def digit? (octet : UInt8) : Option UInt8 :=
  if 0x30 ≤ octet ∧ octet ≤ 0x39 then some (octet - 0x30)
  else if 0x61 ≤ octet ∧ octet ≤ 0x66 then some (octet - 0x61 + 10)
  else if 0x41 ≤ octet ∧ octet ≤ 0x46 then some (octet - 0x41 + 10)
  else none

/-- The octet of two digits, or of a plus sign and a digit. -/
def pair? (high low : UInt8) : Option UInt8 :=
  if high = 0x2B then
    digit? low
  else do
    let high ← digit? high
    let low ← digit? low
    return high * 16 + low

/-- Octets two at a time; a last one without a partner is left out. -/
def pairs : Octets → List (UInt8 × UInt8)
  | high :: low :: rest => (high, low) :: pairs rest
  | _ => []

/-- Read a hex text; an odd number of octets is reported before anything else. -/
def ofText (text : List Char) : Except Error Octets :=
  let digits := Utf8.encode text
  if digits.length % 2 = 1 then
    .error .oddLength
  else
    match (pairs digits).mapM fun pair => pair? pair.1 pair.2 with
    | some octets => .ok octets
    | none => .error .notHex

def digits (octet : UInt8) : List Char :=
  [Nat.digitChar (octet.toNat / 16), Nat.digitChar (octet.toNat % 16)]

def text (octets : Octets) : List Char :=
  octets.flatMap digits

theorem flatMap_pairs (octets : Octets) (h : octets.length % 2 = 0) :
    (pairs octets).flatMap (fun pair => [pair.1, pair.2]) = octets := by
  fun_induction pairs octets with
  | case1 high low rest ih => simpa using ih (by simp at h; omega)
  | case2 octets hpair =>
    cases octets with
    | nil => rfl
    | cons first rest =>
      cases rest with
      | nil => simp at h
      | cons second more => exact absurd rfl (hpair first second more)

end Hex

end DerContents
