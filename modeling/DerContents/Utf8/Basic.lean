import DerContents.Basic

/-!
# UTF-8

Text as octets and back, by the table of well-formed sequences: one to four octets a
character, no character in more octets than it needs, no surrogates, and nothing above
U+10FFFF.
-/

namespace DerContents

namespace Utf8

def encode (text : List Char) : Octets :=
  text.flatMap String.utf8EncodeChar

def isTail (octet : UInt8) : Bool :=
  0x80 ≤ octet && octet ≤ 0xBF

/--
A second octet that may follow a first.  The narrow ranges exclude longer forms than
needed after `E0` and `F0`, surrogates after `ED` and too large numbers after `F4`.
-/
def isSecond (first second : UInt8) : Bool :=
  if first = 0xE0 then 0xA0 ≤ second && second ≤ 0xBF
  else if first = 0xED then 0x80 ≤ second && second ≤ 0x9F
  else if first = 0xF0 then 0x90 ≤ second && second ≤ 0xBF
  else if first = 0xF4 then 0x80 ≤ second && second ≤ 0x8F
  else isTail second

/-- The character of the bits of a first octet and of the octets that continue it. -/
def character (bits : UInt8) (tails : List UInt8) : Char :=
  Char.ofNat (tails.foldl (fun value tail => value * 64 + (tail.toNat - 0x80)) bits.toNat)

def decode? : Octets → Option (List Char)
  | [] => some []
  | first :: rest =>
    if first < 0x80 then
      (decode? rest).map (character first [] :: ·)
    else if 0xC2 ≤ first ∧ first ≤ 0xDF then
      match rest with
      | second :: rest =>
        if isTail second then
          (decode? rest).map (character (first - 0xC0) [second] :: ·)
        else
          none
      | _ => none
    else if 0xE0 ≤ first ∧ first ≤ 0xEF then
      match rest with
      | second :: third :: rest =>
        if isSecond first second ∧ isTail third then
          (decode? rest).map (character (first - 0xE0) [second, third] :: ·)
        else
          none
      | _ => none
    else if 0xF0 ≤ first ∧ first ≤ 0xF4 then
      match rest with
      | second :: third :: fourth :: rest =>
        if isSecond first second ∧ isTail third ∧ isTail fourth then
          (decode? rest).map (character (first - 0xF0) [second, third, fourth] :: ·)
        else
          none
      | _ => none
    else
      none

end Utf8

end DerContents
