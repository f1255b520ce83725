import DerContents.Utf8.Basic

/-!
# Settings

A setting is a variable of the environment, raw octets or not set.  A value that is not
UTF-8 counts as not set.  Each limit has a setting of its own: a number in decimal digits
with blanks around it allowed, and anything else leaves the standard limit in force.
-/

namespace DerContents

/-- The raw value of a variable, if it is set. -/
abbrev Setting := Option Octets

namespace Setting

def characters? (setting : Setting) : Option (List Char) :=
  setting.bind Utf8.decode?

def property (setting : Setting) (default : String) : String :=
  match setting.characters? with
  | some text => String.ofList text
  | none => default

/-- The characters of the Unicode property White_Space. -/
def isBlank (c : Char) : Bool :=
  let n := c.toNat
  0x9 ≤ n && n ≤ 0xD || n = 0x20 || n = 0x85 || n = 0xA0 || n = 0x1680 ||
    0x2000 ≤ n && n ≤ 0x200A || n = 0x2028 || n = 0x2029 || n = 0x202F || n = 0x205F ||
    n = 0x3000

def trimBlanks (text : List Char) : List Char :=
  ((text.dropWhile isBlank).reverse.dropWhile isBlank).reverse

def dropPlus : List Char → List Char
  | '+' :: rest => rest
  | text => text

/-- The number of a text of decimal digits, up to the largest limit. -/
def number? (text : List Char) : Option Nat :=
  let digits := dropPlus (trimBlanks text)
  if digits ≠ [] ∧ digits.all Char.isDigit then
    let value := Nat.ofDigitChars 10 digits 0
    if value ≤ Limits.largest then some value else none
  else
    none

def number (setting : Setting) (default : Nat) : Nat :=
  (setting.characters?.bind number?).getD default

end Setting

structure Settings where
  maxOctets : Setting
  maxTextLength : Setting
deriving DecidableEq, Repr

namespace Settings

def ofEnvironment (environment : String → Setting) : Settings where
  maxOctets := environment "DERID_MAX_OID_OCTETS"
  maxTextLength := environment "DERID_MAX_OID_TEXT"

def limits (settings : Settings) : Limits where
  maxOctets := settings.maxOctets.number Limits.standard.maxOctets
  maxTextLength := settings.maxTextLength.number Limits.standard.maxTextLength

end Settings

end DerContents
