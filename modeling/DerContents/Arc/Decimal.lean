import DerContents.Arc.Arithmetic

/-!
# Decimal numerals

An arc is written with the fewest decimal digits, and only that numeral is read back.
Numbers of one 64-bit word are written at once; larger ones are divided by a billion
until nothing is left, and the remainders written with nine digits each.
-/

namespace DerContents

namespace Arc

def appendDigit? (arc : Arc) (digit : Char) : Option Arc :=
  if digit.isDigit then
    some (arc.mulAdd 10 (digit.val - '0'.val))
  else
    none

/-- The arc of a numeral: ASCII digits, and no zero in front of others. -/
def ofDigits? : List Char → Option Arc
  | [] => none
  | '0' :: _ :: _ => none
  | digits => digits.foldlM appendDigit? zero

def ofDecimal? (text : String) : Option Arc :=
  ofDigits? text.toList

theorem measure_divRem_lt {arc : Arc} (h : ¬ arc.isZero = true) :
    (arc.divRem 1000000000).1.toNat + (arc.divRem 1000000000).1.limbs.length <
      arc.toNat + arc.limbs.length := by
  have hlength := arc.length_divRem_le 1000000000
  have hvalue := arc.toNat_divRem (show 0 < (1000000000 : UInt32).toNat by decide)
  have hpositive : arc.limbs.length ≠ 0 := by
    simpa [isZero] using h
  simp only [UInt32.reduceToNat] at hvalue
  by_cases hzero : (arc.divRem 1000000000).1.toNat = 0
  · have hnil := (Limbs.Trimmed.toNat_eq_zero_iff (arc.normal_divRem 1000000000)).1 hzero
    rw [hzero, hnil, List.length_nil]
    omega
  · omega

/-- The remainders of the divisions by a billion, least significant first. -/
def chunks (arc : Arc) : List UInt32 :=
  if arc.isZero then
    []
  else
    (arc.divRem 1000000000).2 :: chunks (arc.divRem 1000000000).1
termination_by arc.toNat + arc.limbs.length
decreasing_by exact measure_divRem_lt ‹_›

/-- The digits of a number below a billion, with zeros in front up to nine places. -/
def ninePlaces (chunk : UInt32) : List Char :=
  let digits := Nat.toDigits 10 chunk.toNat
  List.replicate (9 - digits.length) '0' ++ digits

def chunkedDigits (arc : Arc) : List Char :=
  match arc.chunks.reverse with
  | [] => []
  | first :: rest => Nat.toDigits 10 first.toNat ++ rest.flatMap ninePlaces

def digits (arc : Arc) : List Char :=
  match arc.toUInt64? with
  | some value => Nat.toDigits 10 value.toNat
  | none => arc.chunkedDigits

def text (arc : Arc) : String :=
  String.ofList arc.digits

def inspect (arc : Arc) : String :=
  "Arc(" ++ arc.text ++ ")"

end Arc

end DerContents
