import DerContents.Proofs.Hex.Digits
import DerContents.Proofs.Utf8.Table
import Mathlib.Data.List.Chain

/-!
# Hex text with checked access

Hex text read by slices: two octets at every second position are cut out of the text, and
what is cut out is read as a number with a sign or without.  A slice may leave the text or
begin inside a character.  The first never happens; in the second case the octets are no
digits, so that reading octets in pairs gives the same.
-/

namespace DerContents

namespace Utf8

/-- A position between two characters or at an end: no octet there continues a character. -/
def isBoundary (octets : Octets) (position : Nat) : Bool :=
  match octets[position]? with
  | some octet => !isTail octet
  | none => position == octets.length

/--
The octets of a text between two positions.  The slice itself is none when it leaves the
text, and its octets are none when it begins or ends inside a character.
-/
def slice? (octets : Octets) (start stop : Nat) : Option (Option Octets) :=
  if start ≤ stop ∧ stop ≤ octets.length then
    some (if isBoundary octets start ∧ isBoundary octets stop then
      some ((octets.drop start).take (stop - start)) else none)
  else
    none

theorem Row.not_tail_head {number first : Nat} {more : List Nat} (h : Row number (first :: more)) :
    ¬ Tail first := by
  unfold Tail
  cases h with
  | one | two | three | four => omega

theorem not_isTail_of_mem_head?_encode (text : List Char) :
    ∀ octet ∈ (encode text).head?, isTail octet = false := by
  intro octet hmem
  cases text with
  | nil => simp at hmem
  | cons c rest =>
    obtain ⟨first, more, hoctets⟩ := List.exists_cons_of_ne_nil (utf8EncodeChar_ne_nil c)
    have hrow := row_utf8EncodeChar c
    rw [hoctets, List.map_cons] at hrow
    rw [encode_cons, hoctets, List.cons_append, List.head?_cons, Option.mem_some_iff] at hmem
    rw [← hmem, Bool.eq_false_iff, Ne, isTail_iff]
    exact hrow.not_tail_head

/-- Behind an octet of ASCII stands the first octet of a character. -/
theorem isChain_encode (text : List Char) :
    (encode text).IsChain fun octet next => octet < 0x80 → isTail next = false := by
  induction text with
  | nil => exact .nil
  | cons c rest ih =>
    rw [encode_cons]
    refine List.IsChain.append ?_ ih ?_
    · by_cases hascii : c.toNat < 128
      · rw [utf8EncodeChar_of_lt hascii]
        exact .singleton _
      · rw [List.isChain_iff_getElem]
        intro index hindex hlow
        have hhigh := le_of_mem_utf8EncodeChar (Nat.not_lt.1 hascii) _
          (List.getElem_mem (show index < (String.utf8EncodeChar c).length by omega))
        exact absurd hlow (UInt8.not_lt.2 hhigh)
    · intro _ _ next hnext _
      exact not_isTail_of_mem_head?_encode rest next hnext

theorem isTail_eq_false_of_lt {octet : UInt8} (h : octet < 0x80) : isTail octet = false := by
  rw [Bool.eq_false_iff, Ne, isTail_iff]
  have hlt : octet.toNat < 0x80 := h
  omega

section Pair

variable {text : List Char} {position : Nat} (h : position + 1 < (encode text).length)
include h

theorem slice?_two :
    slice? (encode text) position (position + 2) =
      some (if isBoundary (encode text) position ∧ isBoundary (encode text) (position + 2) then
        some [(encode text)[position], (encode text)[position + 1]] else none) := by
  have htake : ((encode text).drop position).take (position + 2 - position) =
      [(encode text)[position], (encode text)[position + 1]] := by
    rw [List.drop_eq_getElem_cons (by omega), List.drop_eq_getElem_cons (by omega),
      Nat.add_sub_cancel_left]
    rfl
  rw [slice?, if_pos (by omega), htake]

theorem isBoundary_of_lt (hhigh : (encode text)[position] < 0x80)
    (hlow : (encode text)[position + 1] < 0x80) :
    isBoundary (encode text) position = true ∧
      isBoundary (encode text) (position + 2) = true := by
  constructor
  · rw [isBoundary, List.getElem?_eq_getElem (by omega)]
    simp [isTail_eq_false_of_lt hhigh]
  · unfold isBoundary
    by_cases hend : position + 2 < (encode text).length
    · rw [List.getElem?_eq_getElem hend]
      have hchain := List.isChain_iff_getElem.1 (isChain_encode text) (position + 1) hend
      simp [hchain hlow]
    · rw [List.getElem?_eq_none (by omega)]
      simp
      omega

end Pair

end Utf8

namespace Hex

def appendDigit? (value octet : UInt8) : Option UInt8 := do
  let digit ← digit? octet
  if value.toNat * 16 + digit.toNat < 256 then some (value * 16 + digit) else none

def number? (item : Octets) : Option UInt8 :=
  let digits := if item.head? = some 0x2B then item.tail else item
  if digits = [] then none else digits.foldlM appendDigit? 0

theorem appendDigit?_zero (octet : UInt8) : appendDigit? 0 octet = digit? octet := by
  cases hdigit : digit? octet with
  | none => simp [appendDigit?, hdigit]
  | some digit =>
    have hlt := digit.toNat_lt
    simp [appendDigit?, hdigit, hlt]

theorem appendDigit?_of_lt {value : UInt8} (h : value.toNat < 16) (octet : UInt8) :
    appendDigit? value octet = (digit? octet).map fun digit => value * 16 + digit := by
  cases hdigit : digit? octet with
  | none => simp [appendDigit?, hdigit]
  | some digit =>
    have hlt := (digit?_lt hdigit).2
    have hfits : value.toNat * 16 + digit.toNat < 256 := by omega
    simp [appendDigit?, hdigit, hfits]

theorem number?_two (high low : UInt8) : number? [high, low] = pair? high low := by
  by_cases hplus : high = 0x2B
  · simp [number?, pair?, hplus, appendDigit?_zero]
  · cases hdigit : digit? high with
    | none => simp [number?, pair?, hplus, appendDigit?_zero, hdigit]
    | some value =>
      simp only [number?, pair?, List.head?_cons, Option.some.injEq, hplus, if_false,
        List.cons_ne_nil, List.foldlM_cons, List.foldlM_nil, appendDigit?_zero, hdigit,
        Option.bind_eq_bind, Option.bind_some, appendDigit?_of_lt (digit?_lt hdigit).2]
      cases digit? low with
      | none => rfl
      | some digit => rfl

/-- The number in two octets of a text; none when they are not all in the text. -/
def itemAt? (octets : Octets) (position : Nat) : Option (Option UInt8) := do
  let item ← Utf8.slice? octets position (position + 2)
  return item.bind number?

def positions (length : Nat) : List Nat :=
  (List.range ((length + 1) / 2)).map (2 * ·)

def ofTextChecked? (text : List Char) : Option (Except Error Octets) :=
  let octets := Utf8.encode text
  if octets.length % 2 = 1 then
    some (.error .oddLength)
  else do
    let items ← (positions octets.length).mapM (itemAt? octets)
    match items.mapM id with
    | some numbers => return .ok numbers
    | none => return .error .notHex

/-- Two octets that are in the text are read as a pair, wherever its characters begin. -/
theorem itemAt?_eq {text : List Char} {position : Nat}
    (h : position + 1 < (Utf8.encode text).length) :
    itemAt? (Utf8.encode text) position =
      some (pair? (Utf8.encode text)[position] (Utf8.encode text)[position + 1]) := by
  rw [itemAt?, Utf8.slice?_two h, Option.bind_eq_bind, Option.bind_some]
  split
  next => rw [Option.bind_some, number?_two]; rfl
  next hinside =>
    -- A slice inside a character has an octet that is no digit.
    cases hpair : pair? (Utf8.encode text)[position] (Utf8.encode text)[position + 1] with
    | none => rfl
    | some octet =>
      obtain ⟨hhigh, hlow⟩ := lt_of_pair? hpair
      exact absurd (Utf8.isBoundary_of_lt h hhigh hlow) hinside

theorem length_lt_two {octets : Octets}
    (h : ∀ high low rest, octets = high :: low :: rest → False) : octets.length < 2 := by
  rcases octets with _ | ⟨first, _ | ⟨second, more⟩⟩
  · exact Nat.two_pos
  · exact Nat.one_lt_two
  · exact absurd rfl (h first second more)

theorem length_pairs (octets : Octets) : (pairs octets).length = octets.length / 2 := by
  fun_induction pairs octets with
  | case1 high low rest ih =>
    simp only [List.length_cons, ih]
    omega
  | case2 octets hpair =>
    have hshort := length_lt_two hpair
    rw [List.length_nil, Nat.div_eq_of_lt hshort]

theorem getElem?_pairs {octets : Octets} {index : Nat} (h : 2 * index + 1 < octets.length) :
    (pairs octets)[index]? = some (octets[2 * index], octets[2 * index + 1]) := by
  fun_induction pairs octets generalizing index with
  | case1 high low rest ih =>
    cases index with
    | zero => rfl
    | succ index =>
      have hrest : 2 * index + 1 < rest.length := by
        simp only [List.length_cons] at h
        omega
      simpa [Nat.mul_succ] using ih hrest
  | case2 octets hpair =>
    have hshort := length_lt_two hpair
    omega

theorem map_itemAt? {text : List Char} (heven : (Utf8.encode text).length % 2 = 0) :
    (positions (Utf8.encode text).length).map (itemAt? (Utf8.encode text)) =
      (pairs (Utf8.encode text)).map fun pair => some (pair? pair.1 pair.2) := by
  apply List.ext_getElem
  · simp only [positions, List.length_map, List.length_range, length_pairs]
    omega
  · intro index hleft hright
    have hindex : 2 * index + 1 < (Utf8.encode text).length := by
      simp only [positions, List.length_map, List.length_range] at hleft
      omega
    obtain ⟨_, hpair⟩ := List.getElem?_eq_some_iff.1 (getElem?_pairs hindex)
    simp only [positions, List.getElem_map, List.getElem_range, hpair]
    exact itemAt?_eq hindex

theorem mapM_itemAt? {text : List Char} (heven : (Utf8.encode text).length % 2 = 0) :
    (positions (Utf8.encode text).length).mapM (itemAt? (Utf8.encode text)) =
      some ((pairs (Utf8.encode text)).map fun pair => pair? pair.1 pair.2) := by
  rw [← Function.id_comp (itemAt? (Utf8.encode text)), ← List.mapM_map, map_itemAt? heven,
    List.mapM_map]
  exact @List.mapM_pure Option _ _ _ _ (pairs (Utf8.encode text)) fun pair => pair? pair.1 pair.2

theorem ofTextChecked?_eq (text : List Char) : ofTextChecked? text = some (ofText text) := by
  unfold ofTextChecked? ofText
  by_cases hodd : (Utf8.encode text).length % 2 = 1
  · simp only [hodd, if_true]
  · simp only [hodd, if_false, mapM_itemAt? (Nat.mod_two_ne_one.1 hodd), Option.bind_eq_bind,
      Option.bind_some, List.mapM_map, Function.id_comp]
    cases (pairs (Utf8.encode text)).mapM fun pair => pair? pair.1 pair.2 with
    | none => rfl
    | some octets => rfl

end Hex

end DerContents
