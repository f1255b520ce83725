import DerContents.CommandLine
import DerContents.Proofs.Hex
import DerContents.Proofs.Oid.Size

/-!
# The two modes of the command line

Dotted text is answered with the octets of its contents, hex text behind `-d` with dotted
text.  The printed list determines the octets, and a dotted text is never taken for hex
text, so each answer is accepted by the other mode and answered with what it came from.
-/

namespace DerContents

namespace CommandLine

def hexArgument (spelling : List Char) : String :=
  String.ofList ('-' :: 'd' :: spelling)

theorem filter_intercalate {α : Type} (keep : α → Bool) (separator : List α)
    (rows : List (List α)) :
    (separator.intercalate rows).filter keep =
      (separator.filter keep).intercalate (rows.map fun row => row.filter keep) := by
  induction rows with
  | nil => rfl
  | cons row rest ih =>
    cases rest with
    | nil => simp
    | cons next more =>
      rw [List.intercalate_cons_cons, List.filter_append, List.filter_append, ih, List.map_cons,
        List.map_cons, List.map_cons, List.intercalate_cons_cons]

def numerals (octets : Octets) : List (List Char) :=
  octets.map fun octet => Nat.toDigits 10 octet.toNat

theorem isDigit_of_mem_numerals {octets : Octets} {numeral : List Char}
    (h : numeral ∈ numerals octets) : ∀ c ∈ numeral, c.isDigit = true := by
  obtain ⟨octet, -, rfl⟩ := List.mem_map.1 h
  exact (isNumeral_toDigits octet.toNat).isDigit

theorem numerals_injective {octets others : Octets} (h : numerals octets = numerals others) :
    octets = others := by
  apply List.map_injective_iff.2 _ h
  intro octet other heq
  apply UInt8.toNat_inj.1
  rw [← @Nat.ofDigitChars_ten_toDigits octet.toNat,
    ← @Nat.ofDigitChars_ten_toDigits other.toNat]
  exact congrArg (Nat.ofDigitChars 10 · 0) heq

theorem toList_octetList (octets : Octets) :
    (octetList octets).toList = '[' :: ([',', ' '].intercalate (numerals octets) ++ [']']) := by
  simp [octetList, numerals, String.toList_append, String.toList_intercalate, Function.comp_def]

/-- Digits and commas alone are left of a printed list. -/
def isItem (c : Char) : Bool :=
  c.isDigit || c == ','

theorem filter_octetList (octets : Octets) :
    (octetList octets).toList.filter isItem = [','].intercalate (numerals octets) := by
  have hnumerals : ((numerals octets).map fun numeral => numeral.filter isItem) =
      numerals octets := by
    apply map_eq_self
    intro numeral hmem
    apply List.filter_eq_self.2
    intro c hc
    simp [isItem, isDigit_of_mem_numerals hmem c hc]
  rw [toList_octetList, List.filter_cons_of_neg (by decide), List.filter_append,
    filter_intercalate, hnumerals]
  simp [isItem]

theorem comma_notMem_numerals {octets : Octets} :
    ∀ numeral ∈ numerals octets, ',' ∉ numeral := by
  intro numeral hmem hcomma
  exact absurd (isDigit_of_mem_numerals hmem ',' hcomma) (by decide)

/-- No list of numerals joins to nothing, except the empty one. -/
theorem splitOn_intercalate_numerals (octets : Octets) :
    ([','].intercalate (numerals octets)).splitOn ',' =
      if octets = [] then [[]] else numerals octets := by
  split
  next hnil =>
    rw [hnil]
    rfl
  next hnil =>
    apply List.splitOn_intercalate ',' comma_notMem_numerals
    intro heq
    exact hnil (List.map_eq_nil_iff.1 heq)

theorem numerals_ne_singleton_nil (octets : Octets) : numerals octets ≠ [[]] := by
  intro heq
  have hmem : [] ∈ numerals octets := by
    rw [heq]
    exact List.mem_cons_self
  obtain ⟨octet, -, hnil⟩ := List.mem_map.1 hmem
  exact Nat.toDigits_ne_nil hnil

theorem octetList_injective {octets others : Octets} (h : octetList octets = octetList others) :
    octets = others := by
  have hsplit : ([','].intercalate (numerals octets)).splitOn ',' =
      ([','].intercalate (numerals others)).splitOn ',' := by
    rw [← filter_octetList, h, filter_octetList]
  rw [splitOn_intercalate_numerals, splitOn_intercalate_numerals] at hsplit
  split at hsplit
  next hoctets =>
    split at hsplit
    next hothers => rw [hoctets, hothers]
    next => exact absurd hsplit.symm (numerals_ne_singleton_nil others)
  next =>
    split at hsplit
    next => exact absurd hsplit (numerals_ne_singleton_nil octets)
    next => exact numerals_injective hsplit

/-- An argument taken as hex text. -/
def Dashed (argument : String) : Prop :=
  ['-', 'd'] <+: argument.toList

instance : DecidablePred Dashed := fun _ => inferInstanceAs (Decidable (_ <+: _))

theorem answer_hexArgument (spelling : List Char) :
    answer (hexArgument spelling) = decodeHex spelling := by
  simp [answer, hexArgument]

theorem answer_of_not_dashed {argument : String} (h : ¬ Dashed argument) :
    answer argument = encodeText argument := by
  unfold answer
  split
  next digits heq =>
    refine absurd ⟨digits, ?_⟩ h
    rw [heq]
    rfl
  next => rfl

theorem encodeText_eq_ok_iff {input printed : String} :
    encodeText input = .ok printed ↔
      ∃ oid, Oid.ofText .standard input = .ok oid ∧ octetList oid.contents = printed := by
  unfold encodeText
  cases Oid.ofText .standard input with
  | ok oid => simp [Except.mapError, bind, Except.bind, pure, Except.pure]
  | error error => simp [Except.mapError, bind, Except.bind]

theorem decodeHex_eq_ok_iff {spelling : List Char} {octets : Octets} {printed : String}
    (h : Hex.Spells spelling octets) :
    decodeHex spelling = .ok printed ↔
      ∃ oid, Oid.ofContents .standard octets = .ok oid ∧ oid.text = printed := by
  unfold decodeHex
  rw [h.ofText_eq]
  cases hread : Oid.ofContents .standard octets with
  | ok oid => simp [hread, Except.mapError, bind, Except.bind, pure, Except.pure]
  | error error => simp [hread, Except.mapError, bind, Except.bind]

theorem not_dashed_text {oid : Oid} (h : oid.Valid) : ¬ Dashed oid.text := by
  obtain ⟨first, second, rest, rfl⟩ := h.exists_cons
  have hnumeral := (h.1 first List.mem_cons_self).isNumeral_digits
  unfold Dashed Oid.text
  rw [String.toList_ofList, Oid.dotted_cons]
  cases hdigits : first.digits with
  | nil =>
    rw [hdigits] at hnumeral
    exact absurd hnumeral id
  | cons c more =>
    rintro ⟨tail, htail⟩
    have hc : '-' = c := (List.cons.inj htail).1
    have hdigit := hnumeral.isDigit c (by rw [hdigits]; exact List.mem_cons_self)
    rw [← hc] at hdigit
    exact absurd hdigit (by decide)

/-- Dotted text and the hex text of its octets are answered with one another. -/
theorem answer_iff {spelling : List Char} {octets : Octets} (h : Hex.Spells spelling octets)
    (input : String) :
    ¬ Dashed input ∧ answer input = .ok (octetList octets) ↔
      answer (hexArgument spelling) = .ok input := by
  rw [answer_hexArgument, decodeHex_eq_ok_iff h]
  constructor
  · rintro ⟨hdashed, hanswer⟩
    rw [answer_of_not_dashed hdashed] at hanswer
    obtain ⟨oid, hread, hprinted⟩ := encodeText_eq_ok_iff.1 hanswer
    obtain ⟨hvalid, rfl, -, hlength⟩ := Oid.ofText_eq_ok_iff.1 hread
    have hcontents := octetList_injective hprinted
    refine ⟨oid, Oid.ofContents_eq_ok_iff.2 ⟨hvalid, hcontents, ?_⟩, rfl⟩
    rw [← hcontents]
    exact hlength
  · rintro ⟨oid, hread, rfl⟩
    obtain ⟨hvalid, hcontents, -⟩ := Oid.ofContents_eq_ok_iff.1 hread
    have hdashed := not_dashed_text hvalid
    have htext := Oid.ofText_of_ofContents (by decide) hread
    refine ⟨hdashed, ?_⟩
    rw [answer_of_not_dashed hdashed]
    exact encodeText_eq_ok_iff.2 ⟨oid, htext, congrArg octetList hcontents⟩

theorem output_append (front back : List String) :
    output (front ++ back) = output front ++ output back := by
  unfold output
  rw [List.map_append, String.join_append]

theorem output_cons (argument : String) (rest : List String) :
    output (argument :: rest) = line argument ++ "\n" ++ output rest := by
  unfold output
  rw [List.map_cons, String.join_cons]

theorem line_of_answer {argument printed : String} (h : answer argument = .ok printed) :
    line argument = printed := by
  unfold line
  rw [h]

/--
The two modes undo each other, wherever their arguments stand in a list.  What is printed
for dotted text is a list of octets, and the hex text of a list of octets is answered with
just the dotted text that is answered with the list.
-/
theorem modes_undo_each_other :
    (∀ input printed, ¬ Dashed input → answer input = .ok printed →
      ∃ octets, printed = octetList octets) ∧
    (∀ input octets spelling, Hex.Spells spelling octets →
      (¬ Dashed input ∧ answer input = .ok (octetList octets) ↔
        answer (hexArgument spelling) = .ok input)) ∧
    (∀ front argument back printed, answer argument = .ok printed →
      output (front ++ argument :: back) = output front ++ (printed ++ "\n") ++ output back) := by
  refine ⟨?printed, ?modes, ?position⟩
  case printed =>
    intro input printed hdashed hanswer
    rw [answer_of_not_dashed hdashed] at hanswer
    obtain ⟨oid, -, hprinted⟩ := encodeText_eq_ok_iff.1 hanswer
    exact ⟨oid.contents, hprinted.symm⟩
  case modes =>
    intro input octets spelling hspells
    exact answer_iff hspells input
  case position =>
    intro front argument back printed hanswer
    rw [output_append, output_cons, line_of_answer hanswer, ← String.append_assoc]

example : output ["2.5.4.10", "-d55040A", "2.5"] = "[85, 4, 10]\n2.5.4.10\n[85]\n" := by rfl

end CommandLine

end DerContents
