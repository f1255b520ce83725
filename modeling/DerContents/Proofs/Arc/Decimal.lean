import DerContents.Proofs.Arc.Numeral
import Mathlib.Data.Nat.Digits.Lemmas

/-!
# Decimal text

Nine digits at a time are taken off an arc until nothing is left.  The chunks are the
digits of its number to the base of a billion, and the text that they are written as is
the one numeral of the number, which is also that of the word where there is one.
-/

namespace DerContents

namespace Arc

/-- What is left of an arc, and the chunks taken off it in the order of the divisions. -/
structure Peeling where
  left : Arc
  taken : List UInt32

namespace Peeling

def round (state : Peeling) : Peeling :=
  if state.left.isZero then
    state
  else
    ⟨(state.left.divRem 1000000000).1, state.taken ++ [(state.left.divRem 1000000000).2]⟩

def rounds : Nat → Peeling → Peeling
  | 0, state => state
  | count + 1, state => rounds count state.round

theorem round_of_isZero {state : Peeling} (h : state.left.isZero = true) :
    state.round = state := by
  rw [round, if_pos h]

theorem round_of_not_isZero {state : Peeling} (h : ¬ state.left.isZero = true) :
    state.round =
      ⟨(state.left.divRem 1000000000).1,
        state.taken ++ [(state.left.divRem 1000000000).2]⟩ := by
  rw [round, if_neg h]

theorem chunks_round (state : Peeling) : state.round.left.chunks = state.left.chunks.tail := by
  by_cases h : state.left.isZero = true
  · rw [round_of_isZero h, chunks_of_isZero h, List.tail_nil]
  · rw [round_of_not_isZero h, chunks_of_not_isZero h, List.tail_cons]

theorem taken_round (state : Peeling) :
    state.round.taken = state.taken ++ state.left.chunks.take 1 := by
  by_cases h : state.left.isZero = true
  · rw [round_of_isZero h, chunks_of_isZero h, List.take_nil, List.append_nil]
  · rw [round_of_not_isZero h, chunks_of_not_isZero h, List.take_one, List.head?_cons]
    rfl

theorem chunks_rounds (count : Nat) (state : Peeling) :
    (rounds count state).left.chunks = state.left.chunks.drop count := by
  induction count generalizing state with
  | zero => rfl
  | succ count ih => rw [rounds, ih, chunks_round, List.drop_tail]

theorem taken_rounds (count : Nat) (state : Peeling) :
    (rounds count state).taken = state.taken ++ state.left.chunks.take count := by
  induction count generalizing state with
  | zero => simp [rounds]
  | succ count ih =>
    rw [rounds, ih, taken_round, chunks_round, List.append_assoc]
    cases state.left.chunks with
    | nil => simp
    | cons chunk rest => simp

end Peeling

theorem chunks_eq_nil_iff {arc : Arc} : arc.chunks = [] ↔ arc.isZero = true := by
  constructor
  · intro h
    by_contra hzero
    rw [chunks_of_not_isZero hzero] at h
    exact List.cons_ne_nil _ _ h
  · exact chunks_of_isZero

/-- Nothing is left after as many rounds as there are chunks, and not before. -/
theorem Peeling.isZero_left_rounds_iff (count : Nat) (state : Peeling) :
    (rounds count state).left.isZero = true ↔ state.left.chunks.length ≤ count := by
  rw [← chunks_eq_nil_iff, chunks_rounds, List.drop_eq_nil_iff]

theorem Normal.map_toNat_chunks {arc : Arc} (h : arc.Normal) :
    arc.chunks.map UInt32.toNat = Nat.digits 1000000000 arc.toNat := by
  -- The least significant chunk comes off first, as `Nat.digits` has it in front.
  fun_induction chunks arc with
  | case1 arc hzero =>
    rw [h.isZero_iff] at hzero
    rw [hzero, Nat.digits_zero, List.map_nil]
  | case2 arc hzero ih =>
    rw [h.isZero_iff] at hzero
    have hvalues := arc.divRem_values (show 0 < (1000000000 : UInt32).toNat by decide)
    simp only [UInt32.reduceToNat] at hvalues
    rw [List.map_cons, ih (arc.normal_divRem 1000000000), hvalues.1, hvalues.2,
      Nat.digits_def' (by omega) (Nat.pos_of_ne_zero hzero)]

theorem Normal.chunk_lt {arc : Arc} (h : arc.Normal) :
    ∀ chunk ∈ arc.chunks, chunk.toNat < 1000000000 := by
  intro chunk hmem
  have hdigit : chunk.toNat ∈ arc.chunks.map UInt32.toNat := List.mem_map_of_mem hmem
  rw [h.map_toNat_chunks] at hdigit
  exact Nat.digits_lt_base (by omega) hdigit

theorem Normal.toList_text {arc : Arc} (h : arc.Normal) :
    arc.text.toList = Nat.toDigits 10 arc.toNat := by
  rw [text, String.toList_ofList, h.digits_eq]

theorem Normal.exists_toUInt64? {arc : Arc} (h : arc.Normal)
    (hword : arc.toNat < 0x10000000000000000) :
    ∃ word, arc.toUInt64? = some word ∧ word.toNat = arc.toNat := by
  refine ⟨UInt64.ofNat arc.toNat, ?_, ?_⟩
  · rw [h.toUInt64?_eq, if_pos hword]
  · rw [UInt64.toNat_ofNat', Nat.mod_eq_of_lt hword]

/--
An arc is written as the one numeral of its number.  Nine digits at a time are taken off
it until nothing is left, after exactly as many rounds as there are chunks; the chunks are
below a billion, and make the same text as the word that is written where there is one.
-/
theorem text_is_numeral_of_number {arc : Arc} (h : arc.Normal) :
    arc.text = String.ofList (Nat.toDigits 10 arc.toNat) ∧
    IsNumeral arc.text.toList ∧ Nat.ofDigitChars 10 arc.text.toList 0 = arc.toNat ∧
    (∀ count, (Peeling.rounds count ⟨arc, []⟩).left.isZero = true ↔
      arc.chunks.length ≤ count) ∧
    (Peeling.rounds arc.chunks.length ⟨arc, []⟩).taken = arc.chunks ∧
    (∀ chunk ∈ arc.chunks, chunk.toNat < 1000000000) ∧
    arc.chunks.map UInt32.toNat = Nat.digits 1000000000 arc.toNat ∧
    (0 < arc.toNat → arc.chunkedDigits = arc.digits) ∧
    (arc.toNat < 0x10000000000000000 →
      ∃ word, arc.toUInt64? = some word ∧ word.toNat = arc.toNat ∧
        arc.digits = Nat.toDigits 10 word.toNat) := by
  have htaken : (Peeling.rounds arc.chunks.length ⟨arc, []⟩).taken = arc.chunks := by
    rw [Peeling.taken_rounds, List.take_length, List.nil_append]
  refine ⟨congrArg String.ofList h.digits_eq, ?_, ?_,
    fun count => Peeling.isZero_left_rounds_iff count ⟨arc, []⟩, htaken, h.chunk_lt,
    h.map_toNat_chunks, ?_, ?_⟩
  · rw [h.toList_text]
    exact isNumeral_toDigits arc.toNat
  · rw [h.toList_text, Nat.ofDigitChars_ten_toDigits]
  · intro hpos
    rw [h.chunkedDigits_eq_toDigits hpos, h.digits_eq]
  · intro hword
    rcases h.exists_toUInt64? hword with ⟨word, hsome, hvalue⟩
    refine ⟨word, hsome, hvalue, ?_⟩
    rw [hvalue, h.digits_eq]

/-- A chunk of zeros within a number of one word, and three of them in one beyond all words. -/
theorem text_is_numeral_of_number_with_empty_chunks :
    Normal ⟨[0xA7640005, 0x0DE0B6B3]⟩ ∧
    text ⟨[0xA7640005, 0x0DE0B6B3]⟩ = "1000000000000000005" ∧
    (chunks ⟨[0xA7640005, 0x0DE0B6B3]⟩).map UInt32.toNat = [5, 0, 1] ∧
    chunkedDigits ⟨[0xA7640005, 0x0DE0B6B3]⟩ = digits ⟨[0xA7640005, 0x0DE0B6B3]⟩ ∧
    toUInt64? ⟨[0xA7640005, 0x0DE0B6B3]⟩ = some 1000000000000000005 ∧
    Normal ⟨[0xE8000000, 0x9FD0803C, 0x33B2E3C]⟩ ∧
    text ⟨[0xE8000000, 0x9FD0803C, 0x33B2E3C]⟩ = "1000000000000000000000000000" ∧
    (chunks ⟨[0xE8000000, 0x9FD0803C, 0x33B2E3C]⟩).map UInt32.toNat = [0, 0, 0, 1] := by
  have hword : Normal ⟨[0xA7640005, 0x0DE0B6B3]⟩ := by decide
  have hwordNumber : toNat ⟨[0xA7640005, 0x0DE0B6B3]⟩ = 1000000000000000005 := rfl
  have hlarge : Normal ⟨[0xE8000000, 0x9FD0803C, 0x33B2E3C]⟩ := by decide
  have hlargeNumber : toNat ⟨[0xE8000000, 0x9FD0803C, 0x33B2E3C]⟩ = 10 ^ 27 := rfl
  rcases text_is_numeral_of_number hword with
    ⟨hwordText, -, -, -, -, -, hwordChunks, hpaths, hfits⟩
  rcases text_is_numeral_of_number hlarge with ⟨hlargeText, -, -, -, -, -, hlargeChunks, -⟩
  rw [hwordNumber] at hwordText hwordChunks hpaths hfits
  rw [hlargeNumber] at hlargeText hlargeChunks
  rcases hfits (by omega) with ⟨word, hsome, hvalue, -⟩
  have hwordValue : word = 1000000000000000005 := UInt64.toNat_inj.1 hvalue
  rw [hwordValue] at hsome
  refine ⟨hword, ?_, ?_, hpaths (by omega), hsome, hlarge, ?_, ?_⟩
  · rw [hwordText]
    decide +kernel
  · rw [hwordChunks]
    simp
  · rw [hlargeText]
    decide +kernel
  · rw [hlargeChunks]
    simp

end Arc

end DerContents
