import DerContents.Proofs.Arc.Encoding
import DerContents.Proofs.Oid.Children
import DerContents.Proofs.Source

/-!
# Identifiers with checked access

The definitions that run take the first two arcs by their places and fall back to a word
where an arc is none.  Here each access is checked instead: an arc in its place, a word of
an arc, the product of words, the first of the subidentifiers.  The checks never fail, so
the fallbacks stand for nothing and what runs is what the checked definitions say.
-/

namespace DerContents

namespace Oid

def rest? (oid : Oid) : Option (List Arc) :=
  if 2 ≤ oid.arcs.length then some (oid.arcs.drop 2) else none

def fortyTimes? (word : UInt32) : Option UInt32 :=
  if 40 * word.toNat < 0x100000000 then some (40 * word) else none

/-- `pack` of the first two arcs; none when one is missing or the first is no word. -/
def packChecked? (oid : Oid) : Option Arc := do
  let first ← oid.first?
  let word ← first.toUInt32?
  let second ← oid.second?
  return second.addWord (← fortyTimes? word)

def encodedLengthChecked? (oid : Oid) : Option Nat := do
  let packed ← oid.packChecked?
  let rest ← oid.rest?
  return packed.base128Length + (rest.map Arc.base128Length).sum

/-- `contents` with checked access: room is counted, then each arc written behind the others. -/
def contentsChecked? (oid : Oid) : Option Octets := do
  let _ ← oid.encodedLengthChecked?
  let packed ← oid.packChecked?
  let rest ← oid.rest?
  return rest.foldl (fun target arc => arc.writeBase128 target) (packed.writeBase128 [])

/-- `ofArcs` with checked access; the inner result is its outcome. -/
def ofArcsChecked? (limits : Limits) (arcs : List Arc) : Option (Except ParseError Oid) :=
  match check arcs with
  | .error reason => some (.error reason)
  | .ok () => do
    let length ← encodedLengthChecked? ⟨arcs⟩
    return if limits.maxOctets < length then .error .tooLong else .ok ⟨arcs⟩

def ofTextChecked? (limits : Limits) (text : String) : Option (Except ParseError Oid) :=
  if text = "" then
    some (.error .empty)
  else if limits.maxTextLength < text.utf8ByteSize then
    some (.error .tooLong)
  else
    match (text.toList.splitOn '.').mapM readSegment with
    | .error reason => some (.error reason)
    | .ok arcs => ofArcsChecked? limits arcs

def unpackChecked? (packed : Arc) : Option (List Arc) :=
  match packed.subWord? 80 with
  | some second => some [Arc.ofUInt8 2, second]
  | none => do
    let value ← packed.toUInt32?
    return [Arc.ofUInt32 (value / 40), Arc.ofUInt32 (value % 40)]

/-- What octets have been read as: whole subidentifiers, and the groups of one that goes on. -/
structure Progress where
  subidentifiers : List Arc
  current : Arc
  atStart : Bool
deriving DecidableEq, Repr

namespace Progress

def start : Progress := ⟨[], Arc.zero, true⟩

/-- Read one octet; `more` says that others follow it. -/
def step (progress : Progress) (octet : UInt8) (more : Bool) : Except DecodeError Progress :=
  if progress.atStart ∧ octet = 0x80 ∧ more then
    .error .nonMinimal
  else
    let value := progress.current.mulAdd 0x80 (octet &&& 0x7F).toUInt32
    if octet &&& 0x80 = 0 then
      .ok ⟨progress.subidentifiers ++ [value], Arc.zero, true⟩
    else
      .ok ⟨progress.subidentifiers, value, false⟩

def run (progress : Progress) : Octets → Except DecodeError Progress
  | [] => .ok progress
  | octet :: rest => do
    let next ← progress.step octet (rest ≠ [])
    next.run rest

def finish (progress : Progress) : Except DecodeError (List Arc) :=
  if progress.atStart then .ok progress.subidentifiers else .error .truncated

end Progress

/-- `ofSubidentifiers` with checked access; none when there is no subidentifier. -/
def ofSubidentifiersChecked? (limits : Limits) :
    List Arc → Option (Except DecodeError Oid)
  | [] => none
  | packed :: rest => do
    let arcs ← unpackChecked? packed
    let outcome ← ofArcsChecked? limits (arcs ++ rest)
    return outcome.mapError fun _ => .invalidStructure

def ofContentsChecked? (limits : Limits) (octets : Octets) : Option (Except DecodeError Oid) :=
  if octets = [] then
    some (.error .empty)
  else if limits.maxOctets < octets.length then
    some (.error .tooLong)
  else
    match Progress.start.run octets >>= Progress.finish with
    | .error reason => some (.error reason)
    | .ok subidentifiers => ofSubidentifiersChecked? limits subidentifiers

/-- Arcs in the first two places, and the first of them a word of at most 2. -/
structure Accessible (oid : Oid) : Prop where
  first : ∃ arc word, oid.first? = some arc ∧ arc.toUInt32? = some word ∧ word ≤ 2
  second : ∃ arc, oid.second? = some arc
  rest : ∃ arcs, oid.rest? = some arcs

theorem exists_word_of_check {first second : Arc} {rest : List Arc}
    (h : check (first :: second :: rest) = .ok ()) :
    ∃ word, first.toUInt32? = some word ∧ word ≤ 2 := by
  cases hword : first.toUInt32? with
  | none => simp [check, hword] at h
  | some word =>
    refine ⟨word, rfl, UInt32.not_lt.1 ?_⟩
    intro hlarge
    simp [check, hword, hlarge] at h

theorem accessible_of_check {oid : Oid} (h : check oid.arcs = .ok ()) : oid.Accessible := by
  obtain ⟨arcs⟩ := oid
  obtain ⟨first, second, rest, rfl⟩ := exists_cons_of_check h
  obtain ⟨word, hword, hle⟩ := exists_word_of_check h
  exact ⟨⟨first, word, rfl, hword, hle⟩, ⟨second, rfl⟩, ⟨rest, rfl⟩⟩

theorem fortyTimes?_of_le {word : UInt32} (h : word ≤ 2) :
    fortyTimes? word = some (40 * word) := by
  have hle : word.toNat ≤ 2 := UInt32.le_iff_toNat_le.1 h
  exact if_pos (by omega)

theorem foldl_writeBase128 (target : Octets) (arcs : List Arc) :
    arcs.foldl (fun target arc => arc.writeBase128 target) target =
      target ++ arcs.flatMap Arc.base128 := by
  induction arcs generalizing target with
  | nil => simp
  | cons arc rest ih =>
    rw [List.foldl_cons, ih, Arc.writeBase128_eq, List.flatMap_cons, List.append_assoc]

section Writing

variable {first second : Arc} {rest : List Arc} (h : check (first :: second :: rest) = .ok ())
include h

theorem packChecked?_eq :
    packChecked? ⟨first :: second :: rest⟩ = some (pack first second) := by
  obtain ⟨word, hword, hle⟩ := exists_word_of_check h
  simp [packChecked?, first?, second?, hword, fortyTimes?_of_le hle, pack]

theorem encodedLengthChecked?_eq :
    encodedLengthChecked? ⟨first :: second :: rest⟩ =
      some (encodedLength ⟨first :: second :: rest⟩) := by
  have hpair : check [first, second] = .ok () := h
  have hlength : encodedLength ⟨first :: second :: rest⟩ =
      (pack first second).base128Length + (rest.map Arc.base128Length).sum :=
    encodedLength_append hpair rest
  rw [encodedLengthChecked?, packChecked?_eq h, hlength]
  rfl

theorem contentsChecked?_eq :
    contentsChecked? ⟨first :: second :: rest⟩ =
      some (contents ⟨first :: second :: rest⟩) := by
  have hcontents : contents ⟨first :: second :: rest⟩ =
      (pack first second).base128 ++ rest.flatMap Arc.base128 := rfl
  rw [contentsChecked?, encodedLengthChecked?_eq h, packChecked?_eq h, hcontents,
    ← List.nil_append (pack first second).base128, ← Arc.writeBase128_eq,
    ← foldl_writeBase128]
  rfl

end Writing

theorem ofArcsChecked?_eq (limits : Limits) (arcs : List Arc) :
    ofArcsChecked? limits arcs = some (ofArcs limits arcs) := by
  cases hcheck : check arcs with
  | error reason =>
    rw [ofArcsChecked?, ofArcs, hcheck]
    rfl
  | ok passed =>
    obtain ⟨first, second, rest, rfl⟩ := exists_cons_of_check hcheck
    rw [ofArcsChecked?, ofArcs, hcheck]
    simp only [encodedLengthChecked?_eq hcheck]
    rfl

theorem ofTextChecked?_eq (limits : Limits) (text : String) :
    ofTextChecked? limits text = some (ofText limits text) := by
  unfold ofTextChecked? ofText
  split
  · rfl
  split
  · rfl
  cases (text.toList.splitOn '.').mapM readSegment with
  | error reason => rfl
  | ok arcs => exact ofArcsChecked?_eq limits arcs

theorem unpackChecked?_ofNat (number : Nat) :
    unpackChecked? (Arc.ofNat number) = some (unpack (Arc.ofNat number)) := by
  have hnormal := Arc.normal_ofNat number
  have hbound : (80 : UInt32).toNat = 80 := rfl
  unfold unpackChecked? unpack
  rw [hnormal.subWord?_eq, hnormal.toUInt32?_eq, Arc.toNat_ofNat, hbound]
  by_cases hsmall : number < 80
  · rw [if_pos hsmall, if_pos (by omega)]
    rfl
  · rw [if_neg hsmall]

namespace Progress

variable {progress next : Progress} {octet : UInt8} {more : Bool}

/-- What one octet can do: end a subidentifier or go on with it. -/
theorem step_cases (h : progress.step octet more = .ok next) :
    (octet &&& 0x80 = 0 ∧
        ∃ value, next = ⟨progress.subidentifiers ++ [value], Arc.zero, true⟩) ∨
      (octet &&& 0x80 ≠ 0 ∧ ∃ value, next = ⟨progress.subidentifiers, value, false⟩) := by
  unfold step at h
  split at h
  · cases h
  · split at h
    next hlow => exact Or.inl ⟨hlow, _, (Except.ok.inj h).symm⟩
    next hhigh => exact Or.inr ⟨hhigh, _, (Except.ok.inj h).symm⟩

/-- Behind an octet the reader stands at a start only if the octet ended a subidentifier. -/
theorem subidentifiers_ne_nil_of_step (h : progress.step octet more = .ok next)
    (hstart : next.atStart = true) : next.subidentifiers ≠ [] := by
  obtain ⟨-, value, rfl⟩ | ⟨-, value, rfl⟩ := step_cases h
  · exact List.append_ne_nil_of_right_ne_nil _ (List.cons_ne_nil _ _)
  · cases hstart

theorem run_cons_eq_ok_iff {rest : Octets} {last : Progress} :
    progress.run (octet :: rest) = .ok last ↔
      ∃ next, progress.step octet (rest ≠ []) = .ok next ∧ next.run rest = .ok last := by
  rw [run]
  cases progress.step octet (rest ≠ []) with
  | error reason => simp [bind, Except.bind]
  | ok next => simp [bind, Except.bind]

theorem subidentifiers_ne_nil_of_run {octets : Octets} {last : Progress} (hne : octets ≠ [])
    (h : progress.run octets = .ok last) (hstart : last.atStart = true) :
    last.subidentifiers ≠ [] := by
  -- The induction needs no invariant before the last octet: one step is enough for it.
  induction octets generalizing progress with
  | nil => exact absurd rfl hne
  | cons octet rest ih =>
    obtain ⟨next, hstep, hrun⟩ := run_cons_eq_ok_iff.1 h
    by_cases hrest : rest = []
    · subst hrest
      cases hrun
      exact subidentifiers_ne_nil_of_step hstep hstart
    · exact ih hrest hrun

theorem run_finish (progress : Progress) (octets : Octets) :
    (progress.run octets >>= finish) =
      (readSubidentifiers progress.current progress.atStart octets).map
        (progress.subidentifiers ++ ·) := by
  induction octets generalizing progress with
  | nil =>
    obtain ⟨subidentifiers, current, atStart⟩ := progress
    cases atStart with
    | false => rfl
    | true => simp [run, finish, readSubidentifiers, bind, Except.bind, Except.map]
  | cons octet rest ih =>
    have hassoc : (progress.run (octet :: rest) >>= finish) =
        (progress.step octet (rest ≠ []) >>= fun next => next.run rest >>= finish) := by
      rw [run]
      cases progress.step octet (rest ≠ []) with
      | error reason => rfl
      | ok next => rfl
    rw [hassoc, step, readSubidentifiers]
    simp only [decide_eq_true_eq]
    split
    · rfl
    split
    next hlast =>
      show (run _ rest >>= finish) = _
      rw [ih]
      cases readSubidentifiers Arc.zero true rest with
      | error reason => rfl
      | ok arcs => simp [Except.map]
    next => exact ih _

theorem readSubidentifiers_eq_finish (octets : Octets) :
    readSubidentifiers Arc.zero true octets = (start.run octets >>= finish) := by
  rw [run_finish]
  show _ = (readSubidentifiers Arc.zero true octets).map id
  cases readSubidentifiers Arc.zero true octets with
  | error reason => rfl
  | ok arcs => rfl

theorem ne_nil_of_finish {octets : Octets} {arcs : List Arc} (hne : octets ≠ [])
    (h : (start.run octets >>= finish) = .ok arcs) : arcs ≠ [] := by
  cases hrun : start.run octets with
  | error reason =>
    rw [hrun] at h
    cases h
  | ok last =>
    rw [hrun] at h
    have hfinish : last.finish = .ok arcs := h
    unfold finish at hfinish
    split at hfinish
    next hstart =>
      cases hfinish
      exact subidentifiers_ne_nil_of_run hne hrun hstart
    next => cases hfinish

end Progress

theorem exists_unpack_of_finish {octets : Octets} {arcs : List Arc} (hne : octets ≠ [])
    (h : (Progress.start.run octets >>= Progress.finish) = .ok arcs) :
    ∃ packed rest, arcs = packed :: rest ∧ unpackChecked? packed = some (unpack packed) := by
  have hpresent := Progress.ne_nil_of_finish hne h
  rw [← Progress.readSubidentifiers_eq_finish] at h
  obtain ⟨numbers, rfl, -⟩ := readSubidentifiers_eq_ok_iff.1 h
  cases numbers with
  | nil => exact absurd rfl hpresent
  | cons number rest => exact ⟨_, _, List.map_cons, unpackChecked?_ofNat number⟩

theorem ofSubidentifiersChecked?_eq {limits : Limits} {octets : Octets} {arcs : List Arc}
    (hne : octets ≠ []) (h : (Progress.start.run octets >>= Progress.finish) = .ok arcs) :
    ofSubidentifiersChecked? limits arcs = some (ofSubidentifiers limits arcs) := by
  obtain ⟨packed, rest, rfl, hunpack⟩ := exists_unpack_of_finish hne h
  rw [ofSubidentifiersChecked?, ofSubidentifiers, hunpack, Option.bind_eq_bind, Option.bind_some,
    ofArcsChecked?_eq]
  rfl

theorem ofContentsChecked?_eq (limits : Limits) (octets : Octets) :
    ofContentsChecked? limits octets = some (ofContents limits octets) := by
  unfold ofContentsChecked? ofContents
  rw [Progress.readSubidentifiers_eq_finish]
  split
  · rfl
  next hne =>
    split
    · rfl
    cases hread : Progress.start.run octets >>= Progress.finish with
    | error reason => rfl
    | ok arcs => exact ofSubidentifiersChecked?_eq hne hread

end Oid

end DerContents
