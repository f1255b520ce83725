import DerContents.Proofs.Source

/-!
# What sessions keep

However calls go, whatever has been made is valid, within the limits that it was made
under, and read back from its contents and its text under all limits that allow it.
-/

namespace DerContents

/-- A valid identifier, no longer than allowed where it was made. -/
structure Made.Sound (made : Made) : Prop where
  valid : made.oid.Valid
  length_le : made.oid.encodedLength ≤ made.limits.maxOctets

namespace Session

def Sound (session : Session) : Prop :=
  ∀ made ∈ session, made.Sound

section Soundness

variable {session : Session}

theorem Sound.valid_of_oid? (h : session.Sound) {origin : Nat} {oid : Oid}
    (hoid : session.oid? origin = some oid) : oid.Valid := by
  obtain ⟨made, hmade, rfl⟩ := Option.map_eq_some_iff.1 hoid
  exact (h made (List.mem_of_getElem? hmade)).valid

theorem Sound.normal_of_arc? (h : session.Sound) {input : ArcInput} {arc : Arc}
    (harc : session.arc? input = some arc) : arc.Normal := by
  cases input with
  | word value =>
    cases harc
    exact Arc.normal_ofUInt64 value
  | numeral text =>
    rw [arc?, Arc.ofDecimal?, Arc.ofDigits?_eq] at harc
    split at harc
    · cases harc
      exact Arc.normal_ofNat _
    · cases harc
  | taken origin index =>
    obtain ⟨oid, hoid, hget⟩ := Option.bind_eq_some_iff.1 harc
    exact (h.valid_of_oid? hoid).1 arc (List.mem_of_getElem? hget)

theorem Sound.normal_of_arcs? (h : session.Sound) {input : ArcsInput} {arcs : List Arc}
    (harcs : session.arcs? input = some arcs) : ∀ arc ∈ arcs, arc.Normal := by
  induction input generalizing arcs with
  | empty =>
    cases harcs
    intro arc hmem
    exact absurd hmem List.not_mem_nil
  | single input =>
    obtain ⟨only, honly, hsome⟩ := Option.bind_eq_some_iff.1 harcs
    cases hsome
    intro arc hmem
    rw [List.mem_singleton.1 hmem]
    exact h.normal_of_arc? honly
  | taken origin =>
    obtain ⟨oid, hoid, hsome⟩ := Option.bind_eq_some_iff.1 harcs
    cases hsome
    exact (h.valid_of_oid? hoid).1
  | joined front back ihFront ihBack =>
    obtain ⟨before, hbefore, hmore⟩ := Option.bind_eq_some_iff.1 harcs
    obtain ⟨behind, hbehind, hsome⟩ := Option.bind_eq_some_iff.1 hmore
    cases hsome
    intro arc hmem
    rcases List.mem_append.1 hmem with hmem | hmem
    · exact ihFront hbefore arc hmem
    · exact ihBack hbehind arc hmem
  | cut start length input ih =>
    obtain ⟨all, hall, hsome⟩ := Option.bind_eq_some_iff.1 harcs
    cases hsome
    intro arc hmem
    exact ih hall arc (List.mem_of_mem_drop (List.mem_of_mem_take hmem))
  | replaced index input arcs ih =>
    obtain ⟨all, hall, hmore⟩ := Option.bind_eq_some_iff.1 harcs
    obtain ⟨new, hnew, hsome⟩ := Option.bind_eq_some_iff.1 hmore
    cases hsome
    intro arc hmem
    rcases List.mem_or_eq_of_mem_set hmem with hmem | rfl
    · exact ih hall arc hmem
    · exact h.normal_of_arc? hnew

theorem Sound.normal_of_source? (h : session.Sound) {input : Input} {source : Source}
    (hsource : session.source? input = some source) : source.Normal := by
  cases input with
  | text input =>
    obtain ⟨text, -, rfl⟩ := Option.map_eq_some_iff.1 hsource
    trivial
  | contents input =>
    obtain ⟨octets, -, rfl⟩ := Option.map_eq_some_iff.1 hsource
    trivial
  | arcs input =>
    obtain ⟨numbers, hnumbers, rfl⟩ := Option.map_eq_some_iff.1 hsource
    exact h.normal_of_arcs? hnumbers

theorem Sound.sound_of_outcome (h : session.Sound) {call : Call} {oid : Oid}
    (hoid : session.outcome call = .ok oid) : Made.Sound ⟨call.limits, oid⟩ := by
  unfold outcome at hoid
  cases hsource : session.source? call.input with
  | none =>
    rw [hsource] at hoid
    cases hoid
  | some source =>
    rw [hsource] at hoid
    obtain ⟨hvalid, hlength⟩ :=
      (h.normal_of_source? hsource).valid_of_make (mapError_eq_ok_iff.1 hoid)
    exact ⟨hvalid, hlength⟩

theorem step_of_ok {call : Call} {oid : Oid} (h : session.outcome call = .ok oid) :
    session.step call = session ++ [⟨call.limits, oid⟩] := by
  rw [step, h]

theorem step_of_error {call : Call} {failure : Failure}
    (h : session.outcome call = .error failure) : session.step call = session := by
  rw [step, h]

theorem Sound.step (h : session.Sound) (call : Call) : (session.step call).Sound := by
  cases houtcome : session.outcome call with
  | error failure =>
    rw [step_of_error houtcome]
    exact h
  | ok oid =>
    rw [step_of_ok houtcome]
    intro made hmem
    rcases List.mem_append.1 hmem with hmem | hmem
    · exact h made hmem
    · rw [List.mem_singleton.1 hmem]
      exact h.sound_of_outcome houtcome

theorem Sound.run (h : session.Sound) (calls : List Call) : (session.run calls).Sound := by
  -- Soundness is enough for the induction: inputs see the session and nothing else.
  induction calls generalizing session with
  | nil => exact h
  | cons call rest ih => exact ih (h.step call)

theorem run_append (session : Session) (calls more : List Call) :
    session.run (calls ++ more) = (session.run calls).run more :=
  List.foldl_append

end Soundness

theorem sound_empty : Sound [] := by
  intro made hmem
  exact absurd hmem List.not_mem_nil

/--
Whatever calls have made is valid, no longer than it was allowed to be, and under any
limits read back from its contents and from its text, unless these are too long.  A call
that makes an identifier puts it behind those made before, a call that fails changes
nothing, and every valid identifier can be made at any time.
-/
theorem run_makes_sound_identifiers (calls : List Call) :
    (∀ made ∈ run [] calls,
      made.oid.Valid ∧ made.oid.encodedLength ≤ made.limits.maxOctets ∧
      ∀ limits : Limits,
        Oid.ofContents limits made.oid.contents =
          (if made.oid.encodedLength ≤ limits.maxOctets then .ok made.oid
          else .error .tooLong) ∧
        Oid.ofText limits made.oid.text =
          (if made.oid.text.utf8ByteSize ≤ limits.maxTextLength ∧
              made.oid.encodedLength ≤ limits.maxOctets then .ok made.oid
          else .error .tooLong)) ∧
    ∀ call,
      (∀ oid, outcome (run [] calls) call = .ok oid →
        run [] (calls ++ [call]) = run [] calls ++ [⟨call.limits, oid⟩]) ∧
      (∀ failure, outcome (run [] calls) call = .error failure →
        run [] (calls ++ [call]) = run [] calls) ∧
      ∀ oid : Oid, oid.Valid → oid.encodedLength ≤ call.limits.maxOctets →
        ∃ input, outcome (run [] calls) ⟨call.limits, input⟩ = .ok oid := by
  refine ⟨?_, ?_⟩
  · intro made hmem
    obtain ⟨hvalid, hlength⟩ := sound_empty.run calls made hmem
    exact ⟨hvalid, hlength, fun limits =>
      ⟨hvalid.ofContents_contents limits, hvalid.ofText_text limits⟩⟩
  · intro call
    rw [run_append]
    refine ⟨fun _ => step_of_ok, fun _ => step_of_error, ?_⟩
    intro oid hvalid hlength
    refine ⟨.contents (.given oid.contents), ?_⟩
    exact mapError_eq_ok_iff.2 (Source.make_contents hvalid hlength)

end Session

end DerContents
