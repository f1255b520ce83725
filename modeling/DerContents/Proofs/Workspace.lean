import DerContents.Proofs.Arc.Reading
import DerContents.Proofs.Session
import DerContents.Workspace
import Mathlib.Data.List.ReduceOption

/-!
# Workspaces run on sessions

A command that makes an identifier is one call of a session under the limits in force: it
takes what it needs from identifiers that the session has made, and stores what the call
makes.  The other commands need no call.  So a run from empty slots stores, shows and sorts
only what a session makes, and that is valid.
-/

namespace DerContents

namespace Session

def Holds (session : Session) (oid : Oid) : Prop :=
  ∃ origin, session.oid? origin = some oid

/-- Arcs given by their numerals, whatever is at hand. -/
def ArcsInput.given : List Arc → ArcsInput
  | [] => .empty
  | arc :: rest => .joined (.single (.numeral arc.text)) (given rest)

def Input.given : Source → Input
  | .text dotted => .text (.given dotted)
  | .contents octets => .contents (.given octets)
  | .arcs numbers => .arcs (.given numbers)

variable {session : Session}

theorem arc?_numeral_text {arc : Arc} (h : arc.Normal) :
    session.arc? (.numeral arc.text) = some arc :=
  Arc.ofDecimal?_text h

theorem arcs?_given {arcs : List Arc} (h : ∀ arc ∈ arcs, arc.Normal) :
    session.arcs? (.given arcs) = some arcs := by
  induction arcs with
  | nil => rfl
  | cons arc rest ih =>
    have hrest := ih fun other hmem => h other (List.mem_cons_of_mem arc hmem)
    simp [ArcsInput.given, arcs?, arc?_numeral_text (h arc List.mem_cons_self), hrest]

theorem source?_given {source : Source} (h : source.Normal) :
    session.source? (.given source) = some source := by
  cases source with
  | text dotted => rfl
  | contents octets => rfl
  | arcs numbers => exact congrArg (Option.map Source.arcs) (arcs?_given h)

theorem Sound.valid_of_holds (h : session.Sound) {oid : Oid} (hoid : session.Holds oid) :
    oid.Valid := by
  rcases hoid with ⟨origin, horigin⟩
  exact h.valid_of_oid? horigin

theorem Holds.step {oid : Oid} (h : session.Holds oid) (call : Call) :
    (session.step call).Holds oid := by
  cases houtcome : session.outcome call with
  | error failure =>
    rw [step_of_error houtcome]
    exact h
  | ok made =>
    rw [step_of_ok houtcome]
    rcases h with ⟨origin, horigin⟩
    rcases Option.map_eq_some_iff.1 horigin with ⟨found, hfound, -⟩
    have hlt : origin < session.length := (List.getElem?_eq_some_iff.1 hfound).1
    refine ⟨origin, ?_⟩
    rw [oid?, List.getElem?_append_left hlt]
    exact horigin

theorem Holds.run {oid : Oid} (h : session.Holds oid) (calls : List Call) :
    (session.run calls).Holds oid := by
  induction calls generalizing session with
  | nil => exact h
  | cons call rest ih => exact ih (h.step call)

theorem holds_of_outcome {call : Call} {oid : Oid} (h : session.outcome call = .ok oid) :
    (session.step call).Holds oid := by
  rw [step_of_ok h]
  refine ⟨session.length, ?_⟩
  simp [oid?]

end Session

namespace Workspace

def HeldBy (workspace : Workspace) (session : Session) : Prop :=
  ∀ oid, some oid ∈ workspace.slots.toList → session.Holds oid

/-- The arcs that a command gives are normal. -/
def Command.Normal : Command → Prop
  | .make _ source => source.Normal
  | .push _ arcs => ∀ arc ∈ arcs, arc.Normal
  | .replace _ _ arc => arc.Normal
  | _ => True

def Outcome.oids : Outcome → List Oid
  | .limits _ => []
  | .stored oid => [oid]
  | .compared _ _ => []
  | .inspected oid => [oid]
  | .sorted slots => slots.reduceOption

/-- The session has made what a command leaves in the slots and what it answers. -/
def ResultHeldBy (result : Workspace × Outcome) (session : Session) : Prop :=
  result.1.HeldBy session ∧ ∀ oid ∈ result.2.oids, session.Holds oid

variable {workspace : Workspace} {session : Session}

theorem HeldBy.exists_of_read (h : workspace.HeldBy session) {operand : Operand} {slot : Slot}
    {α : Type} {next : Oid → Except Failure α} {result : α}
    (hresult : (workspace.read operand slot >>= next) = .ok result) :
    ∃ origin oid, session.oid? origin = some oid ∧ next oid = .ok result := by
  unfold read at hresult
  split at hresult
  next oid hslot =>
    have hmem : some oid ∈ workspace.slots.toList := by
      rw [← hslot]
      simp
    rcases h oid hmem with ⟨origin, horigin⟩
    exact ⟨origin, oid, horigin, hresult⟩
  next => cases hresult

theorem HeldBy.store (h : workspace.HeldBy session) (target : Slot) {oid : Oid}
    (hoid : session.Holds oid) : ResultHeldBy (workspace.store target oid) session := by
  constructor
  · intro other hmem
    simp only [Workspace.store, Vector.toList_set] at hmem
    rcases List.mem_or_eq_of_mem_set hmem with hmem | hsame
    · exact h other hmem
    · cases hsame
      exact hoid
  · intro other hmem
    rw [List.mem_singleton.1 hmem]
    exact hoid

/-- Making an identifier from what a session has for it is a call of the session. -/
theorem HeldBy.storeMade (h : workspace.HeldBy session) {input : Session.Input}
    {source : Source} (hsource : session.source? input = some source) {target : Slot}
    {result : Workspace × Outcome} (hresult : workspace.storeMade target source = .ok result) :
    ResultHeldBy result (session.step ⟨workspace.limits, input⟩) := by
  unfold Workspace.storeMade at hresult
  cases hmake : source.make workspace.limits with
  | error failure =>
    rw [hmake] at hresult
    cases hresult
  | ok oid =>
    rw [hmake] at hresult
    cases hresult
    have hcall : session.outcome ⟨workspace.limits, input⟩ = .ok oid := by
      rw [Session.outcome, hsource]
      exact mapError_eq_ok_iff.2 hmake
    have hheld : workspace.HeldBy (session.step ⟨workspace.limits, input⟩) :=
      fun other hmem => (h other hmem).step _
    exact hheld.store target (Session.holds_of_outcome hcall)

theorem HeldBy.sortSlots (h : workspace.HeldBy session) {oid : Oid}
    (hmem : some oid ∈ workspace.sortSlots.toList) : session.Holds oid :=
  h oid ((perm_ascending _).mem_iff.1 hmem)

/-- A command is matched by no call, or by one under the limits in force. -/
theorem HeldBy.step (h : workspace.HeldBy session) {command : Command}
    (hcommand : command.Normal) {result : Workspace × Outcome}
    (hstep : workspace.step command = .ok result) :
    ResultHeldBy result session ∨
      ∃ input, ResultHeldBy result (session.step ⟨workspace.limits, input⟩) := by
  cases command with
  | setLimits limits =>
    cases hstep
    exact .inl ⟨h, fun oid hmem => absurd hmem List.not_mem_nil⟩
  | make target source =>
    exact .inr ⟨.given source, h.storeMade (Session.source?_given hcommand) hstep⟩
  | copy target origin =>
    rcases h.exists_of_read hstep with ⟨i, oid, hoid, hsome⟩
    cases hsome
    exact .inl (h.store target ⟨i, hoid⟩)
  | push target arcs =>
    rcases h.exists_of_read hstep with ⟨i, oid, hoid, hmade⟩
    refine .inr ⟨.arcs (.joined (.taken i) (.given arcs)), h.storeMade ?_ hmade⟩
    simp [Session.source?, Session.arcs?, hoid, Session.arcs?_given hcommand]
  | pop target =>
    rcases h.exists_of_read hstep with ⟨i, oid, hoid, hmade⟩
    refine .inr ⟨.arcs (.cut 0 (oid.arcs.length - 1) (.taken i)), h.storeMade ?_ hmade⟩
    simp [Session.source?, Session.arcs?, hoid, List.dropLast_eq_take]
  | replace target index arc =>
    rcases h.exists_of_read hstep with ⟨i, oid, hoid, hmade⟩
    refine .inr ⟨.arcs (.replaced index (.numeral arc.text) (.taken i)), h.storeMade ?_ hmade⟩
    simp [Session.source?, Session.arcs?, hoid, Session.arc?_numeral_text hcommand]
  | append target origin =>
    rcases h.exists_of_read hstep with ⟨i, oid, hoid, hmore⟩
    rcases h.exists_of_read hmore with ⟨j, other, hother, hmade⟩
    refine .inr ⟨.arcs (.joined (.taken i) (.taken j)), h.storeMade ?_ hmade⟩
    simp [Session.source?, Session.arcs?, hoid, hother]
  | redecode target =>
    rcases h.exists_of_read hstep with ⟨i, oid, hoid, hmade⟩
    refine .inr ⟨.contents (.encoded i), h.storeMade ?_ hmade⟩
    simp [Session.source?, Session.octets?, hoid]
  | reparse target =>
    rcases h.exists_of_read hstep with ⟨i, oid, hoid, hmade⟩
    refine .inr ⟨.text (.written i), h.storeMade ?_ hmade⟩
    simp [Session.source?, Session.text?, hoid]
  | join target origin =>
    rcases h.exists_of_read hstep with ⟨i, oid, hoid, hmore⟩
    rcases h.exists_of_read hmore with ⟨j, other, hother, hmade⟩
    refine .inr ⟨.contents (.joined (.encoded i) (.encoded j)), h.storeMade ?_ hmade⟩
    simp [Session.source?, Session.octets?, hoid, hother]
  | cut target length =>
    rcases h.exists_of_read hstep with ⟨i, oid, hoid, hmade⟩
    refine .inr ⟨.contents (.cut 0 length (.encoded i)), h.storeMade ?_ hmade⟩
    simp [Session.source?, Session.octets?, hoid]
  | compare left right =>
    rcases h.exists_of_read hstep with ⟨i, a, -, hmore⟩
    rcases h.exists_of_read hmore with ⟨j, b, -, hsome⟩
    cases hsome
    exact .inl ⟨h, fun oid hmem => absurd hmem List.not_mem_nil⟩
  | inspect target =>
    rcases h.exists_of_read hstep with ⟨i, oid, hoid, hsome⟩
    cases hsome
    refine .inl ⟨h, ?_⟩
    intro other hmem
    rw [List.mem_singleton.1 hmem]
    exact ⟨i, hoid⟩
  | sort =>
    cases hstep
    refine .inl ⟨fun oid => h.sortSlots, ?_⟩
    intro oid hmem
    exact h.sortSlots (List.reduceOption_mem_iff.1 hmem)

theorem HeldBy.exists_calls_of_step (h : workspace.HeldBy session) {command : Command}
    (hcommand : command.Normal) {result : Workspace × Outcome}
    (hstep : workspace.step command = .ok result) :
    ∃ calls, ResultHeldBy result (session.run calls) := by
  rcases h.step hcommand hstep with hresult | ⟨input, hresult⟩
  · exact ⟨[], hresult⟩
  · exact ⟨[⟨workspace.limits, input⟩], hresult⟩

/-- The answers to commands, those after failures included, show what one session makes. -/
theorem HeldBy.run (h : workspace.HeldBy session) {commands : List Command}
    (hcommands : ∀ command ∈ commands, command.Normal) :
    ∃ calls, ∀ outcome, .ok outcome ∈ workspace.run commands →
      ∀ oid ∈ outcome.oids, (session.run calls).Holds oid := by
  induction commands generalizing workspace session with
  | nil =>
    refine ⟨[], ?_⟩
    intro outcome hmem
    exact absurd hmem List.not_mem_nil
  | cons command rest ih =>
    have hcommand := hcommands command List.mem_cons_self
    have hrest := fun other hmem => hcommands other (List.mem_cons_of_mem command hmem)
    unfold Workspace.run
    split
    next next answer hstep =>
      rcases h.exists_calls_of_step hcommand hstep with ⟨calls, hnext, hanswer⟩
      rcases ih hnext hrest with ⟨more, hmore⟩
      refine ⟨calls ++ more, ?_⟩
      rw [Session.run_append]
      intro outcome hmem oid hoid
      rcases List.mem_cons.1 hmem with hsame | hmem
      · cases hsame
        exact (hanswer oid hoid).run more
      · exact hmore outcome hmem oid hoid
    next failure hstep =>
      rcases ih h hrest with ⟨calls, hcalls⟩
      refine ⟨calls, ?_⟩
      intro outcome hmem
      rcases List.mem_cons.1 hmem with hsame | hmem
      · cases hsame
      · exact hcalls outcome hmem

theorem empty_heldBy (session : Session) : empty.HeldBy session := by
  intro oid hmem
  have hnone : some oid = none := List.eq_of_mem_replicate hmem
  cases hnone

/-- Whatever commands are given, a run from empty slots answers with valid identifiers. -/
theorem valid_of_mem_run_empty {commands : List Command}
    (hcommands : ∀ command ∈ commands, command.Normal) {outcome : Outcome}
    (hmem : .ok outcome ∈ empty.run commands) : ∀ oid ∈ outcome.oids, oid.Valid := by
  rcases (empty_heldBy []).run hcommands with ⟨calls, hcalls⟩
  intro oid hoid
  exact (Session.sound_empty.run calls).valid_of_holds (hcalls outcome hmem oid hoid)

end Workspace

end DerContents
