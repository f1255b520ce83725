import DerContents.Proofs.Hex.Checked
import DerContents.Proofs.Oid.Checked

/-!
# Checked access never fails

What is made from a source can be accessed in every place that its contents are written
from, and each of the fallbacks stands behind a check that has ruled it out.  So the
definitions that run have the outcome of the checked ones for all sources, under all limits.
-/

namespace DerContents

namespace Source

def makeChecked? (limits : Limits) : Source → Option (Except Error Oid)
  | .text dotted => (Oid.ofTextChecked? limits dotted).map (·.mapError .parse)
  | .contents octets => (Oid.ofContentsChecked? limits octets).map (·.mapError .decode)
  | .arcs numbers => (Oid.ofArcsChecked? limits numbers).map (·.mapError .parse)

theorem makeChecked?_eq (limits : Limits) (source : Source) :
    source.makeChecked? limits = some (source.make limits) := by
  cases source with
  | text dotted => rw [makeChecked?, Oid.ofTextChecked?_eq]; rfl
  | contents octets => rw [makeChecked?, Oid.ofContentsChecked?_eq]; rfl
  | arcs numbers => rw [makeChecked?, Oid.ofArcsChecked?_eq]; rfl

theorem check_of_make {limits : Limits} {source : Source} {oid : Oid}
    (h : source.make limits = .ok oid) : Oid.check oid.arcs = .ok () := by
  cases source with
  | text dotted => exact (Oid.ofText_eq_ok_iff.1 (mapError_eq_ok_iff.1 h)).1.check_arcs
  | contents octets => exact (Oid.ofContents_eq_ok_iff.1 (mapError_eq_ok_iff.1 h)).1.check_arcs
  | arcs numbers =>
    have hmade := mapError_eq_ok_iff.1 h
    rw [Oid.arcs_of_ofArcs hmade]
    exact Oid.check_of_ofArcs hmade

/--
Nothing that is made, written or read goes through a fallback or leaves its bounds: with
every access checked, making gives the same outcome, what was made gives the same contents
and the same length, octets read to an end have a subidentifier that is unpacked the same,
and hex text gives the same octets.
-/
theorem checked_access_succeeds (limits : Limits) :
    (∀ source : Source, source.makeChecked? limits = some (source.make limits)) ∧
    (∀ (source : Source) (oid : Oid), source.make limits = .ok oid →
      oid.Accessible ∧ oid.encodedLengthChecked? = some oid.encodedLength ∧
        oid.contentsChecked? = some oid.contents) ∧
    (∀ (octets : Octets) (last : Oid.Progress), octets ≠ [] →
      Oid.Progress.start.run octets = .ok last → last.atStart = true →
        ∃ packed rest, last.subidentifiers = packed :: rest ∧
          Oid.unpackChecked? packed = some (Oid.unpack packed)) ∧
    ∀ text : List Char, Hex.ofTextChecked? text = some (Hex.ofText text) := by
  refine ⟨makeChecked?_eq limits, ?_, ?_, Hex.ofTextChecked?_eq⟩
  · intro source oid hmake
    have hcheck := check_of_make hmake
    refine ⟨Oid.accessible_of_check hcheck, ?_⟩
    obtain ⟨arcs⟩ := oid
    obtain ⟨first, second, rest, rfl⟩ := Oid.exists_cons_of_check hcheck
    exact ⟨Oid.encodedLengthChecked?_eq hcheck, Oid.contentsChecked?_eq hcheck⟩
  · intro octets last hne hrun hstart
    apply Oid.exists_unpack_of_finish hne
    rw [hrun]
    exact if_pos hstart

/-- A second arc that is the largest word shares a subidentifier that is no word any more. -/
theorem checked_access_succeeds_beyond_a_word :
    (contents [0x90, 0x80, 0x80, 0x80, 0x4F]).make .standard =
        .ok ⟨[⟨[2]⟩, ⟨[0xFFFFFFFF]⟩]⟩ ∧
      Oid.Accessible ⟨[⟨[2]⟩, ⟨[0xFFFFFFFF]⟩]⟩ ∧
      Oid.contentsChecked? ⟨[⟨[2]⟩, ⟨[0xFFFFFFFF]⟩]⟩ =
        some [0x90, 0x80, 0x80, 0x80, 0x4F] ∧
      Oid.unpackChecked? ⟨[79, 1]⟩ = some [⟨[2]⟩, ⟨[0xFFFFFFFF]⟩] := by
  obtain ⟨-, hmade, hread, -⟩ := checked_access_succeeds .standard
  have hmake : (contents [0x90, 0x80, 0x80, 0x80, 0x4F]).make .standard =
      .ok ⟨[⟨[2]⟩, ⟨[0xFFFFFFFF]⟩]⟩ := by decide +kernel
  have hcontents : Oid.contents ⟨[⟨[2]⟩, ⟨[0xFFFFFFFF]⟩]⟩ =
      [0x90, 0x80, 0x80, 0x80, 0x4F] := by decide +kernel
  have hrun : Oid.Progress.start.run [0x90, 0x80, 0x80, 0x80, 0x4F] =
      .ok ⟨[⟨[79, 1]⟩], Arc.zero, true⟩ := by decide +kernel
  have hunpack : Oid.unpack ⟨[79, 1]⟩ = [⟨[2]⟩, ⟨[0xFFFFFFFF]⟩] := by decide +kernel
  obtain ⟨haccessible, -, hwritten⟩ := hmade _ _ hmake
  obtain ⟨packed, rest, hfirst, hunpacked⟩ := hread _ _ (List.cons_ne_nil _ _) hrun rfl
  cases hfirst
  exact ⟨hmake, haccessible, hcontents ▸ hwritten, hunpack ▸ hunpacked⟩

end Source

end DerContents
