import DerContents.Proofs.Oid.Contents
import DerContents.Proofs.Oid.Text
import DerContents.Session

/-!
# What sources make

Text, contents and arcs are checked in different places, but each of the three makes
valid identifiers only, no longer than the limits allow.
-/

namespace DerContents

theorem mapError_eq_ok_iff {ε δ α : Type} {f : ε → δ} {result : Except ε α} {value : α} :
    result.mapError f = .ok value ↔ result = .ok value := by
  cases result with
  | error failure => simp [Except.mapError]
  | ok made => simp [Except.mapError]

namespace Source

/-- The arcs that a source gives are normal; text and contents give none. -/
def Normal : Source → Prop
  | .arcs numbers => ∀ arc ∈ numbers, arc.Normal
  | _ => True

theorem Normal.valid_of_make {limits : Limits} {source : Source} (hnormal : source.Normal)
    {oid : Oid} (h : source.make limits = .ok oid) :
    oid.Valid ∧ oid.encodedLength ≤ limits.maxOctets := by
  rw [← Oid.length_contents]
  cases source with
  | text dotted =>
    obtain ⟨hvalid, -, -, hlength⟩ := Oid.ofText_eq_ok_iff.1 (mapError_eq_ok_iff.1 h)
    exact ⟨hvalid, hlength⟩
  | contents octets =>
    obtain ⟨hvalid, rfl, hlength⟩ := Oid.ofContents_eq_ok_iff.1 (mapError_eq_ok_iff.1 h)
    exact ⟨hvalid, hlength⟩
  | arcs numbers =>
    obtain ⟨-, hvalid, hlength⟩ :=
      (Oid.ofArcs_eq_ok_iff hnormal).1 (mapError_eq_ok_iff.1 h)
    exact ⟨hvalid, hlength⟩

theorem make_contents {limits : Limits} {oid : Oid} (hvalid : oid.Valid)
    (hlength : oid.encodedLength ≤ limits.maxOctets) :
    (contents oid.contents).make limits = .ok oid := by
  apply mapError_eq_ok_iff.2
  rw [hvalid.ofContents_contents, if_pos hlength]

end Source

end DerContents
