import DerContents.Session

/-!
# Workspace

Four slots that hold object identifiers, and the limits in force.  Commands make
identifiers from input or from the arcs, the contents and the text of those at hand.  A
command that fails leaves the workspace as it was.
-/

namespace DerContents

structure Workspace where
  limits : Limits
  slots : Vector (Option Oid) 4

namespace Workspace

abbrev Slot := Fin 4

inductive Command where
  | setLimits (limits : Option Limits)
  | make (target : Slot) (source : Source)
  | copy (target origin : Slot)
  | push (target : Slot) (arcs : List Arc)
  | pop (target : Slot)
  | replace (target : Slot) (index : Fin 2) (arc : Arc)
  | append (target origin : Slot)
  | redecode (target : Slot)
  | reparse (target : Slot)
  | join (target origin : Slot)
  | cut (target : Slot) (length : Nat)
  | compare (left right : Slot)
  | inspect (target : Slot)
  | sort
deriving DecidableEq, Repr

inductive Outcome where
  | limits (limits : Option Limits)
  | stored (oid : Oid)
  | compared (order : Ordering) (startsWith : Bool)
  | inspected (oid : Oid)
  | sorted (slots : List (Option Oid))
deriving DecidableEq, Repr

/-- The part that a slot plays in a command. -/
inductive Operand where
  | target
  | origin
  | left
  | right
deriving DecidableEq, Repr

inductive Failure where
  | source (error : Source.Error)
  | emptySlot (operand : Operand)
deriving DecidableEq, Repr

def empty : Workspace := ⟨.standard, .replicate 4 none⟩

def read (workspace : Workspace) (operand : Operand) (slot : Slot) : Except Failure Oid :=
  match workspace.slots[slot] with
  | some oid => .ok oid
  | none => .error (.emptySlot operand)

def store (workspace : Workspace) (target : Slot) (oid : Oid) : Workspace × Outcome :=
  (⟨workspace.limits, workspace.slots.set target (some oid)⟩, .stored oid)

/-- Make an identifier under the limits in force and put it into a slot. -/
def storeMade (workspace : Workspace) (target : Slot) (source : Source) :
    Except Failure (Workspace × Outcome) :=
  ((source.make workspace.limits).map (workspace.store target)).mapError .source

/-- The slots in ascending order, the empty ones first. -/
def sortSlots (workspace : Workspace) : Vector (Option Oid) 4 :=
  ⟨(ascending workspace.slots.toList).toArray, by
    rw [List.size_toArray, length_ascending, Vector.length_toList]⟩

def step (workspace : Workspace) : Command → Except Failure (Workspace × Outcome)
  | .setLimits limits =>
    .ok (⟨limits.getD .standard, workspace.slots⟩, .limits limits)
  | .make target source => workspace.storeMade target source
  | .copy target origin => do
    let oid ← workspace.read .origin origin
    return workspace.store target oid
  | .push target arcs => do
    let oid ← workspace.read .target target
    workspace.storeMade target (.arcs (oid.arcs ++ arcs))
  | .pop target => do
    let oid ← workspace.read .target target
    workspace.storeMade target (.arcs oid.arcs.dropLast)
  | .replace target index arc => do
    let oid ← workspace.read .target target
    workspace.storeMade target (.arcs (oid.arcs.set index arc))
  | .append target origin => do
    let oid ← workspace.read .target target
    let other ← workspace.read .origin origin
    workspace.storeMade target (.arcs (oid.arcs ++ other.arcs))
  | .redecode target => do
    let oid ← workspace.read .target target
    workspace.storeMade target (.contents oid.contents)
  | .reparse target => do
    let oid ← workspace.read .target target
    workspace.storeMade target (.text oid.text)
  | .join target origin => do
    let oid ← workspace.read .target target
    let other ← workspace.read .origin origin
    workspace.storeMade target (.contents (oid.contents ++ other.contents))
  | .cut target length => do
    let oid ← workspace.read .target target
    workspace.storeMade target (.contents (oid.contents.take length))
  | .compare left right => do
    let a ← workspace.read .left left
    let b ← workspace.read .right right
    return (workspace, .compared (Ord.compare a b) (a.startsWith b))
  | .inspect target => do
    let oid ← workspace.read .target target
    return (workspace, .inspected oid)
  | .sort =>
    let slots := workspace.sortSlots
    .ok (⟨workspace.limits, slots⟩, .sorted slots.toList)

/-- The answers to commands, each run on what the ones before it left. -/
def run (workspace : Workspace) : List Command → List (Except Failure Outcome)
  | [] => []
  | command :: rest =>
    match workspace.step command with
    | .ok (next, outcome) => .ok outcome :: run next rest
    | .error failure => .error failure :: run workspace rest

end Workspace

end DerContents
