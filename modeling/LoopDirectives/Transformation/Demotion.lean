import LoopDirectives.Reference
import LoopDirectives.Siblings
import LoopDirectives.Transformation.Outcome
import LoopDirectives.Transformation.Target

/-!
# Demoting arrays

`demote array(a) [keep(d, ...)]` up to `end demote` drops dimensions from every reference to the
array in the region: all but the kept ones, or all of them, which leaves the bare variable.
-/

namespace LoopDirectives

/-- The array to be demoted, the dimensions to be kept, and the directive that closes the region. -/
structure Demotion where
  array : String
  kept : List Nat
  closing : NodeId
  deriving DecidableEq

namespace Demotion

def keyword : String := "demote"

/-- A position counted from `1`. -/
def position? (text : String) : Option Nat :=
  (Text.readNatural? (Text.wordLimit 64) text.toList).filter (1 ≤ ·)

/-- The demotion that a directive asks for, if it names an array and possible positions and its
region is closed. -/
def plan? (marker : String) (doc : Document) (directive : PlacedDirective) :
    Option Demotion := do
  let array ← directive.argument? "array"
  let kept ← (directive.arguments "keep").mapM position?
  let closing ← Target.closing? doc marker keyword directive.pragma
  return { array, kept, closing }

/-- The references to the array in the region that the pragma opens. -/
def references (doc : Document) (pragma : NodeId) (demotion : Demotion) : List NodeId :=
  Reference.arraysBelowAll doc demotion.array
    (Siblings.between doc pragma demotion.closing)

def checkAll (doc : Document) (kept : List Nat) : List NodeId → Except TransformError Unit
  | [] => .ok ()
  | reference :: rest => do
    Reference.checkKept doc kept reference
    checkAll doc kept rest

/-- Puts the bare variable in the place of every reference. A reference that went away with one
around it is passed over. -/
def toScalars (doc : Document) (references : List NodeId) : Document :=
  references.foldl
    (fun doc reference =>
      match Reference.toScalar? doc reference with
      | none => doc
      | some (scalar, _) => scalar)
    doc

/-- Drops dimensions from the references one after the other. The first failure ends it; what was
dropped before stays so. -/
def keepAll (doc : Document) (kept : List Nat) : List NodeId → Outcome Document
  | [] => { state := doc }
  | reference :: rest =>
    match Reference.keep doc kept reference with
    | .error cause => { state := doc, result := .error cause }
    | .ok reduced => keepAll reduced kept rest

/-- Deletes the directive that closes the region, once everything else succeeded. -/
def finish (demotion : Demotion) (outcome : Outcome Document) : Outcome Document :=
  if outcome.isOk then { outcome with state := outcome.state.delete demotion.closing } else outcome

def perform (doc : Document) (pragma : NodeId) (demotion : Demotion) : Outcome Document :=
  let references := demotion.references doc pragma
  if references.isEmpty then
    { state := doc, result := .error (.noReference demotion.array) }
  else
    match checkAll doc demotion.kept references with
    | .error cause => { state := doc, result := .error cause }
    | .ok () =>
      if demotion.kept.isEmpty then demotion.finish { state := toScalars doc references }
      else demotion.finish (keepAll doc demotion.kept references)

end Demotion

end LoopDirectives
