import LoopDirectives.Import.Bounds
import LoopDirectives.Transformation.Outcome
import LoopDirectives.Transformation.Target

/-!
# Importing the bounds of an array

`import-bounds module(m) array(a) [dimension(n)]` before a loop gives the loop the bounds of the
`n`-th dimension of an array that another module declares.
-/

namespace LoopDirectives

/-- The program being transformed and the modules loaded for it. -/
structure Workspace where
  program : SourceUnit
  library : Library

/-- The loop that gets new bounds, and where they come from. -/
structure BoundsImport where
  module : String
  array : String
  dimension : Nat
  loop : NodeId
  deriving DecidableEq

namespace BoundsImport

/-- The dimension that the directive names, counted from `1`; the first if it names none. -/
def dimensionOf? (directive : PlacedDirective) : Option Nat :=
  match directive.argument? "dimension" with
  | none => some 1
  | some text => (Text.readNatural? (Text.wordLimit 64) text.toList).filter (1 ≤ ·)

def isBounded (doc : Document) (loop : NodeId) : Bool :=
  (doc.path? loop [.indexRange, .lowerBound]).isSome &&
    (doc.path? loop [.indexRange, .upperBound]).isSome

/-- The import that a directive asks for, if it names a module, an array and a possible dimension
and a loop with both bounds follows it. -/
def plan? (doc : Document) (directive : PlacedDirective) : Option BoundsImport := do
  let module ← directive.argument? "module"
  let array ← directive.argument? "array"
  let dimension ← dimensionOf? directive
  let loop ← (Target.nextLoop? doc directive.pragma).filter (isBounded doc)
  return { module, array, dimension, loop }

def arrayForm? (unit : SourceUnit) (symbol : Symbol) : Option BasicForm :=
  (symbol.type?.bind unit.types.basic?).filter BasicForm.isArray

def declaredRange (plan : BoundsImport) (unit : SourceUnit) : Except TransformError NodeId :=
  match unit.symbols.get? plan.array with
  | none => .error (.undeclaredArray plan.array plan.module)
  | some symbol =>
    match arrayForm? unit symbol with
    | none => .error (.notAnArray plan.array)
    | some form =>
      match form.dimensions[plan.dimension - 1]?.filter (unit.document.isKind · .indexRange) with
      | none => .error (.noDimension plan.array plan.dimension)
      | some range =>
        if unit.document.flag range "is_assumed_shape" then
          .error (.assumedShape plan.array plan.dimension)
        else .ok range

def boundOf (doc : Document) (start : NodeId) (path : List Kind) :
    Except TransformError NodeId :=
  match doc.path? start path with
  | none => .error .missingIterationRange
  | some bound => .ok bound

def declaredBounds (plan : BoundsImport) (unit : SourceUnit) :
    Except TransformError (NodeId × NodeId) := do
  let range ← plan.declaredRange unit
  let lower ← boundOf unit.document range [.lowerBound]
  let upper ← boundOf unit.document range [.upperBound]
  return (lower, upper)

def loopBounds (plan : BoundsImport) (doc : Document) :
    Except TransformError (NodeId × NodeId) := do
  let lower ← boundOf doc plan.loop [.indexRange, .lowerBound]
  let upper ← boundOf doc plan.loop [.indexRange, .upperBound]
  return (lower, upper)

/-- Puts new bounds, hanging nowhere, in the place of those of the loop. -/
def replaceBounds (plan : BoundsImport) (program : SourceUnit) (lower upper : NodeId) :
    Except TransformError SourceUnit := do
  let (oldLower, oldUpper) ← plan.loopBounds program.document
  return { program with
    document := (program.document.replace oldLower lower).replace oldUpper upper }

def performFrom (plan : BoundsImport) (unit program : SourceUnit) : Outcome SourceUnit :=
  match plan.declaredBounds unit with
  | .error cause => { state := program, result := .error cause }
  | .ok (sourceLower, sourceUpper) =>
    match Import.importBoundInPlace unit sourceLower program with
    | .error cause changed => { state := changed, result := .error cause }
    | .ok lower withLower =>
      match Import.importBoundInPlace unit sourceUpper withLower with
      | .error cause changed =>
        { state := { changed with document := changed.document.delete lower }
          result := .error cause }
      | .ok upper withBoth =>
        Outcome.ofExcept withBoth (plan.replaceBounds withBoth lower upper)

/-- Gives the loop the bounds that the module declares, which is loaded if need be. -/
def perform (files : Files) (workspace : Workspace) (plan : BoundsImport) : Outcome Workspace :=
  match workspace.library.load files plan.module with
  | .error cause => { state := workspace, result := .error (.module cause) }
  | .ok (library, unit) =>
    (plan.performFrom unit workspace.program).map fun program => { program, library }

end BoundsImport

end LoopDirectives
