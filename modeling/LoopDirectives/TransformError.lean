import LoopDirectives.Library

/-!
# Why a transformation fails

One cause per kind of failure. A failure concerns one directive only; `TransformError.message` is
what the report says of it.
-/

namespace LoopDirectives

inductive TransformError where
  /-- A bound is built from something other than constants, variables and sums of two of those. -/
  | unsupportedBound (tag : String)
  /-- A loop header lacks its variable, its range or one of its bounds. -/
  | missingIterationRange
  | notALoop (tag : String)
  | notABody
  | notABound
  | emptyBound
  | undeclaredType (type unit : String)
  /-- The element of a declared symbol is not there any more. -/
  | deletedSymbol (name : String)
  | deletedNode
  /-- Dimensions were to be dropped from something that is not an array reference. -/
  | notAnArrayReference (tag : String)
  | dimensionOutOfRange (position : Nat) (array : String) (rank : Nat)
  | noReference (array : String)
  | lostVariable (name : String)
  | lostOperands
  | undeclaredArray (array unit : String)
  | notAnArray (array : String)
  | noDimension (array : String) (dimension : Nat)
  /-- The extent of the dimension is not declared. -/
  | assumedShape (array : String) (dimension : Nat)
  | unplanned (keyword : String)
  | differentKinds
  | notAccepted (keyword : String)
  | module (cause : ModuleError)
  deriving DecidableEq

def TransformError.message : TransformError → String
  | unsupportedBound tag => "Lower/upper bound type currently not supported (" ++ tag ++ ")"
  | missingIterationRange => "Induction variable or index range missing"
  | notALoop tag => "Expected a do statement, found `" ++ tag ++ "`"
  | notABody => "One of the bodies is missing"
  | notABound => "Cannot duplicate bound"
  | emptyBound => "Cannot duplicate bound as it has no children element"
  | undeclaredType type unit => "Type `" ++ type ++ "` is not declared in `" ++ unit ++ "`"
  | deletedSymbol name => "Symbol `" ++ name ++ "` was deleted"
  | deletedNode => "Cannot import a deleted node"
  | notAnArrayReference tag => "Cannot demote `" ++ tag ++ "`"
  | dimensionOutOfRange position array rank =>
    "Dimension " ++ toString position ++ " is out of range for `" ++ array ++ "` of rank " ++
      toString rank
  | noReference array => "No reference to `" ++ array ++ "` in the demote region"
  | lostVariable name => "Induction variable `" ++ name ++ "` vanished"
  | lostOperands => "Expression lost its operands"
  | undeclaredArray array unit =>
    "`" ++ array ++ "` is not declared in module `" ++ unit ++ "`"
  | notAnArray array => "`" ++ array ++ "` is not an array"
  | noDimension array dimension => "`" ++ array ++ "` has no dimension " ++ toString dimension
  | assumedShape array dimension =>
    "Dimension " ++ toString dimension ++ " of `" ++ array ++ "` is assumed-shape"
  | unplanned keyword => keyword ++ " applied without analysis"
  | differentKinds => "Cannot pair transformations of different kinds"
  | notAccepted keyword => "Directive `" ++ keyword ++ "` applied before a successful analysis"
  | module cause => cause.message

end LoopDirectives
