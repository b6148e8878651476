import LoopDirectives.Loop.Header
import LoopDirectives.Transformation.Outcome
import LoopDirectives.Transformation.Target

/-!
# Loop interchange

`loop-interchange [order(i, j[, k])]` before a nest of loops rearranges their headers: as the order
says, outermost first, or, without an order, by exchanging the two outer ones. The loops themselves
and their bodies stay in place.
-/

namespace LoopDirectives

/-- The loops of a nest, outermost first, and the variables in the order wanted. -/
structure Interchange where
  order : List String
  nest : List NodeId
  deriving DecidableEq

namespace Interchange

/-- The depth of the nest that an order of so many variables is for. -/
def depth? (length : Nat) : Option Nat :=
  match length with
  | 0 | 2 => some 2
  | 3 => some 3
  | _ => none

/-- The interchange that a directive asks for, if a nest follows it that is deep enough, whose loops
all have a variable, and to which the order fits. -/
def plan? (doc : Document) (directive : PlacedDirective) : Option Interchange := do
  let order := (directive.arguments "order").map Text.lower
  let depth ← depth? order.length
  let outer ← Target.nextLoop? doc directive.pragma
  let nest ← (Loop.nest? doc depth outer).filter (·.length == depth)
  let bound := (Loop.varNames doc nest).map Text.lower
  if bound.length = depth && order.all bound.contains && order.Nodup then
    some { order, nest }
  else none

def place (doc : Document) (nest : List NodeId) (level : Nat) (wanted : String) :
    Except TransformError Document :=
  match (Loop.varNames doc nest).findIdx? (Text.sameLetters · wanted) with
  | none => .error (.lostVariable wanted)
  | some current =>
    if current = level then .ok doc
    else
      match nest[level]?, nest[current]? with
      | some left, some right => Loop.exchangeHeaders doc left right
      | _, _ => .error .missingIterationRange

/-- Brings the headers of the variables one after the other to the levels from `level` on. The first
failure ends it; what was placed before stays. -/
def arrange (doc : Document) (nest : List NodeId) (level : Nat) :
    List String → Outcome Document
  | [] => { state := doc }
  | wanted :: rest =>
    match place doc nest level wanted with
    | .error cause => { state := doc, result := .error cause }
    | .ok placed => arrange placed nest (level + 1) rest

def perform (doc : Document) (interchange : Interchange) : Outcome Document :=
  if interchange.order.isEmpty then
    match interchange.nest with
    | outer :: inner :: _ =>
      Outcome.ofExcept doc (Loop.exchangeHeaders doc outer inner)
    | _ => { state := doc, result := .error .missingIterationRange }
  else arrange doc interchange.nest 0 interchange.order

end Interchange

end LoopDirectives
