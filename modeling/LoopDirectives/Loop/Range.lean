import LoopDirectives.Loop.Basic

/-!
# Comparing ranges

Two ranges are the same when their bounds and steps are the same expressions. A part that is missing
is the same as nothing, except for the step, which both may lack. Two loops run over the same range
when also their variables are the same.
-/

namespace LoopDirectives.Loop

variable (doc : Document)

def sameOperand (left? right? : Option NodeId) : Bool :=
  match left?, right? with
  | some left, some right => doc.sameExpression left right
  | _, _ => false

/-- Whether the first nodes below both nodes are there and hold the same expression. -/
def sameContent (left? right? : Option NodeId) : Bool :=
  sameOperand doc (left?.bind doc.firstChild?) (right?.bind doc.firstChild?)

def sameStep (left right : NodeId) : Bool :=
  match doc.childOf? left .step, doc.childOf? right .step with
  | none, none => true
  | left?, right? => sameContent doc left? right?

def sameBound (kind : Kind) (left right : NodeId) : Bool :=
  sameContent doc (doc.childOf? left kind) (doc.childOf? right kind)

/-- Whether two ranges are the same, with or without regard to their lower bounds. Two ranges of
assumed shape are the same. -/
def sameRange (withLower : Bool) (left right : NodeId) : Bool :=
  doc.isKind left .indexRange && doc.isKind right .indexRange &&
    ((doc.flag left "is_assumed_shape" && doc.flag right "is_assumed_shape") ||
      ((!withLower || sameBound doc .lowerBound left right) &&
        sameBound doc .upperBound left right && sameStep doc left right))

def sameRanges (left right : List NodeId) : Bool :=
  left.length == right.length &&
    (left.zip right).all fun pair => sameRange doc true pair.1 pair.2

/-- Whether two loops have the same variable and range, with or without regard to the lower
bound. -/
def sameIteration (withLower : Bool) (left right : NodeId) : Bool :=
  doc.isKind left .doLoop && doc.isKind right .doLoop &&
    sameOperand doc (varNode? doc left) (varNode? doc right) &&
    match doc.childOf? left .indexRange, doc.childOf? right .indexRange with
    | some leftRange, some rightRange => sameRange doc withLower leftRange rightRange
    | _, _ => false

end LoopDirectives.Loop
