import LoopDirectives.Import.Operands

/-!
# Importing bounds

A lower or upper bound of one unit is built again in another. It may hold a constant, a variable, or
the sum of two of those. The operands are checked before the first change.
-/

namespace LoopDirectives.Import

def isBound (doc : Document) (node : NodeId) : Bool :=
  doc.isKind node .lowerBound || doc.isKind node .upperBound

def copyBound (doc : Document) (bound : NodeId) : Except TransformError (Document × NodeId) :=
  if isBound doc bound then
    match doc.copy? bound with
    | none => .error .notABound
    | some result => .ok result
  else .error .notABound

inductive BoundShape where
  | single (operand : NodeId)
  | sum (left right : NodeId)

def BoundShape.operands : BoundShape → List NodeId
  | single operand => [operand]
  | sum left right => [left, right]

/-- What a bound holds, if it is something that can be imported. -/
def shapeOf (doc : Document) (bound : NodeId) : Except TransformError BoundShape :=
  if isBound doc bound then
    match doc.firstChild? bound with
    | none => .error .emptyBound
    | some content =>
      if doc.isKind content (.binary .plus) then
        match doc.children content with
        | [left, right] => .ok (.sum left right)
        | _ => .error (.unsupportedBound (doc.tag content))
      else if isOperand (doc.kind content) then .ok (.single content)
      else .error (.unsupportedBound (doc.tag content))
  else .error .notABound

def checkOperands (unit : SourceUnit) : List NodeId → Except TransformError Unit
  | [] => .ok ()
  | operand :: rest => do
    checkOperand unit operand
    checkOperands unit rest

def importOperandsInPlace (source : SourceUnit) : List NodeId → InPlace (List NodeId)
  | [] => return []
  | operand :: rest => do
    let copy ← importOperandInPlace source operand
    return copy :: (← importOperandsInPlace source rest)

/-- A new bound of the kind that holds the operands, as a sum if there are two. -/
def assemble (doc : Document) (kind : Kind) (shape : BoundShape) (operands : List NodeId) :
    Document × NodeId :=
  let (created, bound) := doc.createOf kind
  match shape with
  | .single _ => (created.appendAll bound operands, bound)
  | .sum _ _ =>
    let (withSum, sum) := created.createOf (.binary .plus)
    ((withSum.append bound sum).appendAll sum operands, bound)

/-- The import of a bound, each step of which changes the unit in place. -/
def importBoundInPlace (source : SourceUnit) (bound : NodeId) : InPlace NodeId := do
  let shape ← InPlace.check (shapeOf source.document bound)
  InPlace.check (checkOperands source shape.operands)
  let operands ← importOperandsInPlace source shape.operands
  modifyGet fun target =>
    let (doc, copy) := assemble target.document (source.document.kind bound) shape operands
    (copy, { target with document := doc })

/-- A bound of `source` built again in `target`, hanging nowhere. -/
def importBound (source : SourceUnit) (bound : NodeId) (target : SourceUnit) :
    Except TransformError (SourceUnit × NodeId) :=
  InPlace.commit (importBoundInPlace source bound target)

end LoopDirectives.Import
