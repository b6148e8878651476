import LoopDirectives.TransformError
import LoopDirectives.Transformation.Target

/-!
# Rotating operands

`rotate-operands` before an assignment of a sum or a product moves the first operand to the end.
-/

namespace LoopDirectives

structure Rotation where
  expression : NodeId
  deriving DecidableEq

namespace Rotation

/-- The operators whose operands can be put into another order. -/
def commutative : List Kind :=
  [.binary .plus, .binary .times]

/-- Whether the expression is a sum or product of two or more operands. -/
def isRotatable (doc : Document) (expression : NodeId) : Bool :=
  commutative.contains (doc.kind expression) && 2 ≤ (doc.children expression).length

/-- The rotation that a directive asks for, if an assignment of a sum or product follows it. -/
def plan? (doc : Document) (directive : PlacedDirective) : Option Rotation := do
  let statement ← (Target.nextStatement? doc directive.pragma).filter
    (doc.isKind · .assignment)
  let expression ← (doc.child? statement 1).filter (isRotatable doc)
  return { expression }

def perform (doc : Document) (rotation : Rotation) : Except TransformError Document :=
  match doc.firstChild? rotation.expression with
  | none => .error .lostOperands
  | some first => .ok (doc.append rotation.expression first)

end Rotation

end LoopDirectives
