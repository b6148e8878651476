import LoopDirectives.Loop.Body
import LoopDirectives.Loop.Range
import LoopDirectives.Pragma.Neighbours
import LoopDirectives.Transformation.Target

/-!
# Loop fusion

`loop-fusion [group(name)]` before each of two loops with the same range merges the second loop into
the first: its statements go to the end of the first body, and the second loop goes away with the
pragmas beside it that are about loops.
-/

namespace LoopDirectives

/-- A loop to be fused, and the group within which it may be. -/
structure Fusion where
  group? : Option String
  loop : NodeId
  deriving DecidableEq

namespace Fusion

/-- The words that mark the pragmas that only make sense for one loop. -/
def loopWords : List String := ["loop"]

/-- The fusion that a directive asks for, if a loop follows it. -/
def plan? (doc : Document) (directive : PlacedDirective) : Option Fusion :=
  (Target.nextLoop? doc directive.pragma).map fun loop =>
    { group? := (directive.argument? "group").map Text.lower, loop }

/-- Whether the loops can be fused: different ones of the same group, side by side, with the same
variable and range. -/
def compatible (doc : Document) (first second : Fusion) : Bool :=
  first.loop != second.loop && first.group? == second.group? &&
    (doc.parent? first.loop).isSome &&
    doc.parent? first.loop == doc.parent? second.loop &&
    Loop.sameIteration doc true first.loop second.loop

def perform (marker : String) (doc : Document) (first second : Fusion) :
    Except TransformError Document :=
  match Loop.body? doc first.loop, Loop.body? doc second.loop with
  | some body, some extra => do
    let merged ← Loop.appendBody doc body extra
    let cleaned := Pragma.cleanAround merged marker second.loop loopWords loopWords
    return cleaned.delete second.loop
  | _, _ => .error .notABody

end Fusion

end LoopDirectives
