import LoopDirectives.Siblings
import LoopDirectives.Transformation.Target

/-!
# Removing statements

`remove` up to `end remove` deletes what stands between them; without an end it deletes the next
statement.
-/

namespace LoopDirectives

inductive Removal where
  /-- Everything up to the directive that closes the region, and that directive. -/
  | region (closing : NodeId)
  | single (statement : NodeId)
  deriving DecidableEq

namespace Removal

def keyword : String := "remove"

/-- The removal that a directive asks for, if there is anything to remove. -/
def plan? (marker : String) (doc : Document) (directive : PlacedDirective) :
    Option Removal :=
  match Target.closing? doc marker keyword directive.pragma with
  | some closing => some (.region closing)
  | none => (Target.nextStatement? doc directive.pragma).map single

def perform (doc : Document) (pragma : NodeId) : Removal → Document
  | region closing => (Siblings.deleteBetween doc pragma closing).delete closing
  | single statement => doc.delete statement

end Removal

end LoopDirectives
