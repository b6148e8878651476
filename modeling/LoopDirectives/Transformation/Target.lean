import LoopDirectives.Directive

/-!
# What a directive applies to

A directive applies to the statement after it, pragmas in between being passed over, or to the
statements up to the directive that closes its region.
-/

namespace LoopDirectives.Target

variable (doc : Document)

/-- The first statement after the pragma that is not a pragma. -/
def nextStatement? (pragma : NodeId) : Option NodeId :=
  (doc.followingSiblings pragma).find? fun sibling => !doc.isKind sibling .pragma

def nextLoop? (pragma : NodeId) : Option NodeId :=
  (nextStatement? doc pragma).filter (doc.isKind · .doLoop)

def closesRegion (marker keyword : String) (node : NodeId) : Bool :=
  match Directive.find? marker doc node with
  | .ok (some directive) => directive.closes? == some keyword
  | _ => false

/-- The first directive after the pragma that closes a region of the keyword. -/
def closing? (marker keyword : String) (pragma : NodeId) : Option NodeId :=
  (doc.followingSiblings pragma).find? (closesRegion doc marker keyword)

end LoopDirectives.Target
