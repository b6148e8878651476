import LoopDirectives.Document.Edit

/-!
# Statements side by side

The statements of a body are siblings. Here are the ways to take some of them: up to an end, between
two of them, of given kinds; and to delete or move what was taken.
-/

namespace LoopDirectives.Siblings

variable (doc : Document)

/-- The nodes of the first list that are in the second, in the order of the first. -/
def common (left right : List NodeId) : List NodeId :=
  left.filter right.contains

/-- The siblings after `start` up to `finish`, which is left out; all of them if `finish` is not
among them. -/
def between (start finish : NodeId) : List NodeId :=
  (doc.followingSiblings start).takeWhile (· ≠ finish)

def isArrayAssignment (node : NodeId) : Bool :=
  doc.isKind node .assignment && (doc.childOf? node .arrayReference).isSome

/-- The array assignments after `start` that stand before a following pragma with the text. -/
def arrayAssignmentsUntil (start : NodeId) (finish : String) : List NodeId :=
  let after := doc.followingSiblings start
  let ends := after.filter fun node => doc.isKind node .pragma && doc.text node == finish
  common (after.filter (isArrayAssignment doc))
    ((ends.flatMap doc.precedingSiblings).filter (isArrayAssignment doc))

/-- Deletes the siblings after `start` up to `finish`, which stays. -/
def deleteBetween (start finish : NodeId) : Document :=
  doc.deleteAll (between doc start finish)

def deleteFrom (start : NodeId) : Document :=
  doc.deleteAll (start :: doc.followingSiblings start)

/-- The statements that a move from `start` to `finish` takes; the two themselves only if they are
included, and `finish` only if it is reached. -/
def moved (start finish : NodeId) (included : Bool) : List NodeId :=
  let reached := (doc.followingSiblings start).contains finish
  (if included then [start] else []) ++ between doc start finish ++
    if included && reached then [finish] else []

/-- Moves the statements from `start` to `finish` to the front of the body. -/
def shift (start finish body : NodeId) (included : Bool) : Document :=
  let statements := moved doc start finish included
  match doc.firstChild? body with
  | some first =>
    statements.foldl (fun doc statement => doc.insertBefore first statement) doc
  | none => doc.appendAll body statements

/-- Whether `finish` follows `start` with only nodes of the given kinds in between. -/
def follows (start finish : NodeId) (skipped : List Kind) : Bool :=
  let after := doc.followingSiblings start
  after.contains finish &&
    (between doc start finish).all fun node => skipped.contains (doc.kind node)

/-- The nodes below the node of each of the kinds, one kind after the other. -/
def ofKinds (kinds : List Kind) (node : NodeId) : List NodeId :=
  kinds.flatMap (doc.descendantsOf node)

/-- The nodes of the kinds from `start` up to `finish`, which is left out, nested ones included. -/
def ofKindsBetween (start finish : NodeId) (kinds : List Kind) : List NodeId :=
  ((start :: doc.followingSiblings start).takeWhile (· ≠ finish)).flatMap fun node =>
    (if kinds.contains (doc.kind node) then [node] else []) ++ ofKinds doc kinds node

end LoopDirectives.Siblings
