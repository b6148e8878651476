import LoopDirectives.Loop.Basic

/-!
# Moving loop bodies

The statements of a body move to the end of another body, or out of their loop; a body is copied
over the body of another loop.
-/

namespace LoopDirectives.Loop

/-- Moves the statements of the second body to the end of the first. -/
def appendBody (doc : Document) (body extra : NodeId) : Except TransformError Document :=
  if doc.isKind body .body && doc.isKind extra .body then
    .ok (doc.appendAll body (doc.children extra))
  else .error .notABody

/-- Puts a copy of the body in the place of the body of the loop. -/
def copyBody (doc : Document) (body loop : NodeId) : Document :=
  match doc.copy? body with
  | none => doc
  | some (copied, copy) =>
    let cleared :=
      match body? copied loop with
      | none => copied
      | some old => copied.delete old
    cleared.append loop copy

def insertAllAfter (doc : Document) (anchor : NodeId) : List NodeId → Document
  | [] => doc
  | node :: rest => insertAllAfter (doc.insertAfter anchor node) node rest

/-- Moves the statements out of the body of the loop to behind the anchor. -/
def extractBody (doc : Document) (loop anchor : NodeId) : Document :=
  if doc.isKind loop .doLoop then
    match body? doc loop with
    | none => doc
    | some body => insertAllAfter doc anchor (doc.children body)
  else doc

end LoopDirectives.Loop
