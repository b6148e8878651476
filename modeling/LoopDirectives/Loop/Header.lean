import LoopDirectives.Loop.Basic

/-!
# Exchanging loop headers

The header of a loop is its variable, its bounds and its step. Two loops exchange their headers
while the loops themselves and their bodies stay where they are.
-/

namespace LoopDirectives.Loop

structure Header where
  varNode : NodeId
  range : NodeId
  lower : NodeId
  upper : NodeId
  step? : Option NodeId

def boundContent (doc : Document) (range : NodeId) (kind : Kind) :
    Except TransformError NodeId :=
  match (doc.childOf? range kind).bind doc.firstChild? with
  | none => .error .missingIterationRange
  | some content => .ok content

/-- The header of a loop, which must be complete but for its step. -/
def header (doc : Document) (loop : NodeId) : Except TransformError Header :=
  if doc.isKind loop .doLoop then
    match varNode? doc loop, doc.childOf? loop .indexRange with
    | some varNode, some range => do
      let lower ← boundContent doc range .lowerBound
      let upper ← boundContent doc range .upperBound
      return { varNode, range, lower, upper, step? := doc.childOf? range .step }
    | _, _ => .error .missingIterationRange
  else .error (.notALoop (doc.tag loop))

/-- A copy of a node if it is alive, with the document that holds the copy. -/
def copyOf (doc : Document) (node : NodeId) : Document × Option NodeId :=
  match doc.copy? node with
  | none => (doc, none)
  | some (copied, copy) => (copied, some copy)

/-- Puts a copy of each of two nodes in the place of the other. -/
def exchange (doc : Document) (left right : NodeId) : Document :=
  let (withLeft, leftCopy?) := copyOf doc left
  let (withBoth, rightCopy?) := copyOf withLeft right
  match leftCopy?, rightCopy? with
  | some leftCopy, some rightCopy =>
    let placed := (withBoth.insertAfter right leftCopy).insertAfter left rightCopy
    (placed.delete left).delete right
  | _, _ => withBoth

/-- Exchanges the steps of two headers; a step without a counterpart moves over. -/
def exchangeSteps (doc : Document) (left right : Header) : Document :=
  match left.step?, right.step? with
  | some leftStep, some rightStep => exchange doc leftStep rightStep
  | some step, none => doc.append right.range step
  | none, some step => doc.append left.range step
  | none, none => doc

/-- Exchanges the headers of two loops. Both are checked before anything changes. -/
def exchangeHeaders (doc : Document) (left right : NodeId) :
    Except TransformError Document := do
  let first ← header doc left
  let second ← header doc right
  let withVariables := exchange doc first.varNode second.varNode
  let withLower := exchange withVariables first.lower second.lower
  let withUpper := exchange withLower first.upper second.upper
  return exchangeSteps withUpper first second

end LoopDirectives.Loop
