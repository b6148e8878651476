import LoopDirectives.TransformError

/-!
# References to variables and arrays

An array reference names its array in its first part and has one index or range per dimension.
Names are compared without regard to case. Dropping dimensions of a reference is here too: down to
the bare variable, or down to the dimensions at given positions, which are counted from `1`.
-/

namespace LoopDirectives.Reference

variable (doc : Document)

/-! ### Finding references -/

def varOf? (reference : NodeId) : Option NodeId :=
  doc.path? reference [.variableReference, .var]

def arrayName? (node : NodeId) : Option String :=
  if doc.isKind node .arrayReference then (varOf? doc node).map doc.text else none

def isTo (array : String) (node : NodeId) : Bool :=
  (arrayName? doc node).any (Text.sameLetters · array)

/-- The references to the array below a node, in document order. -/
def arraysBelow (array : String) (node : NodeId) : List NodeId :=
  (doc.descendantsOf node .arrayReference).filter (isTo doc array)

def arraysBelowAll (array : String) (nodes : List NodeId) : List NodeId :=
  nodes.flatMap (arraysBelow doc array)

def arraysAfter (array : String) (node : NodeId) : List NodeId :=
  arraysBelowAll doc array (doc.followingSiblings node)

def variablesBelow (name : String) (node : NodeId) : List NodeId :=
  (doc.descendantsOf node .var).filter fun var => Text.sameLetters (doc.text var) name

/-- Whether the variable is anything but the bare index of an array. -/
def isPlain (var : NodeId) : Bool :=
  !(doc.parent? var).any (doc.isKind · .arrayIndex)

def plainBelow (node : NodeId) : List NodeId :=
  (doc.descendantsOf node .var).filter (isPlain doc)

def plainNamedBelow (name : String) (node : NodeId) : List NodeId :=
  (plainBelow doc node).filter fun var => Text.sameLetters (doc.text var) name

/-- The names of the variables among the nodes, each once, in the order of their characters. -/
def names (nodes : List NodeId) : List String :=
  (((nodes.filter (doc.isKind · .var)).map doc.text).eraseDups).mergeSort
    fun left right => !(right < left)

/-- The first assignment to an element of the array after a node in document order. -/
def firstAssignment? (array : String) (node : NodeId) : Option NodeId :=
  (doc.following node).find? fun statement =>
    doc.isKind statement .assignment &&
      (doc.firstChild? statement).any (isTo doc array)

/-! ### Indices -/

/-- The indices and ranges directly below a node, one per dimension of a reference. -/
def indices (node : NodeId) : List NodeId :=
  doc.childrenOf node [.arrayIndex, .indexRange]

def ranges (reference : NodeId) : List NodeId :=
  if doc.isKind reference .arrayReference then doc.childrenOf reference [.indexRange]
  else []

/-- Whether the index is a variable moved by the offset: the variable itself for `0`, the variable
minus a constant for a positive offset and plus a constant for a negative one. -/
def hasOffset (index : NodeId) (offset : Int) : Bool :=
  if offset = 0 then (doc.childOf? index .var).isSome
  else
    let operator := if 0 < offset then BinaryOperator.minus else BinaryOperator.plus
    (doc.childOf? index (.binary operator)).any fun expression =>
      (doc.childOf? expression .var).isSome &&
        (doc.childOf? expression (.constant .integer)).any fun constant =>
          doc.text constant == toString offset.natAbs

/-- The references to the array below a node whose first indices have the offsets, in order. -/
def arraysAtOffsets (array : String) (offsets : List Int) (node : NodeId) : List NodeId :=
  (arraysBelow doc array node).filter fun reference =>
    let indices := doc.childrenOf reference [.arrayIndex]
    offsets.length ≤ indices.length &&
      (indices.zip offsets).all fun pair => hasOffset doc pair.1 pair.2

/-- Whether the index begins with one of the loop variables. -/
def isLoopIndex (names : List String) (index : NodeId) : Bool :=
  doc.isKind index .arrayIndex &&
    (doc.childOf? index .var).any fun var =>
      names.any (Text.sameLetters (doc.text var))

/-! ### Dropping dimensions -/

def toScalar? (reference : NodeId) : Option (Document × NodeId) := do
  let var ← varOf? doc reference
  let (copied, scalar) ← doc.copy? var
  return ((copied.insertAfter reference scalar).delete reference, scalar)

def checkKept (kept : List Nat) (reference : NodeId) : Except TransformError Unit :=
  if doc.isKind reference .arrayReference then
    let rank := (indices doc reference).length
    match kept.find? fun position => position == 0 || rank < position with
    | none => .ok ()
    | some position =>
      .error (.dimensionOutOfRange position ((arrayName? doc reference).getD "") rank)
  else .error (.notAnArrayReference (doc.tag reference))

/-- The indices of a reference at positions that are not to be kept. -/
def dropped (kept : List Nat) (reference : NodeId) : List NodeId :=
  ((indices doc reference).zipIdx.filter fun entry => !kept.contains (entry.2 + 1)).map
    Prod.fst

def keep (kept : List Nat) (reference : NodeId) : Except TransformError Document := do
  checkKept doc kept reference
  return doc.deleteAll (dropped doc kept reference)

end LoopDirectives.Reference
