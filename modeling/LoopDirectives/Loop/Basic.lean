import LoopDirectives.TransformError

/-!
# Loops

A loop has a variable, a range and a body. Here are its parts, nests of loops, and the search for
nests that bind given variables.
-/

namespace LoopDirectives.Loop

variable (doc : Document)

def varNode? (loop : NodeId) : Option NodeId :=
  doc.childOf? loop .var

def varName? (loop : NodeId) : Option String :=
  if doc.isKind loop .doLoop then (varNode? doc loop).map doc.text else none

def body? (loop : NodeId) : Option NodeId :=
  doc.childOf? loop .body

/-! ### Nests -/

/-- The loop and the loops nested in it, each the first loop in the body of the one before, down to
the given number of levels. -/
def levels : (depth : Nat) → NodeId → List NodeId
  | 0, _ => []
  | depth + 1, loop =>
    loop ::
      match doc.path? loop [.body, .doLoop] with
      | none => []
      | some inner => levels depth inner

/-- The nest of at most the given depth whose outermost loop is the node. -/
def nest? (depth : Nat) (outer : NodeId) : Option (List NodeId) :=
  if doc.isKind outer .doLoop && 0 < depth then some (levels doc depth outer) else none

def varNames (loops : List NodeId) : List String :=
  loops.filterMap (varName? doc)

/-! ### Searching for nests -/

def binds (name : String) (loop : NodeId) : Bool :=
  (doc.children loop).any fun child =>
    doc.isKind child .var && Text.sameLetters (doc.text child) name

/-- Whether the node is a loop over the first name that holds, directly in its body, a loop over the
second name, and so on. -/
def bindsAll : List String → NodeId → Bool
  | [], _ => false
  | [name], node => doc.isKind node .doLoop && binds doc name node
  | name :: inner, node =>
    doc.isKind node .doLoop && binds doc name node &&
      (body? doc node).any fun body => (doc.children body).any (bindsAll inner)

/-- The outermost nests after `start` that bind the names, outermost first, and stand before the
line of `finish`. -/
def nestsBefore (start finish : NodeId) (names : List String) : List NodeId :=
  let found := (doc.following start).filter (bindsAll doc names)
  let outermost := found.filter fun node => !(doc.ancestors node).any found.contains
  outermost.filter fun node =>
    doc.line node ≠ 0 && doc.line node < doc.line finish

end LoopDirectives.Loop
