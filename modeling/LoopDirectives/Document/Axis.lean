import LoopDirectives.Document.Basic

/-!
# Walking a document

The nodes above, below and after a node. A walk upwards or downwards visits no more nodes than the
document has slots, which bounds both walks also where a document is not a forest; in a forest the
bound is never reached.
-/

namespace LoopDirectives

namespace Document

variable (doc : Document)

/-- The nodes above the node, nearest first, at most `bound` of them. -/
def ancestorsWithin : (bound : Nat) → NodeId → List NodeId
  | 0, _ => []
  | bound + 1, id =>
    match doc.parent? id with
    | none => []
    | some parent => parent :: ancestorsWithin bound parent

def ancestors (id : NodeId) : List NodeId :=
  doc.ancestorsWithin doc.slots.size id

def isAncestor (ancestor id : NodeId) : Bool :=
  (doc.ancestors id).contains ancestor

/-- The tree of identities below the node, cut off `bound` levels down. -/
def shapeWithin : (bound : Nat) → NodeId → Tree NodeId
  | 0, id => .node id []
  | bound + 1, id => .node id ((doc.children id).map (shapeWithin bound))

/-- The tree of identities whose root is the node. -/
def shape (id : NodeId) : Tree NodeId :=
  doc.shapeWithin doc.slots.size id

def element (id : NodeId) : Element :=
  (doc.shape id).map doc.label

/-- The node and all nodes below it, in document order. -/
def subtree (id : NodeId) : List NodeId :=
  (doc.shape id).preorder

/-- The nodes of the stack, each with the nodes below it, at most `bound` of them. The children of a
node take its place on the stack. -/
def walk : (bound : Nat) → (stack : List NodeId) → List NodeId
  | bound + 1, current :: stack => current :: walk bound (doc.children current ++ stack)
  | _, _ => []

/-- The nodes below the node in document order, itself excluded. -/
def descendants (id : NodeId) : List NodeId :=
  doc.walk doc.slots.size (doc.children id)

/-- The nodes after the node in document order, those below it excluded. -/
def following (id : NodeId) : List NodeId :=
  (id :: doc.ancestors id).flatMap fun ancestor =>
    (doc.followingSiblings ancestor).flatMap doc.subtree

def descendantsOf (id : NodeId) (kind : Kind) : List NodeId :=
  (doc.descendants id).filter (doc.isKind · kind)

/-- The first node of the kind that a walk meets. -/
def search (kind : Kind) : (bound : Nat) → (stack : List NodeId) → Option NodeId
  | bound + 1, current :: stack =>
    if doc.isKind current kind then some current
    else search kind bound (doc.children current ++ stack)
  | _, _ => none

def descendantOf? (id : NodeId) (kind : Kind) : Option NodeId :=
  doc.search kind doc.slots.size (doc.children id)

/-- Whether two live nodes, possibly of different documents, have the same structure below them. -/
def sameStructure (id : NodeId) (other : Document) (otherId : NodeId) : Bool :=
  doc.contains id && other.contains otherId &&
    (doc.element id).sameStructure (other.element otherId)

def sameExpression (left right : NodeId) : Bool :=
  (doc.element left).sameExpression (doc.element right)

end Document

end LoopDirectives
