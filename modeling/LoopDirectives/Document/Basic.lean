import LoopDirectives.Element

/-!
# Documents

A document holds the nodes of one unit. A node has an identity, `NodeId`, that is never given to
another node of the document, so an identity can outlive its node: it is then stale. Reading
through a stale identity gives nothing (the blank label, no children, no parent).

A document keeps one slot per identity it has ever handed out; the slot of a deleted node is empty.
`Document.node?` is the view in which everything else is said.
-/

namespace LoopDirectives

structure NodeId where
  index : Nat
  deriving DecidableEq

/-- A node: its label, the node it hangs below, and the nodes below it in order. -/
structure Node where
  label : Label
  parent? : Option NodeId := none
  children : List NodeId := []
  deriving DecidableEq

/-- The nodes of one unit, one slot for every identity handed out so far. -/
structure Document where
  slots : Array (Option Node) := #[]
  deriving DecidableEq

namespace Document

def empty : Document := {}

variable (doc : Document)

/-- The node with the identity, if it is alive. -/
def node? (id : NodeId) : Option Node :=
  (doc.slots[id.index]?).join

def contains (id : NodeId) : Bool :=
  (doc.node? id).isSome

/-- The number of live nodes, attached or not. -/
def size : Nat :=
  doc.slots.countP Option.isSome

/-- The label of the node, blank for a stale identity. -/
def label (id : NodeId) : Label :=
  ((doc.node? id).map Node.label).getD Label.blank

def kind (id : NodeId) : Kind :=
  (doc.label id).kind

def isKind (id : NodeId) (kind : Kind) : Bool :=
  doc.kind id == kind

def tag (id : NodeId) : String :=
  (doc.label id).tag

/-- The text of the node, empty when it has none. -/
def text (id : NodeId) : String :=
  (doc.label id).text

def attribute? (id : NodeId) (name : String) : Option String :=
  (doc.label id).attribute? name

/-- Whether the node's attribute is `true` or `1`. -/
def flag (id : NodeId) (name : String) : Bool :=
  (doc.label id).flag name

/-- The source line of the node, `0` when unknown. -/
def line (id : NodeId) : Nat :=
  (doc.label id).line

def typeId? (id : NodeId) : Option String :=
  doc.attribute? id "type"

def parent? (id : NodeId) : Option NodeId :=
  (doc.node? id).bind Node.parent?

def children (id : NodeId) : List NodeId :=
  ((doc.node? id).map Node.children).getD []

/-- The child at the position, counted from `0`. -/
def child? (id : NodeId) (position : Nat) : Option NodeId :=
  (doc.children id)[position]?

def firstChild? (id : NodeId) : Option NodeId :=
  (doc.children id).head?

def lastChild? (id : NodeId) : Option NodeId :=
  (doc.children id).getLast?

def childOf? (id : NodeId) (kind : Kind) : Option NodeId :=
  (doc.children id).find? (doc.isKind · kind)

/-- The node reached by a chain of `childOf?` steps. -/
def path? (id : NodeId) (kinds : List Kind) : Option NodeId :=
  kinds.foldlM doc.childOf? id

def childrenOf (id : NodeId) (kinds : List Kind) : List NodeId :=
  (doc.children id).filter fun child => kinds.contains (doc.kind child)

def position? (id : NodeId) : Option Nat := do
  let parent ← doc.parent? id
  (doc.children parent).idxOf? id

def followingSiblings (id : NodeId) : List NodeId :=
  match doc.parent? id, doc.position? id with
  | some parent, some position => (doc.children parent).drop (position + 1)
  | _, _ => []

def precedingSiblings (id : NodeId) : List NodeId :=
  match doc.parent? id, doc.position? id with
  | some parent, some position => (doc.children parent).take position
  | _, _ => []

def nextSibling? (id : NodeId) : Option NodeId :=
  (doc.followingSiblings id).head?

def previousSibling? (id : NodeId) : Option NodeId :=
  (doc.precedingSiblings id).getLast?

end Document

end LoopDirectives
