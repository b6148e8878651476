import LoopDirectives.Document.Axis

/-!
# Editing a document

Edits create, relabel, move, copy and delete nodes. An edit that is asked through a stale identity,
or that would hang a node below itself, leaves the document as it is.
-/

namespace LoopDirectives

namespace Document

variable (doc : Document)

def modify (id : NodeId) (change : Node → Node) : Document :=
  { slots := doc.slots.modify id.index (Option.map change) }

/-- The document with the label of the node changed by `change`, if it is alive. -/
def relabel (id : NodeId) (change : Label → Label) : Document :=
  doc.modify id fun node => { node with label := change node.label }

def fresh : NodeId :=
  { index := doc.slots.size }

/-- The document with one more node, whose identity is `document.fresh`. -/
def push (node : Node) : Document :=
  { slots := doc.slots.push (some node) }

/-! ### Creating and relabelling -/

/-- A new node with the label, hanging nowhere. -/
def create (label : Label) : Document × NodeId :=
  (doc.push { label }, doc.fresh)

def createOf (kind : Kind) : Document × NodeId :=
  doc.create { tag := kind.tag }

def createLeaf (kind : Kind) (text : String) : Document × NodeId :=
  doc.create { tag := kind.tag, text? := some text }

def setText (id : NodeId) (text : String) : Document :=
  doc.relabel id (·.setText text)

def setAttribute (id : NodeId) (name value : String) : Document :=
  doc.relabel id (·.setAttribute name value)

def removeAttribute (id : NodeId) (name : String) : Document :=
  doc.relabel id (·.removeAttribute name)

/-! ### Moving -/

/-- Takes the node away from its parent; what is below it stays there. -/
def detach (id : NodeId) : Document :=
  match doc.parent? id with
  | none => doc
  | some parent =>
    (doc.modify parent fun node =>
      { node with children := node.children.filter (· ≠ id) }).modify id fun node =>
      { node with parent? := none }

/-- Whether the node can hang below `parent`: both are alive, they differ, and `parent` is not
below the node. -/
def canAttach (id parent : NodeId) : Bool :=
  doc.contains id && doc.contains parent && id != parent &&
    !doc.isAncestor id parent

/-- Puts the detached node among the children of `parent` at a position, last if there are fewer. -/
def attachAt (parent : NodeId) (position : Nat) (id : NodeId) : Document :=
  (doc.modify parent fun node =>
    { node with children := node.children.take position ++ id :: node.children.drop position
      }).modify id fun node => { node with parent? := some parent }

def append (parent id : NodeId) : Document :=
  if doc.canAttach id parent then
    let detached := doc.detach id
    detached.attachAt parent (detached.children parent).length id
  else doc

def prepend (parent id : NodeId) : Document :=
  if doc.canAttach id parent then (doc.detach id).attachAt parent 0 id else doc

/-- Moves the node to `offset` places after the anchor among the siblings of the anchor. -/
def insertBeside (anchor id : NodeId) (offset : Nat) : Document :=
  match doc.parent? anchor with
  | none => doc
  | some parent =>
    if anchor = id || !doc.canAttach id parent then doc
    else
      let detached := doc.detach id
      match detached.position? anchor with
      | none => detached
      | some position => detached.attachAt parent (position + offset) id

def insertBefore (anchor id : NodeId) : Document :=
  doc.insertBeside anchor id 0

def insertAfter (anchor id : NodeId) : Document :=
  doc.insertBeside anchor id 1

/-- Moves every node of the list, in order, to the end of the children of `parent`. -/
def appendAll (parent : NodeId) (ids : List NodeId) : Document :=
  ids.foldl (fun doc id => doc.append parent id) doc

/-! ### Deleting -/

def free (id : NodeId) : Document :=
  { slots := doc.slots.modify id.index fun _ => none }

/-- Frees the nodes of the stack and the nodes below them, at most `bound` of them. The children of
a node go onto the stack as it is freed. -/
def freeAll : (bound : Nat) → (stack : List NodeId) → Document → Document
  | bound + 1, current :: stack, doc =>
    match doc.node? current with
    | some node => freeAll bound (node.children.reverse ++ stack) (doc.free current)
    | none => freeAll bound stack doc
  | _, _, doc => doc

/-- Deletes the node and everything below it. -/
def delete (id : NodeId) : Document :=
  freeAll doc.slots.size [id] (doc.detach id)

def deleteAll (ids : List NodeId) : Document :=
  ids.foldl delete doc

/-- Puts the second node in the place of the first and deletes the first. The first is deleted
whenever the second hangs somewhere once the move has been tried. -/
def replace (old new : NodeId) : Document :=
  let moved := doc.insertBefore old new
  if (moved.parent? new).isSome then moved.delete old else moved

/-! ### Copying -/

mutual

/-- Adds the nodes of an element below `parent?` and returns the identity of its root. The list of
children of the parent is not changed. -/
def plant (doc : Document) (parent? : Option NodeId) : Element → Document × NodeId
  | .node label branches =>
    let id := doc.fresh
    let (planted, children) := plantAll (doc.push { label, parent? }) id branches
    (planted.modify id fun node => { node with children }, id)

def plantAll (doc : Document) (parent : NodeId) : List Element → Document × List NodeId
  | [] => (doc, [])
  | element :: rest =>
    let (planted, id) := plant doc (some parent) element
    let (all, ids) := plantAll planted parent rest
    (all, id :: ids)

end

/-- Copies a node and everything below it, down to `bound` levels. The copy hangs nowhere; the
copies of the children are put below it one after the other. What is copied is looked up each time
in the document that `read` makes of the one that grows. -/
def copyWithin (read : Document → Document) : (bound : Nat) → NodeId → Document → Document × NodeId
  | 0, id, doc => doc.create ((read doc).label id)
  | bound + 1, id, doc =>
    let (created, copy) := doc.create ((read doc).label id)
    let put (current : Document) (child : NodeId) : Document :=
      let (copied, below) := copyWithin read bound child current
      copied.attachAt copy (copied.children copy).length below
    (((read doc).children id).foldl put created, copy)

/-- A copy, hanging nowhere, of a live node of `source` and of everything below it. -/
def copyFrom? (source : Document) (id : NodeId) : Option (Document × NodeId) :=
  if source.contains id then some (copyWithin (fun _ => source) source.slots.size id doc)
  else none

/-- A copy, hanging nowhere, of a live node and of everything below it. -/
def copy? (id : NodeId) : Option (Document × NodeId) :=
  if doc.contains id then some (copyWithin (fun current => current) doc.slots.size id
    doc)
  else none

/-- The document whose only nodes are those of the element, with the identity of its root. -/
def ofElement (element : Element) : Document × NodeId :=
  empty.plant none element

end Document

end LoopDirectives
