import LoopDirectives.Document.Edit
import LoopDirectives.Intent
import LoopDirectives.Keyed

/-!
# Type tables

The types that a unit declares, in the order of its type table. An entry is a reading of an element
taken when the element was put into the table; `refresh` takes it again.
-/

namespace LoopDirectives

/-- The types that need no entry in a table. -/
def builtinTypes : List String :=
  ["Fint", "Freal", "Fcomplex", "Flogical", "Fcharacter", "Fvoid", "Fnumeric", "FnumericAll"]

def isBuiltinType (type : String) : Bool :=
  builtinTypes.contains type

/-- A type made from another one, possibly an array of it. -/
structure BasicForm where
  reference? : Option String
  intent : Intent
  /-- The elements that describe the dimensions; none for a scalar. -/
  dimensions : List NodeId
  deriving DecidableEq

def BasicForm.isArray (form : BasicForm) : Bool :=
  !form.dimensions.isEmpty

structure Parameter where
  name : String
  type : String
  deriving DecidableEq

structure FunctionForm where
  result? : Option String
  parameters : List Parameter
  isPure : Bool
  deriving DecidableEq

inductive TypeForm where
  | basic (form : BasicForm)
  | function (form : FunctionForm)
  | other
  deriving DecidableEq

/-- An entry of a type table, with the element it was read from. -/
structure TypeEntry where
  id : String
  node : NodeId
  form : TypeForm
  deriving DecidableEq

namespace TypeEntry

def dimensionsOf (doc : Document) (node : NodeId) : List NodeId :=
  doc.childrenOf node [.indexRange, .arrayIndex]

def parametersOf (doc : Document) (node : NodeId) : List Parameter :=
  match doc.childOf? node .parameters with
  | none => []
  | some parameters =>
    (doc.childrenOf parameters [.name]).map fun name =>
      { name := doc.text name, type := (doc.typeId? name).getD "" }

def formOf (doc : Document) (node : NodeId) : TypeForm :=
  match doc.kind node with
  | .basicType =>
    .basic
      { reference? := doc.attribute? node "ref"
        intent := Intent.ofAttribute (doc.attribute? node "intent")
        dimensions := dimensionsOf doc node }
  | .functionType =>
    .function
      { result? := doc.attribute? node "return_type"
        parameters := parametersOf doc node
        isPure := doc.flag node "is_pure" }
  | _ => .other

def read? (doc : Document) (node : NodeId) : Option TypeEntry :=
  (doc.typeId? node).map fun id => { id, node, form := formOf doc node }

end TypeEntry

/-- The type table of a unit, with its element if it has one. -/
structure TypeTable where
  element? : Option NodeId := none
  entries : List TypeEntry := []
  deriving DecidableEq

namespace TypeTable

/-- The table with the entry in the place of the one with the same identifier, or else last. -/
def push (table : TypeTable) (entry : TypeEntry) : TypeTable :=
  { table with entries := Keyed.place TypeEntry.id entry table.entries }

def read (doc : Document) (element : NodeId) : TypeTable :=
  ((doc.children element).filterMap (TypeEntry.read? doc)).foldl push
    { element? := some element }

def get? (table : TypeTable) (id : String) : Option TypeEntry :=
  table.entries.find? fun entry => entry.id == id

def contains (table : TypeTable) (id : String) : Bool :=
  (table.get? id).isSome

def basic? (table : TypeTable) (id : String) : Option BasicForm :=
  match (table.get? id).map TypeEntry.form with
  | some (.basic form) => some form
  | _ => none

def function? (table : TypeTable) (id : String) : Option FunctionForm :=
  match (table.get? id).map TypeEntry.form with
  | some (.function form) => some form
  | _ => none

def basicIdOf? (table : TypeTable) (doc : Document) (node : NodeId) : Option String :=
  (doc.typeId? node).filter fun id => (table.basic? id).isSome

def basicOf? (table : TypeTable) (doc : Document) (node : NodeId) : Option BasicForm :=
  (doc.typeId? node).bind table.basic?

/-- The identifier of the function type of a call: the type of the called name, or else of the
call itself. -/
def functionIdOfCall? (table : TypeTable) (doc : Document) (call : NodeId) : Option String :=
  if doc.isKind call .call then
    let id? := (doc.childOf? call .name).bind doc.typeId? <|> doc.typeId? call
    id?.filter fun id => (table.function? id).isSome
  else none

def functionOfCall? (table : TypeTable) (doc : Document) (call : NodeId) :
    Option FunctionForm :=
  (table.functionIdOfCall? doc call).bind table.function?

/-- Moves a type element to the end of the table's element and records its entry, whose identifier
is returned. Nothing is done for an element that names no type or a table without an element. -/
def insert? (table : TypeTable) (doc : Document) (node : NodeId) :
    Option (TypeTable × Document × String) := do
  let element ← table.element?
  let entry ← TypeEntry.read? doc node
  return (table.push entry, doc.append element node, entry.id)

/-- The table after the element of one entry is read again; an entry whose element names no type
any more stays as it is. -/
def refresh (table : TypeTable) (doc : Document) (id : String) : TypeTable :=
  match (table.get? id).bind fun entry => TypeEntry.read? doc entry.node with
  | none => table
  | some entry => table.push entry

/-- The identifiers made from a base by appending a number, counted from `1`. -/
def candidateId (base : String) (number : Nat) : String :=
  base ++ "_" ++ toString number

/-- The first identifier made from the base that the table does not have. Among one more candidate
than there are entries there is always one. -/
def freshId (table : TypeTable) (base : String) : String :=
  let candidates := (List.range (table.entries.length + 1)).map fun n => candidateId base (n + 1)
  (candidates.find? fun id => !table.contains id).getD base

end TypeTable

end LoopDirectives
