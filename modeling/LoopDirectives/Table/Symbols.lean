import LoopDirectives.Document.Edit

/-!
# Symbol tables

The symbols that a unit declares, in the order of its table. Names are compared without regard to
case; the first symbol of a name is the one that counts.
-/

namespace LoopDirectives

/-- A declared symbol, with the element it was read from. -/
structure Symbol where
  name : String
  type? : Option String
  storage? : Option String
  node : NodeId
  deriving DecidableEq

def Symbol.read? (doc : Document) (node : NodeId) : Option Symbol :=
  if doc.isKind node .identifier then
    (doc.childOf? node .name).map fun name =>
      { name := doc.text name
        type? := doc.typeId? node
        storage? := doc.attribute? node "sclass"
        node }
  else none

/-- The symbol table of a unit, with its element if it has one. -/
structure SymbolTable where
  element? : Option NodeId := none
  entries : List Symbol := []
  deriving DecidableEq

namespace SymbolTable

def read (doc : Document) (element : NodeId) : SymbolTable :=
  { element? := some element
    entries := (doc.children element).filterMap (Symbol.read? doc) }

def get? (table : SymbolTable) (name : String) : Option Symbol :=
  table.entries.find? fun symbol => Text.sameLetters symbol.name name

def contains (table : SymbolTable) (name : String) : Bool :=
  (table.get? name).isSome

/-- Moves an identifier element to the end of the table's element and records its symbol, whose
name is returned. Nothing is done for an unnamed element, a taken name or a table without an
element. -/
def insert? (table : SymbolTable) (doc : Document) (node : NodeId) :
    Option (SymbolTable × Document × String) := do
  let element ← table.element?
  let symbol ← Symbol.read? doc node
  if table.contains symbol.name then none
  else
    return ({ table with entries := table.entries ++ [symbol] }, doc.append element node,
      symbol.name)

end SymbolTable

end LoopDirectives
