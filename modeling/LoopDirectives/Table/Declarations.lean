import LoopDirectives.Document.Edit
import LoopDirectives.Keyed

/-!
# Declaration tables

The declarations of a unit under the names that they declare, in lower case. Of several
declarations of one name that a document holds, the last counts, in the place of the first.
-/

namespace LoopDirectives

structure Declaration where
  name : String
  node : NodeId
  deriving DecidableEq

namespace Declaration

/-- The name that an element declares: the text of its name child, or else its name attribute. -/
def nameOf? (doc : Document) (node : NodeId) : Option String :=
  let name? := (doc.childOf? node .name).map doc.text <|> doc.attribute? node "name"
  (name?.filter fun name => !name.isEmpty).map Text.lower

def read? (doc : Document) (node : NodeId) : Option Declaration :=
  (nameOf? doc node).map fun name => { name, node }

end Declaration

/-- The declaration table of a unit, with its element if it has one. -/
structure DeclarationTable where
  element? : Option NodeId := none
  entries : List Declaration := []
  deriving DecidableEq

namespace DeclarationTable

/-- The table with the declaration in the place of the one of the same name, or else last. -/
def push (table : DeclarationTable) (declaration : Declaration) : DeclarationTable :=
  { table with entries := Keyed.place Declaration.name declaration table.entries }

def read (doc : Document) (element : NodeId) : DeclarationTable :=
  ((doc.children element).filterMap (Declaration.read? doc)).foldl push
    { element? := some element }

/-- The declaration of the name, in whatever case it is given. -/
def get? (table : DeclarationTable) (name : String) : Option NodeId :=
  (table.entries.find? fun declaration => declaration.name == Text.lower name).map Declaration.node

def contains (table : DeclarationTable) (name : String) : Bool :=
  (table.get? name).isSome

/-- Moves a declaration to the end of the table's element and records it. Nothing is done for a
declaration without a name, a declared name or a table without an element. -/
def insert? (table : DeclarationTable) (doc : Document) (node : NodeId) :
    Option (DeclarationTable × Document) := do
  let element ← table.element?
  let declaration ← Declaration.read? doc node
  if table.contains declaration.name then none
  else return (table.push declaration, doc.append element node)

end DeclarationTable

end LoopDirectives
