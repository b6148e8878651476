import LoopDirectives.Files
import LoopDirectives.Markup.Reader
import LoopDirectives.Markup.Writer
import LoopDirectives.Table.Declarations
import LoopDirectives.Table.Symbols
import LoopDirectives.Table.Types

/-!
# Units

A unit is a document with the three tables that its root must hold: the program being transformed,
or a module that it takes types, symbols and declarations from. Which root and which tables are
required follows from the role of the unit.
-/

namespace LoopDirectives

inductive UnitError where
  | malformed (cause : Markup.Error)
  | noRoot
  | unexpectedRoot (expected : Kind) (found : String)
  | missingTable (table : Kind)
  | unreadable (reason : FileError)
  deriving DecidableEq

def UnitError.message : UnitError → String
  | malformed cause => "XML error: " ++ cause.message
  | noRoot => "Document has no root element"
  | unexpectedRoot expected found =>
    "Unexpected root element `" ++ found ++ "`, expected `" ++ expected.tag ++ "`"
  | missingTable table => "Missing required table `" ++ table.tag ++ "`"
  | unreadable reason => "IO error: " ++ reason.message

inductive UnitRole where
  | program
  /-- A module, under the name that it was asked for. -/
  | module (name : String)
  deriving DecidableEq

namespace UnitRole

def rootKind : UnitRole → Kind
  | program => .programRoot
  | module _ => .moduleRoot

def symbolsKind : UnitRole → Kind
  | program => .globalSymbols
  | module _ => .identifiers

def declarationsKind : UnitRole → Kind
  | program => .globalDeclarations
  | module _ => .declarations

end UnitRole

def readDocument (text : String) : Except UnitError (Document × NodeId) :=
  match Markup.read text with
  | .error cause => .error (.malformed cause)
  | .ok none => .error .noRoot
  | .ok (some element) => .ok (Document.ofElement element)

/-- The text of the document below a node; a stale identity gives the document without elements. -/
def writeDocument (doc : Document) (id : NodeId) : String :=
  if doc.contains id then Markup.write (doc.element id) else Markup.writeNothing

structure SourceUnit where
  role : UnitRole := .program
  document : Document
  root : NodeId
  types : TypeTable := {}
  symbols : SymbolTable := {}
  declarations : DeclarationTable := {}

namespace SourceUnit

structure TableElements where
  types : NodeId
  symbols : NodeId
  declarations : NodeId

def requiredTable (doc : Document) (root : NodeId) (kind : Kind) : Except UnitError NodeId :=
  match doc.childOf? root kind with
  | none => .error (.missingTable kind)
  | some element => .ok element

/-- The table elements below the root, or the first thing that is not as the role requires. -/
def tableElements (role : UnitRole) (doc : Document) (root : NodeId) :
    Except UnitError TableElements :=
  if doc.isKind root role.rootKind then do
    let types ← requiredTable doc root .typeTable
    let symbols ← requiredTable doc root role.symbolsKind
    let declarations ← requiredTable doc root role.declarationsKind
    return { types, symbols, declarations }
  else .error (.unexpectedRoot role.rootKind (doc.tag root))

def ofDocument (role : UnitRole) (doc : Document) (root : NodeId) :
    Except UnitError SourceUnit := do
  let elements ← tableElements role doc root
  return {
    role, document := doc, root
    types := TypeTable.read doc elements.types
    symbols := SymbolTable.read doc elements.symbols
    declarations := DeclarationTable.read doc elements.declarations }

def read (role : UnitRole) (text : String) : Except UnitError SourceUnit := do
  let (doc, root) ← readDocument text
  ofDocument role doc root

def readAt (files : Files) (path : String) : Except UnitError SourceUnit :=
  match files.read path with
  | .error reason => .error (.unreadable reason)
  | .ok text => read .program text

/-- Whether the root and the tables are still as the role requires. -/
def validate (unit : SourceUnit) : Except UnitError Unit :=
  (tableElements unit.role unit.document unit.root).map fun _ => ()

def attribute? (unit : SourceUnit) (name : String) : Option String :=
  unit.document.attribute? unit.root name

/-- The name of the unit: of a module its own, of a program that of its source file. -/
def name (unit : SourceUnit) : String :=
  match unit.role with
  | .program => (unit.attribute? "source").getD "<unknown>"
  | .module name => name

def write (unit : SourceUnit) : String :=
  writeDocument unit.document unit.root

end SourceUnit

end LoopDirectives
