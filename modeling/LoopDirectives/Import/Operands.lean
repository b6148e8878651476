import LoopDirectives.Import.Types

/-!
# Importing constants and variables

A constant or variable of one unit is copied into another, and with it what it needs there: its
type, and for a variable that the other unit does not know also its symbol and its declaration.
-/

namespace LoopDirectives.Import

def isOperand (kind : Kind) : Bool :=
  kind == .var || kind.isConstant

def symbolOf? (unit : SourceUnit) (node : NodeId) : Option Symbol :=
  if unit.document.isKind node .var then unit.symbols.get? (unit.document.text node) else none

def checkOperand (unit : SourceUnit) (node : NodeId) : Except TransformError Unit :=
  if isOperand (unit.document.kind node) then do
    checkType unit (unit.document.typeId? node)
    checkType unit ((symbolOf? unit node).bind Symbol.type?)
  else .error (.unsupportedBound (unit.document.tag node))

def setType (doc : Document) (node : NodeId) : Option String → Document
  | none => doc
  | some id => doc.setAttribute node "type" id

def declareSymbol (source target : SourceUnit) (symbol : Symbol) (type? : Option String) :
    SourceUnit :=
  match target.document.copyFrom? source.document symbol.node with
  | none => target
  | some (copied, copy) =>
    let typed := setType copied copy type?
    match target.symbols.insert? typed copy with
    | none => { target with document := typed }
    | some (symbols, doc, _) => { target with document := doc, symbols }

/-- Adds a copy of the declaration of a symbol to `target`, unless the name is declared there. -/
def declareVariable (source target : SourceUnit) (symbol : Symbol) (type? : Option String) :
    SourceUnit :=
  match (source.declarations.get? symbol.name).bind
      (target.document.copyFrom? source.document) with
  | none => target
  | some (copied, copy) =>
    let typed :=
      match copied.childOf? copy .name with
      | none => copied
      | some name => setType copied name type?
    match target.declarations.insert? typed copy with
    | none => { target with document := typed.delete copy }
    | some (declarations, doc) => { target with document := doc, declarations }

def importType?InPlace (source : SourceUnit) : Option String → InPlace (Option String)
  | none => return none
  | some id => return some (← importTypeInPlace source id)

/-- Declares a symbol in the target, after its type. -/
def importSymbolInPlace (source : SourceUnit) (symbol : Symbol) : InPlace Unit := do
  let type? ← importType?InPlace source symbol.type?
  InPlace.demand (source.document.contains symbol.node) (.deletedSymbol symbol.name)
  modify fun target => declareSymbol source target symbol type?
  modify fun target => declareVariable source target symbol type?

def importSymbolOfInPlace (source : SourceUnit) (node : NodeId) : InPlace Unit :=
  match symbolOf? source node with
  | none => return ()
  | some symbol => do
    if (← get).symbols.contains symbol.name then return ()
    else importSymbolInPlace source symbol

def copyInPlace (source : SourceUnit) (node : NodeId) (type? : Option String) : InPlace NodeId :=
  fun target =>
    match target.document.copyFrom? source.document node with
    | none => .error .deletedNode target
    | some (copied, copy) => .ok copy { target with document := setType copied copy type? }

def importOperandInPlace (source : SourceUnit) (node : NodeId) : InPlace NodeId := do
  InPlace.check (checkOperand source node)
  let type? ← importType?InPlace source (source.document.typeId? node)
  importSymbolOfInPlace source node
  copyInPlace source node type?

/-- A copy of a constant or variable of `source` in `target`, hanging nowhere, with what it needs
there. -/
def importOperand (source : SourceUnit) (node : NodeId) (target : SourceUnit) :
    Except TransformError (SourceUnit × NodeId) :=
  InPlace.commit (importOperandInPlace source node target)

end LoopDirectives.Import
