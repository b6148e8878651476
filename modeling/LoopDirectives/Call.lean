import LoopDirectives.Expression
import LoopDirectives.SourceUnit

/-!
# Calls

The arguments of a call against the parameters of the function type that the unit declares for it,
and the purity of function types.
-/

namespace LoopDirectives.Call

/-- The argument of the call whose text is the value, in any case. -/
def argument? (doc : Document) (value : String) (call : NodeId) : Option NodeId :=
  if doc.isKind call .call then do
    let arguments ← doc.childOf? call .arguments
    (doc.children arguments).find? fun argument =>
      Text.sameLetters (doc.text argument) value
  else none

/-- Whether an argument has a declared or built-in type, which is an array if one is asked for. -/
def hasUsableType (unit : SourceUnit) (arraysOnly : Bool) (argument : NodeId) : Bool :=
  match unit.document.typeId? argument with
  | none => false
  | some type =>
    if isBuiltinType type then !arraysOnly
    else (unit.types.basic? type).any fun form => !arraysOnly || form.isArray

/-- Whether the parameter is declared with an intent that answers the requested one. -/
def isRequested (unit : SourceUnit) (intent : Intent) (parameter : Parameter) : Bool :=
  (unit.types.basic? parameter.type).any fun form => intent.accepts form.intent

/-- The source texts of the arguments of a call whose parameters answer the requested intent, only
the arrays among them if asked for. Arguments belong to parameters by position. -/
def argumentTexts (unit : SourceUnit) (call : NodeId) (intent : Intent) (arraysOnly : Bool) :
    List String :=
  let doc := unit.document
  if doc.isKind call .call then
    match doc.descendantOf? call .arguments, unit.types.functionOfCall? doc call with
    | some arguments, some function =>
      let pairs := (function.parameters.zip (doc.children arguments)).filter fun pair =>
        isRequested unit intent pair.1 && hasUsableType unit arraysOnly pair.2
      (pairs.map fun pair => Expression.text (doc.element pair.2)).filter (· ≠ "")
    | _, _ => []
  else []

/-- Takes the mark of purity off the type of a function; nothing if there is no such mark. -/
def clearPurity? (unit : SourceUnit) (definition type : NodeId) : Option SourceUnit :=
  let doc := unit.document
  if doc.isKind type .functionType && doc.isKind definition .functionDefinition &&
      doc.flag type "is_pure" then
    let cleared := doc.removeAttribute type "is_pure"
    let types :=
      match cleared.typeId? type with
      | none => unit.types
      | some id => unit.types.refresh cleared id
    some { unit with document := cleared, types }
  else none

end LoopDirectives.Call
