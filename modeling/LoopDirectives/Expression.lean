import LoopDirectives.Element

/-!
# Expressions as source text

The text of an expression element in the source language. An operand that binds looser than its
operator stands in parentheses; so does one that binds equally on the side on which the operator
does not group: the right side, and for `**` the left.
-/

namespace LoopDirectives.Expression

/-- An element that is already written: its kind, its text, and the texts of the elements directly
below it. -/
structure Written where
  kind : Kind
  text : List Char
  below : List (List Char)

/-- Whether an operand needs parentheses under an operator, on its left or on its right. -/
def needsParentheses (operand : Kind) (operator : Kind) (right : Bool) : Bool :=
  match operand.precedence?, operator.precedence? with
  | some inner, some outer =>
    if right != (operator == .binary .power) then inner ≤ outer else inner < outer
  | _, _ => false

def operandText (operand? : Option Written) (operator : Kind) (right : Bool) : List Char :=
  match operand? with
  | none => []
  | some operand =>
    if needsParentheses operand.kind operator right then '(' :: operand.text ++ [')']
    else operand.text

def commaList (texts : List (List Char)) : List Char :=
  (texts.intersperse [',']).flatten

def applied (name : List Char) (texts : List (List Char)) : List Char :=
  name ++ '(' :: commaList texts ++ [')']

/-- The text of the first part of the kind, empty when there is none. -/
def partText (parts : List Written) (kind : Kind) : List Char :=
  ((parts.find? fun part => part.kind == kind).map Written.text).getD []

def rangeText (label : Label) (parts : List Written) : List Char :=
  if label.flag "is_assumed_shape" then [':']
  else
    let bounds := partText parts .lowerBound ++ ':' :: partText parts .upperBound
    if parts.any fun part => part.kind == .step then bounds ++ ':' :: partText parts .step
    else bounds

/-- The text of an element, given the elements below it as they are written. -/
def compose (element : Element) (parts : List Written) : List Char :=
  let label := element.value
  let first := (parts.head?.map Written.text).getD []
  match label.kind with
  | .arrayReference =>
    let name := ((element.path? [.variableReference, .var]).map Element.text).getD ""
    applied name.toList ((parts.drop 1).map Written.text)
  | .variableReference | .arrayIndex | .lowerBound | .upperBound | .step => first
  | .indexRange => rangeText label parts
  | .negation => '-' :: operandText parts.head? (.binary .times) false
  | .complement => ".not.".toList ++ operandText parts.head? (.binary .equal) false
  | .call =>
    let name := ((element.childOf? .name).map Element.text).getD ""
    let arguments := parts.find? fun part => part.kind == .arguments
    applied name.toList ((arguments.map Written.below).getD [])
  | .namedArgument => ((label.attribute? "name").getD "").toList ++ '=' :: first
  | .binary operator =>
    operandText parts[0]? label.kind false ++ ' ' :: operator.symbol.toList ++
      ' ' :: operandText parts[1]? label.kind true
  | _ => label.text.toList

mutual

def written : Element → Written
  | .node label branches =>
    let parts := writtenAll branches
    { kind := label.kind
      text := compose (.node label branches) parts
      below := parts.map Written.text }

def writtenAll : List Element → List Written
  | [] => []
  | element :: rest => written element :: writtenAll rest

end

def text (element : Element) : String :=
  String.ofList (written element).text

end LoopDirectives.Expression
