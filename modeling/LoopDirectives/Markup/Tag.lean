import LoopDirectives.Label
import LoopDirectives.Markup.Reference

/-!
# Tags

What stands between `<` and `>`: a start tag with its attributes, an empty tag, or an end tag.
Names are runs of characters other than the four blanks of markup.
-/

namespace LoopDirectives.Markup

/-- A blank of markup: space, tabulator, line feed or carriage return. -/
def isSpace (c : Char) : Bool :=
  c == ' ' || c == '\t' || c == '\n' || c == '\r'

/-! ### Attributes -/

/-- Where the reading of a list of attributes stands. Names and values are kept last character
first. -/
inductive AttributeMode where
  | between
  | name (read : List Char)
  | named (name : String)
  | equals (name : String)
  | value (name : String) (quote : Char) (read : List Char)

/-- The attributes read so far, last first, and where the reading stands. -/
structure AttributeReading where
  done : List (String × String) := []
  mode : AttributeMode := .between

namespace AttributeReading

/-- The reading after the `=` of the named attribute. -/
def expectValue (reading : AttributeReading) (name : String) : Except Error AttributeReading :=
  if reading.done.any fun entry => entry.1 == name then .error (.repeatedAttribute name)
  else .ok { reading with mode := .equals name }

def step (reading : AttributeReading) (c : Char) : Except Error AttributeReading :=
  match reading.mode with
  | .between =>
    if isSpace c then .ok reading else .ok { reading with mode := .name [c] }
  | .name read =>
    if c = '=' then reading.expectValue (String.ofList read.reverse)
    else if isSpace c then .ok { reading with mode := .named (String.ofList read.reverse) }
    else .ok { reading with mode := .name (c :: read) }
  | .named name =>
    if isSpace c then .ok reading
    else if c = '=' then reading.expectValue name
    else .error (.missingEquals name)
  | .equals name =>
    if isSpace c then .ok reading
    else if c = '"' || c = '\'' then .ok { reading with mode := .value name c [] }
    else .error (.unquotedValue name)
  | .value name quote read =>
    if c = quote then do
      let value ← unescape read.reverse
      return { done := (name, String.ofList value) :: reading.done }
    else .ok { reading with mode := .value name quote (c :: read) }

def finish (reading : AttributeReading) : Except Error (List (String × String)) :=
  match reading.mode with
  | .between => .ok reading.done.reverse
  | .name read => .error (.missingEquals (String.ofList read.reverse))
  | .named name => .error (.missingEquals name)
  | .equals name => .error (.missingValue name)
  | .value name _ _ => .error (.unclosedValue name)

end AttributeReading

def attributes (text : List Char) : Except Error (List (String × String)) := do
  let reading ← text.foldlM AttributeReading.step {}
  reading.finish

/-! ### The three tags -/

inductive Tag where
  /-- A start tag, with the label of the element that it opens. -/
  | start (label : Label)
  /-- An empty tag, which is an element by itself. -/
  | empty (label : Label)
  | finish (name : String)

def labelOf (content : List Char) : Except Error Label := do
  let attributes ← attributes (content.dropWhile fun c => !isSpace c)
  return { tag := String.ofList (content.takeWhile fun c => !isSpace c), attributes }

/-- The name of an end tag: what stands in it without trailing blanks, unless it is all blanks. -/
def endName (content : List Char) : List Char :=
  match (content.reverse.dropWhile isSpace).reverse with
  | [] => content
  | name => name

def Tag.ofContent (content : List Char) : Except Error Tag :=
  match content with
  | '/' :: name => .ok (.finish (String.ofList (endName name)))
  | _ =>
    if content.getLast? = some '/' then do return .empty (← labelOf content.dropLast)
    else do return .start (← labelOf content)

end LoopDirectives.Markup
