import LoopDirectives.Markup.Assembly
import LoopDirectives.Text.Word

/-!
# Reading marked-up text

The reader takes a text one character at a time. `Mode` says what the characters read last belong
to; `Reading.step` is the move for one character and `read` the whole run, so that reading a text
in two parts is reading one part after the other. Declarations, comments, processing instructions
and document types are passed over. The first fault in the text is the one that is reported.
-/

namespace LoopDirectives.Markup

/-- Where the reading of a document type declaration stands. -/
inductive DoctypeMode where
  /-- Inside the keyword, with the letters still expected. -/
  | keyword (left : List Char)
  /-- After the keyword, with whether anything but blanks has come and the quote that is open. -/
  | heading (named : Bool) (quote? : Option Char)
  /-- Between the declarations of the internal subset. -/
  | subset
  /-- Inside the word that opens markup of the internal subset, with what is read after `<`. -/
  | opening (read : List Char)
  /-- Inside a declaration that can hold quoted text, with the quote that is open. -/
  | declaration (quote? : Option Char)
  /-- Inside markup of the internal subset where quotes do not count. -/
  | unquoted
  /-- Inside a comment of the internal subset, with the number of dashes read last. -/
  | comment (dashes : Nat)
  /-- Inside an instruction of the internal subset, with whether `?` was read last. -/
  | instruction (question : Bool)
  /-- After the internal subset. -/
  | tail

/-- What the characters read last belong to. -/
inductive Mode where
  | content
  /-- A reference, with the characters of its name last first. -/
  | reference (name : List Char)
  /-- The character after `<`. -/
  | markup
  /-- A tag, with its characters last first and the quote that is open. -/
  | tag (read : List Char) (quote? : Option Char)
  /-- A processing instruction, with its characters last first. -/
  | instruction (read : List Char)
  /-- The character after `<!`. -/
  | bang
  /-- The character after `<!-`. -/
  | dash
  /-- A comment, with the number of dashes read last. -/
  | comment (dashes : Nat)
  /-- The opening of a data section, with the characters still expected. -/
  | dataOpening (left : List Char)
  /-- A data section, with the number of closing brackets read last and not yet taken as text. -/
  | data (brackets : Nat)
  | doctype (mode : DoctypeMode)

/-- The state of a reading: where it stands and what is assembled so far. -/
structure Reading where
  mode : Mode := .content
  assembly : Assembly := {}

/-- The quote that is open after one more character inside a tag or declaration. -/
def quoteAfter (quote? : Option Char) (c : Char) : Option Char :=
  match quote? with
  | none => if c = '"' || c = '\'' then some c else none
  | some quote => if c = quote then none else some quote

namespace DoctypeMode

/-- The words that open markup of the internal subset with an ending of its own, each with what it
opens. Element declarations are missing, since they hold no quoted text. -/
def openings : List (String × DoctypeMode) :=
  [("?", .instruction false), ("!--", .comment 0), ("!ATTLIST", .declaration none),
   ("!ENTITY", .declaration none), ("!NOTATION", .declaration none)]

/-- Where the reading stands once the given characters have followed `<` in the internal subset. -/
def ofOpening (read : List Char) : DoctypeMode :=
  match openings.find? fun opening => opening.1.toList = read with
  | some (_, mode) => mode
  | none =>
    if openings.any fun opening => read.isPrefixOf opening.1.toList then .opening read
    else .unquoted

/-- One more character after the keyword and before the internal subset. -/
def headingStep (named : Bool) (quote? : Option Char) (c : Char) :
    Except Error (Option DoctypeMode) :=
  if c = '[' && quote?.isNone then .ok (some .subset)
  else if c = '>' && quote?.isNone then if named then .ok none else .error .unnamedDoctype
  else .ok (some (.heading (named || !isSpace c) (quoteAfter quote? c)))

/-- One more character of a document type declaration; nothing once it is complete. -/
def step (mode : DoctypeMode) (c : Char) : Except Error (Option DoctypeMode) :=
  match mode with
  | .keyword [] => headingStep false none c
  | .keyword (expected :: left) =>
    if c.toLower = expected then .ok (some (.keyword left)) else .error .unknownMarkup
  | .heading named quote? => headingStep named quote? c
  | .subset =>
    if c = ']' then .ok (some .tail)
    else if c = '<' then .ok (some (.opening []))
    else .ok (some .subset)
  | .opening read =>
    if c = '>' then .ok (some .subset) else .ok (some (ofOpening (read ++ [c])))
  | .declaration quote? =>
    if c = '>' && quote?.isNone then .ok (some .subset)
    else .ok (some (.declaration (quoteAfter quote? c)))
  | .unquoted =>
    if c = '>' then .ok (some .subset) else .ok (some .unquoted)
  | .comment dashes =>
    if c = '-' then .ok (some (.comment (dashes + 1)))
    else if c = '>' && 2 ≤ dashes then .ok (some .subset)
    else .ok (some (.comment 0))
  | .instruction question =>
    if c = '>' && question then .ok (some .subset)
    else .ok (some (.instruction (c == '?')))
  | .tail =>
    if c = '>' then .ok none else .ok (some .tail)

end DoctypeMode

namespace Reading

def go (reading : Reading) (mode : Mode) : Except Error Reading :=
  .ok { reading with mode }

/-- Takes closing brackets that close no data section as text. -/
def acceptBrackets (assembly : Assembly) (brackets : Nat) : Assembly :=
  (List.replicate brackets ']').foldl Assembly.acceptChar assembly

def tagStep (reading : Reading) (read : List Char) (quote? : Option Char) (c : Char) :
    Except Error Reading :=
  if c = '>' && quote?.isNone then do
    let tag ← Tag.ofContent read.reverse
    let assembly ← reading.assembly.acceptTag tag
    return { mode := .content, assembly }
  else reading.go (.tag (c :: read) (quoteAfter quote? c))

def step (reading : Reading) (c : Char) : Except Error Reading :=
  match reading.mode with
  | .content =>
    if c = '<' then reading.go .markup
    else if c = '&' then reading.go (.reference [])
    else .ok { reading with assembly := reading.assembly.acceptChar c }
  | .reference name =>
    if c = ';' then do
      let assembly ← reading.assembly.acceptReference name.reverse
      return { mode := .content, assembly }
    else if c = '&' || c = '<' then .error .unclosedReference
    else reading.go (.reference (c :: name))
  | .markup =>
    if c = '!' then reading.go .bang
    else if c = '?' then reading.go (.instruction [])
    else reading.tagStep [] none c
  | .tag read quote? => reading.tagStep read quote? c
  | .instruction read =>
    if c = '>' && read.isEmpty then .error .unclosedInstruction
    else if c = '>' && read.head? = some '?' then reading.go .content
    else reading.go (.instruction (c :: read))
  | .bang =>
    if c = '-' then reading.go .dash
    else if c = '[' then reading.go (.dataOpening "CDATA[".toList)
    else if c = 'D' || c = 'd' then reading.go (.doctype (.keyword "octype".toList))
    else .error .unknownMarkup
  | .dash =>
    if c = '-' then reading.go (.comment 0) else .error .unknownMarkup
  | .comment dashes =>
    if c = '-' then reading.go (.comment (dashes + 1))
    else if c = '>' && 2 ≤ dashes then reading.go .content
    else reading.go (.comment 0)
  | .dataOpening [] =>
    -- Unreachable: the last expected character leads to `data`.
    .error .unknownMarkup
  | .dataOpening (expected :: left) =>
    if c ≠ expected then .error .unknownMarkup
    else if left.isEmpty then reading.go (.data 0)
    else reading.go (.dataOpening left)
  | .data brackets =>
    if c = ']' then reading.go (.data (brackets + 1))
    else if c = '>' && 2 ≤ brackets then
      .ok { mode := .content, assembly := acceptBrackets reading.assembly (brackets - 2) }
    else
      .ok { mode := .data 0, assembly := (acceptBrackets reading.assembly brackets).acceptChar c }
  | .doctype mode => do
    match ← mode.step c with
    | none => reading.go .content
    | some mode => reading.go (.doctype mode)

/-- What is read, once the text is at its end: the root, if there is one. -/
def finish (reading : Reading) : Except Error (Option Element) :=
  match reading.mode with
  | .content =>
    if reading.assembly.stack.isEmpty then .ok reading.assembly.root? else .error .unexpectedEnd
  | .reference _ => .error .unclosedReference
  | .markup => .error .unclosedTag
  | .tag _ _ => .error .unclosedTag
  | .instruction _ => .error .unclosedInstruction
  | .bang => .error .unknownMarkup
  | .dash => .error .unclosedComment
  | .comment _ => .error .unclosedComment
  | .dataOpening _ => .error .unclosedData
  | .data _ => .error .unclosedData
  | .doctype _ => .error .unclosedDoctype

end Reading

/-- The root element of a text, nothing if the text holds no element. -/
def read (text : String) : Except Error (Option Element) := do
  let reading ← (Text.dropMark text.toList).foldlM Reading.step {}
  reading.finish

end LoopDirectives.Markup
