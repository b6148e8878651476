import LoopDirectives.Settings.Error
import LoopDirectives.Text.Numeral

/-!
# Tokens of a settings file

Settings are written in TOML. Of its tokens only those are read that a list of settings can have:
bare words, quoted texts in their four forms, `=`, `,`, brackets, line ends and comments. Scanning
goes one character at a time; `ScanMode` says what the characters read last belong to.
-/

namespace LoopDirectives.Settings

inductive Token where
  | newline
  | equals
  | comma
  | opening
  | closing
  | word (text : String)
  | quoted (text : String) (multiline : Bool)
  deriving DecidableEq

/-- The form of a quoted text: with its quote, and over several lines or not. -/
structure QuoteForm where
  quote : Char
  multiline : Bool

/-- What the characters read last belong to. Characters of a text are kept last first. -/
inductive ScanMode where
  | between
  | word (read : List Char)
  | comment
  | carriage
  | opened (quote : Char)
  /-- Two quotes: the empty text, or the beginning of a text over several lines. -/
  | openedTwice (quote : Char)
  | inside (form : QuoteForm) (read : List Char)
  /-- The beginning of a text over several lines, of which a first line end is left out. -/
  | fresh (quote : Char)
  /-- A carriage return there. -/
  | freshCarriage (quote : Char)
  /-- Quotes inside a text over several lines. -/
  | quotes (quote : Char) (read : List Char) (count : Nat)
  /-- A carriage return inside a text over several lines. -/
  | insideCarriage (quote : Char) (read : List Char)
  | escape (multiline : Bool) (read : List Char)
  /-- The digits of an escape, with the number still to come and the value so far. -/
  | code (multiline : Bool) (read : List Char) (left value : Nat)
  /-- The blanks after a backslash at the end of a line, with whether the line end has come. -/
  | lineBreak (read : List Char) (ended : Bool)
  /-- A carriage return there. -/
  | lineBreakCarriage (read : List Char)

/-- The tokens read so far, last first, and what the characters read last belong to. -/
structure Scan where
  tokens : List Token := []
  mode : ScanMode := .between

def isWordChar (c : Char) : Bool :=
  c.isAlphanum || c == '_' || c == '-' || c == '+'

/-- Whether the character may stand in a comment or on one line of a quoted text. -/
def isPlain (c : Char) : Bool :=
  c == '\t' || (' ' ≤ c && c ≠ '\x7f')

def escaped? : Char → Option Char
  | 'b' => some '\x08'
  | 't' => some '\t'
  | 'n' => some '\n'
  | 'f' => some '\x0c'
  | 'r' => some '\r'
  | 'e' => some '\x1b'
  | '"' => some '"'
  | '\\' => some '\\'
  | _ => none

/-- The number of digits of an escape that gives a character by its number. -/
def digitsOf? : Char → Option Nat
  | 'x' => some 2
  | 'u' => some 4
  | 'U' => some 8
  | _ => none

namespace Scan

def go (scan : Scan) (mode : ScanMode) : Except SettingsFault Scan :=
  .ok { scan with mode }

def emit (scan : Scan) (token : Token) : Scan :=
  { tokens := token :: scan.tokens }

def emitText (scan : Scan) (read : List Char) (multiline : Bool) : Scan :=
  scan.emit (.quoted (String.ofList read.reverse) multiline)

def stepBetween (scan : Scan) (c : Char) : Except SettingsFault Scan :=
  if c = ' ' || c = '\t' then scan.go .between
  else if c = '\n' then .ok (scan.emit .newline)
  else if c = '\r' then scan.go .carriage
  else if c = '#' then scan.go .comment
  else if c = '=' then .ok (scan.emit .equals)
  else if c = ',' then .ok (scan.emit .comma)
  else if c = '[' then .ok (scan.emit .opening)
  else if c = ']' then .ok (scan.emit .closing)
  else if c = '"' || c = '\'' then scan.go (.opened c)
  else if isWordChar c then scan.go (.word [c])
  else .error (.unexpectedCharacter c)

def stepInside (scan : Scan) (form : QuoteForm) (read : List Char) (c : Char) :
    Except SettingsFault Scan :=
  if c = form.quote then
    if form.multiline then scan.go (.quotes form.quote read 1)
    else .ok (scan.emitText read false)
  else if c = '\\' && form.quote = '"' then scan.go (.escape form.multiline read)
  else if c = '\n' && form.multiline then scan.go (.inside form (c :: read))
  else if c = '\r' && form.multiline then scan.go (.insideCarriage form.quote read)
  else if isPlain c then scan.go (.inside form (c :: read))
  else .error (.unexpectedCharacter c)

def stepLineBreak (scan : Scan) (read : List Char) (ended : Bool) (c : Char) :
    Except SettingsFault Scan :=
  if c = ' ' || c = '\t' then scan.go (.lineBreak read ended)
  else if c = '\n' then scan.go (.lineBreak read true)
  else if c = '\r' then scan.go (.lineBreakCarriage read)
  else if ended then scan.stepInside { quote := '"', multiline := true } read c
  else .error .badEscape

def stepEscape (scan : Scan) (multiline : Bool) (read : List Char) (c : Char) :
    Except SettingsFault Scan :=
  match escaped? c, digitsOf? c with
  | some meant, _ => scan.go (.inside { quote := '"', multiline } (meant :: read))
  | none, some digits => scan.go (.code multiline read digits 0)
  | none, none => if multiline then scan.stepLineBreak read false c else .error .badEscape

def stepCode (scan : Scan) (multiline : Bool) (read : List Char) (left value : Nat) (c : Char) :
    Except SettingsFault Scan :=
  match Text.digit? 16 c with
  | none => .error .badEscape
  | some digit =>
    let next := value * 16 + digit
    if left ≤ 1 then
      match Text.character? next with
      | none => .error .badEscape
      | some meant => scan.go (.inside { quote := '"', multiline } (meant :: read))
    else scan.go (.code multiline read (left - 1) next)

/-- The text that ends with a run of quotes, three of which close it. -/
def closeQuotes (scan : Scan) (quote : Char) (read : List Char) (count : Nat) : Scan :=
  scan.emitText (List.replicate (count - 3) quote ++ read) true

def stepQuotes (scan : Scan) (quote : Char) (read : List Char) (count : Nat) (c : Char) :
    Except SettingsFault Scan :=
  if c = quote then
    if count < 5 then scan.go (.quotes quote read (count + 1)) else .error .unexpectedToken
  else if 3 ≤ count then (scan.closeQuotes quote read count).stepBetween c
  else scan.stepInside { quote, multiline := true } (List.replicate count quote ++ read) c

def step (scan : Scan) (c : Char) : Except SettingsFault Scan :=
  match scan.mode with
  | .between => scan.stepBetween c
  | .word read =>
    if isWordChar c then scan.go (.word (c :: read))
    else (scan.emit (.word (String.ofList read.reverse))).stepBetween c
  | .comment =>
    if c = '\n' then .ok (scan.emit .newline)
    else if c = '\r' then scan.go .carriage
    else if isPlain c then scan.go .comment
    else .error (.unexpectedCharacter c)
  | .carriage => if c = '\n' then .ok (scan.emit .newline) else .error .unclosed
  | .opened quote =>
    if c = quote then scan.go (.openedTwice quote)
    else scan.stepInside { quote, multiline := false } [] c
  | .openedTwice quote =>
    if c = quote then scan.go (.fresh quote) else (scan.emitText [] false).stepBetween c
  | .inside form read => scan.stepInside form read c
  | .fresh quote =>
    if c = '\n' then scan.go (.inside { quote, multiline := true } [])
    else if c = '\r' then scan.go (.freshCarriage quote)
    else scan.stepInside { quote, multiline := true } [] c
  | .freshCarriage quote =>
    if c = '\n' then scan.go (.inside { quote, multiline := true } []) else .error .unclosed
  | .quotes quote read count => scan.stepQuotes quote read count c
  | .insideCarriage quote read =>
    if c = '\n' then scan.go (.inside { quote, multiline := true } ('\n' :: '\r' :: read))
    else .error .unclosed
  | .escape multiline read => scan.stepEscape multiline read c
  | .code multiline read left value => scan.stepCode multiline read left value c
  | .lineBreak read ended => scan.stepLineBreak read ended c
  | .lineBreakCarriage read =>
    if c = '\n' then scan.go (.lineBreak read true) else .error .unclosed

def finish (scan : Scan) : Except SettingsFault (List Token) :=
  match scan.mode with
  | .between | .comment => .ok scan.tokens.reverse
  | .word read => .ok (scan.emit (.word (String.ofList read.reverse))).tokens.reverse
  | .openedTwice _ => .ok (scan.emitText [] false).tokens.reverse
  | .quotes quote read count =>
    if 3 ≤ count then .ok (scan.closeQuotes quote read count).tokens.reverse
    else .error .unclosed
  | _ => .error .unclosed

end Scan

def tokens (text : String) : Except SettingsFault (List Token) := do
  let scan ← (Text.dropMark text.toList).foldlM Scan.step {}
  scan.finish

end LoopDirectives.Settings
