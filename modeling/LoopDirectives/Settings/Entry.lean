import LoopDirectives.Settings.Token

/-!
# Entries of a settings file

A settings file is a list of lines `name = value`, where a value is a text, a number or a list of
texts. A list may go over several lines and have a comma after its last item. No name is given
twice.
-/

namespace LoopDirectives.Settings

inductive Value where
  | text (content : String)
  | number (content : Nat)
  | texts (content : List String)
  deriving DecidableEq

/-- The value of digits that may have single underscores between them. -/
def readGrouped? (base : Nat) (text : List Char) : Option Nat :=
  let groups := Text.pieces '_' text
  if groups.any List.isEmpty then none else Text.readDigits? base groups.flatten

/-- The value of a decimal number without a sign, which has no leading zero. -/
def readDecimal? (text : List Char) : Option Nat :=
  match text with
  | '0' :: _ :: _ => none
  | _ => readGrouped? 10 text

/-- The number that a word denotes: decimal with or without a sign, or in base sixteen, eight or
two. A negative number is none. -/
def readNumber? : List Char → Option Nat
  | '0' :: 'x' :: digits => readGrouped? 16 digits
  | '0' :: 'o' :: digits => readGrouped? 8 digits
  | '0' :: 'b' :: digits => readGrouped? 2 digits
  | '+' :: digits => readDecimal? digits
  | '-' :: digits => (readDecimal? digits).filter (· = 0)
  | digits => readDecimal? digits

inductive EntryMode where
  | line
  | named (name : String)
  | assigned (name : String)
  /-- In a list, where an item may follow. Items are kept last first. -/
  | listed (name : String) (items : List String)
  | item (name : String) (items : List String)
  | done

/-- The entries read so far, last first, and where the reading stands. -/
structure EntryReading where
  entries : List (String × Value) := []
  mode : EntryMode := .line

namespace EntryReading

def go (reading : EntryReading) (mode : EntryMode) : Except SettingsFault EntryReading :=
  .ok { reading with mode }

def add (reading : EntryReading) (name : String) (value : Value) :
    Except SettingsFault EntryReading :=
  if reading.entries.any fun entry => entry.1 == name then .error (.repeated name)
  else .ok { entries := (name, value) :: reading.entries, mode := .done }

def step (reading : EntryReading) (token : Token) : Except SettingsFault EntryReading :=
  match reading.mode, token with
  | .line, .newline => .ok reading
  | .line, .word name => reading.go (.named name)
  | .line, .quoted name false => reading.go (.named name)
  | .named name, .equals => reading.go (.assigned name)
  | .assigned name, .quoted text _ => reading.add name (.text text)
  | .assigned name, .word text =>
    match readNumber? text.toList with
    | some number => reading.add name (.number number)
    | none => .error (.notANumber text)
  | .assigned name, .opening => reading.go (.listed name [])
  | .listed _ _, .newline => .ok reading
  | .listed name items, .quoted text _ => reading.go (.item name (text :: items))
  | .listed name items, .closing => reading.add name (.texts items.reverse)
  | .item _ _, .newline => .ok reading
  | .item name items, .comma => reading.go (.listed name items)
  | .item name items, .closing => reading.add name (.texts items.reverse)
  | .done, .newline => reading.go .line
  | _, _ => .error .unexpectedToken

def finish (reading : EntryReading) : Except SettingsFault (List (String × Value)) :=
  match reading.mode with
  | .line | .done => .ok reading.entries.reverse
  | _ => .error .unexpectedToken

end EntryReading

def entries (text : String) : Except SettingsFault (List (String × Value)) := do
  let tokens ← tokens text
  let reading ← tokens.foldlM EntryReading.step {}
  reading.finish

end LoopDirectives.Settings
