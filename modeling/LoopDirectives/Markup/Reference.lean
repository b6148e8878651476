import LoopDirectives.Markup.Error
import LoopDirectives.Text.Numeral

/-!
# Character references

`&name;` stands for one character: one of five named ones, or any character by its number. Five
characters are always written as references, so that no text is taken for markup.
-/

namespace LoopDirectives.Markup

/-- The character with the number, if there is one and it is not zero. -/
def numbered? (code : Nat) : Option Char :=
  if code = 0 then none else Text.character? code

/-- The character that a reference, given without `&` and `;`, stands for. -/
def character? : List Char → Option Char
  | ['l', 't'] => some '<'
  | ['g', 't'] => some '>'
  | ['a', 'm', 'p'] => some '&'
  | ['a', 'p', 'o', 's'] => some '\''
  | ['q', 'u', 'o', 't'] => some '"'
  | '#' :: 'x' :: digits => (Text.readDigits? 16 digits).bind numbered?
  | '#' :: digits => (Text.readDigits? 10 digits).bind numbered?
  | _ => none

/-- The character that a reference stands for, or the fault that it stands for none. -/
def character (name : List Char) : Except Error Char :=
  match character? name with
  | some c => .ok c
  | none => .error (.unknownReference (String.ofList name))

/-- One character as it is written inside a text or an attribute value. -/
def escapeChar : Char → List Char
  | '<' => "&lt;".toList
  | '>' => "&gt;".toList
  | '&' => "&amp;".toList
  | '\'' => "&apos;".toList
  | '"' => "&quot;".toList
  | c => [c]

/-- A text as it is written inside an element or an attribute value. -/
def escape (text : List Char) : List Char :=
  text.flatMap escapeChar

/-- Where the reading of an attribute value stands: the characters read so far, and those of the
reference being read, both last first. -/
structure Unescaping where
  done : List Char := []
  reference? : Option (List Char) := none

def Unescaping.step (state : Unescaping) (c : Char) : Except Error Unescaping :=
  match state.reference? with
  | none =>
    if c = '&' then .ok { state with reference? := some [] }
    else .ok { state with done := c :: state.done }
  | some name =>
    if c = ';' then do
      let referred ← character name.reverse
      return { done := referred :: state.done }
    else if c = '&' then .error .unclosedReference
    else .ok { state with reference? := some (c :: name) }

/-- The text that an attribute value denotes, its references replaced by what they stand for. -/
def unescape (value : List Char) : Except Error (List Char) := do
  let state ← value.foldlM Unescaping.step {}
  match state.reference? with
  | none => return state.done.reverse
  | some _ => throw .unclosedReference

end LoopDirectives.Markup
