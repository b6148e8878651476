import LoopDirectives.Element
import LoopDirectives.Markup.Tag

/-!
# Assembling elements

Tags, characters and references, taken one after the other, put an element together. The elements
whose end tag is still to come form a stack, innermost first; everything closed is final. The text
of an element is kept only if the element has no elements below it and the text is not blank.
-/

namespace LoopDirectives.Markup

/-- An element whose end tag is still to come: its label, the elements found below it and the
characters found in it, both last first. -/
structure OpenElement where
  label : Label
  below : List Element := []
  characters : List Char := []

def OpenElement.close (element : OpenElement) : Element :=
  let text := Text.trimBoth element.characters.reverse
  if element.below.isEmpty && !text.isEmpty then
    .node { element.label with text? := some (String.ofList text) } []
  else .node element.label element.below.reverse

/-- The elements still open, innermost first, and the root once it is closed. -/
structure Assembly where
  stack : List OpenElement := []
  root? : Option Element := none

namespace Assembly

/-- Puts a finished element below the innermost open one, or makes it the root. -/
def add (assembly : Assembly) (element : Element) : Assembly :=
  match assembly.stack with
  | [] => { assembly with root? := some element }
  | innermost :: outer =>
    { assembly with stack := { innermost with below := element :: innermost.below } :: outer }

def checkRoot (assembly : Assembly) : Except Error Unit :=
  if assembly.stack.isEmpty && assembly.root?.isSome then .error .secondRoot else .ok ()

def acceptTag (assembly : Assembly) : Tag → Except Error Assembly
  | .start label => do
    assembly.checkRoot
    return { assembly with stack := { label } :: assembly.stack }
  | .empty label => do
    assembly.checkRoot
    return assembly.add (.node label [])
  | .finish name =>
    match assembly.stack with
    | [] => .error (.unmatchedEnd name)
    | innermost :: outer =>
      if innermost.label.tag = name then
        .ok ({ assembly with stack := outer }.add innermost.close)
      else .error (.mismatchedEnd innermost.label.tag name)

/-- One more character of text; outside the root it is passed over. -/
def acceptChar (assembly : Assembly) (c : Char) : Assembly :=
  match assembly.stack with
  | [] => assembly
  | innermost :: outer =>
    { assembly with
      stack := { innermost with characters := c :: innermost.characters } :: outer }

/-- One more reference, given by its name; outside the root it is passed over. -/
def acceptReference (assembly : Assembly) (name : List Char) : Except Error Assembly :=
  if assembly.stack.isEmpty then .ok assembly
  else do return assembly.acceptChar (← character name)

end Assembly

end LoopDirectives.Markup
