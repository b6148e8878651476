import LoopDirectives.Kind
import LoopDirectives.Text.Blank
import LoopDirectives.Text.Letter
import LoopDirectives.Text.Numeral

/-!
# Labels of elements

What an element says of itself, apart from its place in a document: its tag, its attributes in
order, and its text, if it has one.
-/

namespace LoopDirectives

/-- The tag, the attributes and the text of an element. -/
structure Label where
  tag : String
  attributes : List (String × String) := []
  text? : Option String := none
  deriving DecidableEq

namespace Label

/-- The label that stands for an element that is not there. -/
def blank : Label := { tag := "" }

def kind (label : Label) : Kind :=
  Kind.ofTag label.tag

/-- The text, empty when there is none. -/
def text (label : Label) : String :=
  label.text?.getD ""

def attribute? (label : Label) (name : String) : Option String :=
  (label.attributes.find? fun entry => entry.1 == name).map Prod.snd

def assign (name value : String) : List (String × String) → List (String × String)
  | [] => [(name, value)]
  | entry :: rest =>
    if entry.1 = name then (name, value) :: rest else entry :: assign name value rest

def setAttribute (label : Label) (name value : String) : Label :=
  { label with attributes := assign name value label.attributes }

def removeAttribute (label : Label) (name : String) : Label :=
  { label with attributes := label.attributes.filter fun entry => entry.1 != name }

def setText (label : Label) (text : String) : Label :=
  { label with text? := some text }

def flag (label : Label) (name : String) : Bool :=
  label.attribute? name == some "true" || label.attribute? name == some "1"

/-- The source line, `0` when the attribute is missing or not a number below `2 ^ 32`. -/
def line (label : Label) : Nat :=
  ((label.attribute? "lineno").bind fun text =>
    Text.readNatural? (Text.wordLimit 32) (Text.trimBoth text.toList)).getD 0

def attributesExcept (label : Label) (names : List String) : List (String × String) :=
  label.attributes.filter fun entry => !names.contains entry.1

theorem find?_assign_self (name value : String) (attributes : List (String × String)) :
    ((assign name value attributes).find? fun entry => entry.1 == name) = some (name, value) := by
  induction attributes with
  | nil => simp [assign]
  | cons entry rest ih =>
    by_cases h : entry.1 = name
    · simp [assign, h]
    · simp [assign, h, ih]

theorem find?_assign_of_ne {name other : String} (h : other ≠ name) (value : String)
    (attributes : List (String × String)) :
    ((assign name value attributes).find? fun entry => entry.1 == other) =
      attributes.find? fun entry => entry.1 == other := by
  induction attributes with
  | nil => simp [assign, h.symm]
  | cons entry rest ih =>
    by_cases hname : entry.1 = name
    · simp [assign, hname, h.symm]
    · by_cases hother : entry.1 = other
      · subst hother
        simp [assign, hname]
      · simp [assign, hname, hother, ih]

@[simp] theorem attribute?_setAttribute_self (label : Label) (name value : String) :
    (label.setAttribute name value).attribute? name = some value := by
  simp [attribute?, setAttribute, find?_assign_self]

theorem attribute?_setAttribute_of_ne {name other : String} (h : other ≠ name) (label : Label)
    (value : String) :
    (label.setAttribute name value).attribute? other = label.attribute? other := by
  simp [attribute?, setAttribute, find?_assign_of_ne h]

end Label

end LoopDirectives
