import LoopDirectives.Element
import LoopDirectives.Markup.Reference

/-!
# Writing elements as marked-up text

Every element stands on lines of its own, indented by two blanks per level. An element with
elements below it is written without its text; an element with neither is written as an empty tag.
-/

namespace LoopDirectives.Markup

def declaration : List Char :=
  "<?xml version=\"1.0\" encoding=\"utf-8\"?>".toList

def newLine (level : Nat) : List Char :=
  '\n' :: List.replicate (2 * level) ' '

def writeAttribute (entry : String × String) : List Char :=
  ' ' :: entry.1.toList ++ '=' :: '"' :: escape entry.2.toList ++ ['"']

def writeHead (label : Label) : List Char :=
  label.tag.toList ++ label.attributes.flatMap writeAttribute

def writeEnd (label : Label) : List Char :=
  '<' :: '/' :: label.tag.toList ++ ['>']

def writeLeaf (label : Label) : List Char :=
  if label.text.isEmpty then '<' :: writeHead label ++ ['/', '>']
  else '<' :: writeHead label ++ '>' :: escape label.text.toList ++ writeEnd label

mutual

def writeElement (level : Nat) : Element → List Char
  | .node label [] => newLine level ++ writeLeaf label
  | .node label (first :: rest) =>
    newLine level ++ '<' :: writeHead label ++ '>' :: writeElement (level + 1) first ++
      writeElements (level + 1) rest ++ newLine level ++ writeEnd label

def writeElements (level : Nat) : List Element → List Char
  | [] => []
  | element :: rest => writeElement level element ++ writeElements level rest

end

def write (element : Element) : String :=
  String.ofList (declaration ++ writeElement 0 element)

def writeNothing : String :=
  String.ofList declaration

end LoopDirectives.Markup
