import LoopDirectives.Text.Letter
import LoopDirectives.Text.Word

/-!
# The text of a pragma

A pragma begins with a word that says whom it is for, and may end in a comment. The pragmas whose
first word is the marker, in any case, are reserved: they are directives of this tool.
-/

namespace LoopDirectives.Pragma

/-- The text without its comment, which begins at the first `!` that is not its first character;
white space at both ends goes with the comment. -/
def dropComment (text : List Char) : List Char :=
  let before := text.takeWhile (· ≠ '!')
  if before.isEmpty || before.length = text.length then text else Text.trimBoth before

def uncommented (text : String) : String :=
  String.ofList (dropComment text.toList)

def sentinel (text : String) : String :=
  String.ofList (text.toList.takeWhile (· ≠ ' '))

/-- Whether the first word of the text is the marker, in any case. -/
def isReserved (marker text : String) : Bool :=
  match Text.firstWord text.toList with
  | [] => false
  | word => Text.sameLetters (String.ofList word) marker

end LoopDirectives.Pragma
