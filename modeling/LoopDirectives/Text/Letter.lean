/-!
# Letter case

Names of the source language, directive keywords and clause names are compared without regard to
the case of the letters `A` to `Z`. Every other character, accented letters included, stands for
itself alone.
-/

namespace LoopDirectives.Text

/-- The characters with `A` to `Z` replaced by `a` to `z`. -/
def lowerChars (text : List Char) : List Char :=
  text.map Char.toLower

def lower (text : String) : String :=
  String.ofList (lowerChars text.toList)

/-- Whether two strings differ at most in the case of `A` to `Z`. -/
def sameLetters (left right : String) : Bool :=
  lower left == lower right

@[simp] theorem sameLetters_self (text : String) : sameLetters text text = true := by
  simp [sameLetters]

theorem sameLetters_iff {left right : String} :
    sameLetters left right = true ↔ lower left = lower right := by
  simp [sameLetters]

end LoopDirectives.Text
