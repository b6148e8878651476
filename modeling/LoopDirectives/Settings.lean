import LoopDirectives.Library

/-!
# Settings

What a run can be told: the word that marks its directives, the width of lines, and where modules
are looked for.
-/

namespace LoopDirectives

structure Settings where
  /-- The first word of the pragmas that are directives. -/
  marker : String := "lsm"
  /-- The columns of a line, if long pragmas are to be wrapped. -/
  columns? : Option Nat := none
  /-- The directories in which modules are looked for; none for the default ones. -/
  directories : List String := []
  deriving DecidableEq

/-- The library, without modules yet, that looks for modules where the settings say. -/
def Settings.library (settings : Settings) : Library :=
  ({} : Library).searching settings.directories

end LoopDirectives
