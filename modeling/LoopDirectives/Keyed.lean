/-!
# Lists with keys

Tables are lists of entries in a visible order, in which every entry has a key. `place` is the one
way to put an entry in: over the first entry with its key, or else last.
-/

namespace LoopDirectives.Keyed

variable {Entry Key : Type} [DecidableEq Key] (key : Entry → Key)

/-- The entries with `entry` in the place of the first one with its key, or else last. -/
def place (entry : Entry) : List Entry → List Entry
  | [] => [entry]
  | first :: rest =>
    if key first = key entry then entry :: rest else first :: place entry rest

end LoopDirectives.Keyed
