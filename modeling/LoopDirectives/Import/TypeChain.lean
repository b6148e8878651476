import LoopDirectives.TransformError

/-!
# Chains of types

A basic type may be made from another one, which may be made from a further one, and so on, until a
built-in type, a type made from none, or a type that was met before.
-/

namespace LoopDirectives

/-- One link of a chain: a declared basic type with its element. -/
structure TypeLink where
  id : String
  node : NodeId

namespace Import

/-- The declared basic type with the identifier, with the type that it is made from. -/
def link? (unit : SourceUnit) (id : String) : Option (TypeLink × Option String) := do
  let entry ← unit.types.get? id
  match entry.form with
  | .basic form => some ({ id, node := entry.node }, form.reference?)
  | _ => none

/-- Follows a chain to its end. Every round but the last meets another declared type, so a bound of
the number of types is never reached. -/
def checkTypeFrom (unit : SourceUnit) :
    (bound : Nat) → (visited : List String) → Option String → Except TransformError Unit
  | bound + 1, visited, some id =>
    if isBuiltinType id || visited.contains id then .ok ()
    else
      match link? unit id with
      | none => .error (.undeclaredType id unit.name)
      | some (_, reference?) => checkTypeFrom unit bound (id :: visited) reference?
  | _, _, _ => .ok ()

/-- Whether the type, if there is one, leads over declared basic types only. -/
def checkType (unit : SourceUnit) : Option String → Except TransformError Unit :=
  checkTypeFrom unit (unit.types.entries.length + 1) []

end Import

end LoopDirectives
