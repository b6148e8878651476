import LoopDirectives.Import.TypeChain

/-!
# Importing types

A basic type of one unit becomes available in another: the types that it is made from first. A type
that is already there in the same form is used as it is; otherwise its element is copied, under its
own identifier if that is free and else under a fresh one.
-/

namespace LoopDirectives.Import

/-- Whether two live type elements agree in everything but their identifiers, where the left one
refers to `reference?`. -/
def sameType (left : Document) (leftNode : NodeId) (right : Document) (rightNode : NodeId)
    (reference? : Option String) : Bool :=
  left.contains leftNode && right.contains rightNode &&
    left.tag leftNode == right.tag rightNode &&
    left.attribute? leftNode "ref" == reference? &&
    (left.label leftNode).attributesExcept ["type", "ref"] ==
      (right.label rightNode).attributesExcept ["type", "ref"] &&
    (left.children leftNode).length == (right.children rightNode).length &&
    ((left.children leftNode).zip (right.children rightNode)).all fun pair =>
      left.sameStructure pair.1 right pair.2

/-- The identifier of a type of `target` in the same form as the link. -/
def existing? (source target : SourceUnit) (link : TypeLink) (reference? : Option String) :
    Option String :=
  (target.types.entries.find? fun entry =>
    sameType target.document entry.node source.document link.node reference?).map TypeEntry.id

/-- The identifier under which a type is declared in `target` when it is not there yet. -/
def newId (target : SourceUnit) (id : String) : String :=
  if target.types.contains id then target.types.freshId id else id

/-- Declares a copy of the element of a link in `target` under the identifier, referring to
`reference?`. -/
def declare (source target : SourceUnit) (link : TypeLink) (id : String)
    (reference? : Option String) : SourceUnit :=
  match target.document.copyFrom? source.document link.node with
  | none => target
  | some (copied, copy) =>
    let named := copied.setAttribute copy "type" id
    let referring :=
      match reference? with
      | none => named
      | some reference => named.setAttribute copy "ref" reference
    match target.types.insert? referring copy with
    | none => { target with document := referring }
    | some (types, doc, _) => { target with document := doc, types }

/-- Makes one link available, given the identifier of what it refers to. -/
def importLink (source : SourceUnit) (target : SourceUnit) (link : TypeLink)
    (reference? : Option String) : SourceUnit × String :=
  match existing? source target link reference? with
  | some id => (target, id)
  | none =>
    let id := newId target link.id
    (declare source target link id reference?, id)

/-- An import that changes a unit in place. What was changed before a failure stays changed. -/
abbrev InPlace := EStateM TransformError SourceUnit

namespace InPlace

def check {α : Type} (result : Except TransformError α) : InPlace α := fun unit =>
  match result with
  | .ok value => .ok value unit
  | .error cause => .error cause unit

def demand (condition : Bool) (cause : TransformError) : InPlace Unit :=
  check (if condition then .ok () else .error cause)

/-- The changed unit with what a run returns, or why it fails. -/
def commit {α : Type} : EStateM.Result TransformError SourceUnit α →
    Except TransformError (SourceUnit × α)
  | .ok value unit => .ok (unit, value)
  | .error cause _ => .error cause

end InPlace

/-- Makes one link available, which fails if its element has to be copied and was deleted. -/
def importLinkInPlace (source : SourceUnit) (link : TypeLink) (reference? : Option String) :
    InPlace String := do
  let target ← get
  InPlace.demand
    ((existing? source target link reference?).isSome || source.document.contains link.node)
    (.undeclaredType link.id source.name)
  modifyGet fun target => (importLink source target link reference?).swap

/-- Makes a type available after the one that it is made from. A built-in type and one whose import
is in progress are left to their own identifier. The bound is that of `checkTypeFrom`. -/
def importTypeGuarded (source : SourceUnit) :
    (bound : Nat) → (inProgress : List String) → String → InPlace String
  | 0, _, id => return id
  | bound + 1, inProgress, id =>
    if isBuiltinType id || inProgress.contains id then return id
    else
      match link? source id with
      | none => throw (.undeclaredType id source.name)
      | some (link, none) => importLinkInPlace source link none
      | some (link, some reference) => do
        let imported ← importTypeGuarded source bound (id :: inProgress) reference
        importLinkInPlace source link (some imported)

def importTypeInPlace (source : SourceUnit) : String → InPlace String :=
  importTypeGuarded source (source.types.entries.length + 1) []

/-- Makes a type of `source` available in `target` and returns its identifier there. -/
def importType (source : SourceUnit) (id : String) (target : SourceUnit) :
    Except TransformError (SourceUnit × String) :=
  InPlace.commit (importTypeInPlace source id target)

end LoopDirectives.Import
