import LoopDirectives.Pragma.Wrap
import LoopDirectives.Transformation.Group

/-!
# Transforming a program

A run finds the directives of a program, carries them out kind by kind, and wraps long pragmas if it
is told to. A program without its tables fails as a whole; every other problem concerns one
directive and ends up in the report.
-/

namespace LoopDirectives

structure FatalError where
  file : String
  cause : UnitError
  deriving DecidableEq

namespace FatalError

def message (failure : FatalError) : String :=
  failure.file ++ ": " ++ failure.cause.message

def code (failure : FatalError) : String :=
  match failure.cause with
  | .malformed _ => "loopsmith::fatal::Xml"
  | .noRoot => "loopsmith::fatal::EmptyDocument"
  | .unexpectedRoot _ _ => "loopsmith::fatal::UnexpectedRoot"
  | .missingTable _ => "loopsmith::fatal::MissingTable"
  | .unreadable _ => "loopsmith::fatal::IOError"

def help? (failure : FatalError) : Option String :=
  match failure.cause with
  | .malformed _ => some "The input is not well-formed XML."
  | .noRoot => some "The input document has no root element."
  | .unexpectedRoot expected _ =>
    some ("A translation unit must be rooted at `" ++ expected.tag ++ "`.")
  | .missingTable table =>
    some ("Every translation unit needs a `" ++ table.tag ++ "` element directly below its root.")
  | .unreadable _ => none

end FatalError

namespace Run

/-! ### Finding directives -/

/-- The groups of a run, without members, in the order in which they are carried out. -/
def emptyGroups : List Group :=
  TransformationKind.all.map fun kind => { keyword := kind.keyword, grouping := kind.grouping }

def enlist (transformation : Transformation) (groups : List Group) : List Group :=
  groups.map fun group =>
    if group.keyword = transformation.kind.keyword then
      { group with members := group.members ++ [transformation] }
    else group

/-- Takes up one pragma: a directive joins its group, a faulty or unknown one is reported, and
everything else is passed over. -/
def discoverAt (marker : String) (doc : Document) (found : List Group × Report)
    (pragma : NodeId) : List Group × Report :=
  let (groups, report) := found
  match Directive.find? marker doc pragma with
  | .error cause => (groups, report.add (doc.line pragma) .warning cause.message)
  | .ok none => found
  | .ok (some directive) =>
    if directive.isEnd then found
    else
      match TransformationKind.ofKeyword? directive.keyword with
      | some kind => (enlist { directive, kind } groups, report)
      | none =>
        (groups, report.add directive.line .warning
          ("Unknown directive `" ++ directive.keyword ++ "`"))

/-- The groups of the directives below the root and the report about the others. -/
def discover (marker : String) (program : SourceUnit) : List Group × Report :=
  (program.document.descendantsOf program.root .pragma).foldl
    (discoverAt marker program.document) (emptyGroups, { file := program.name })

/-! ### Carrying them out -/

def applyGroups (context : Context) (groups : List Group) (progress : Progress) : Progress :=
  groups.foldl (fun progress group => (group.apply context progress).2) progress

def wrapPragmas (settings : Settings) (program : SourceUnit) : SourceUnit :=
  match settings.columns? with
  | none => program
  | some columns =>
    { program with
      document := Pragma.wrap columns settings.marker program.document program.root }

def transform (context : Context) (workspace : Workspace) :
    Except FatalError (Workspace × Report) :=
  match workspace.program.validate with
  | .error cause => .error { file := workspace.program.name, cause }
  | .ok () =>
    let (groups, report) := discover context.marker workspace.program
    let progress := applyGroups context groups { workspace, report }
    let program := wrapPragmas context.settings progress.workspace.program
    .ok ({ progress.workspace with program }, progress.report)

end Run

end LoopDirectives
