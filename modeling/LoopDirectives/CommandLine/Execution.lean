import LoopDirectives.CommandLine.Job

/-!
# Executing the command

The units are transformed one after the other, with one library of modules for all of them. Each is
reported on and then written to the output file, over its input file, or to standard output. A unit
that fails as a whole is passed over, and the command then ends with a failure; so it does when
something cannot be written, at once, and in strict mode when a directive could not be applied.
-/

namespace LoopDirectives.CommandLine

inductive Failure where
  | refused (cause : Refusal)
  | unwritable (reason : FileError)
  | failedUnits (count : Nat)
  /-- In strict mode, so many units had directives that could not be applied. -/
  | failedDirectives (units : Nat)
  deriving DecidableEq

def Failure.message : Failure → String
  | refused cause => cause.message
  | unwritable reason => reason.message
  | failedUnits count => toString count ++ " unit(s) could not be translated"
  | failedDirectives units =>
    toString units ++ " unit(s) with directives that could not be applied"

inductive Ending where
  | success
  | help
  | version
  | failed (cause : Failure)
  | misused (error : ArgumentError)
  deriving DecidableEq

/-- The number that the system sees. -/
def Ending.code : Ending → Nat
  | success | help | version => 0
  | failed _ => 1
  | misused _ => 2

structure Output where
  report : Report
  content : String

def transformInput (context : Context) (library : Library) (input : Input) :
    Except FatalError (Output × Library) :=
  match SourceUnit.read .program input.content with
  | .error cause => .error { file := input.name, cause }
  | .ok program => do
    let (workspace, report) ← Run.transform context { program, library }
    return ({ report, content := workspace.program.write }, workspace.library)

/-- The file that a transformed unit is written to; none for standard output. -/
def target? (arguments : Arguments) (input : Input) : Option String :=
  arguments.output? <|> if arguments.update then input.path? else none

structure State where
  files : Files
  library : Library
  printed : List String := []
  diagnostics : List Diagnostic := []
  fatal : List FatalError := []
  failing : Nat := 0
  /-- Why a unit could not be written, which ends the command. -/
  writeError? : Option FileError := none

namespace State

def note (state : State) (report : Report) : State :=
  { state with
    diagnostics := state.diagnostics ++ report.diagnostics
    failing := if report.hasErrors then state.failing + 1 else state.failing }

def write (state : State) (target? : Option String) (content : String) : State :=
  match target? with
  | none => { state with printed := state.printed ++ [content] }
  | some path =>
    match state.files.write path content with
    | .ok files => { state with files }
    | .error reason => { state with writeError? := some reason }

def process (job : Job) (state : State) (input : Input) : State :=
  if state.writeError?.isSome then state
  else
    match transformInput { settings := job.settings, files := state.files } state.library input with
    | .error failure => { state with fatal := state.fatal ++ [failure] }
    | .ok (output, library) =>
      ({ state with library }.note output.report).write (target? job.arguments input) output.content

def ending (state : State) (strict : Bool) : Ending :=
  match state.writeError? with
  | some reason => .failed (.unwritable reason)
  | none =>
    if 0 < state.fatal.length then .failed (.failedUnits state.fatal.length)
    else if strict && 0 < state.failing then .failed (.failedDirectives state.failing)
    else .success

end State

structure Result where
  ending : Ending
  files : Files
  printed : List String := []
  diagnostics : List Diagnostic := []
  fatal : List FatalError := []

def Job.execute (job : Job) (files : Files) : Result :=
  let state := job.inputs.foldl (State.process job) { files, library := job.settings.library }
  { ending := state.ending job.arguments.strict
    files := state.files
    printed := state.printed
    diagnostics := state.diagnostics
    fatal := state.fatal }

def run (arguments : Arguments) (files : Files) (standardInput : String) : Result :=
  match prepare arguments files standardInput with
  | .error cause => { ending := .failed (.refused cause), files }
  | .ok job => job.execute files

def Stop.ending : Stop → Ending
  | fault error => .misused error
  | help => .help
  | version => .version

def execute (words : List String) (files : Files) (standardInput : String) : Result :=
  match parse words with
  | .error stop => { ending := stop.ending, files }
  | .ok arguments => run arguments files standardInput

end LoopDirectives.CommandLine
