import LoopDirectives.CommandLine.Arguments
import LoopDirectives.Run
import LoopDirectives.Settings.Reader

/-!
# What the command is to do

From its arguments the command gets its settings and its inputs. Everything is read before the first
unit is transformed, and the command is refused if anything cannot be read.
-/

namespace LoopDirectives.CommandLine

inductive Refusal where
  | nothingToUpdate
  | severalInputs
  | settings (cause : SettingsError)
  | input (reason : FileError)
  deriving DecidableEq

def Refusal.message : Refusal → String
  | nothingToUpdate => "--update needs input files"
  | severalInputs => "--output accepts a single input file"
  | settings cause => cause.message
  | input reason => reason.message

/-- A unit to be transformed, with the file it was read from; none for standard input. -/
structure Input where
  path? : Option String
  content : String
  deriving DecidableEq

def Input.name (input : Input) : String :=
  input.path?.getD "<stdin>"

structure Job where
  arguments : Arguments
  settings : Settings
  inputs : List Input

def checkTarget (arguments : Arguments) : Except Refusal Unit :=
  if arguments.update && arguments.files.isEmpty then .error .nothingToUpdate
  else if arguments.output?.isSome && 1 < arguments.files.length then .error .severalInputs
  else .ok ()

def baseSettings (arguments : Arguments) (files : Files) : Except Refusal Settings :=
  match arguments.config? with
  | none => .ok {}
  | some path => (Settings.readAt files path).mapError Refusal.settings

def overrideSettings (arguments : Arguments) (settings : Settings) : Settings :=
  { marker := arguments.marker?.getD settings.marker
    columns? := arguments.columns? <|> settings.columns?
    directories :=
      if arguments.directories.isEmpty then settings.directories else arguments.directories }

def readInput (files : Files) (path : String) : Except Refusal Input :=
  match files.read path with
  | .error reason => .error (.input reason)
  | .ok content => .ok { path? := some path, content }

/-- The inputs: the files, or standard input when there are none. -/
def readInputs (arguments : Arguments) (files : Files) (standardInput : String) :
    Except Refusal (List Input) :=
  if arguments.files.isEmpty then .ok [{ path? := none, content := standardInput }]
  else arguments.files.mapM (readInput files)

def prepare (arguments : Arguments) (files : Files) (standardInput : String) :
    Except Refusal Job := do
  checkTarget arguments
  let settings ← baseSettings arguments files
  let inputs ← readInputs arguments files standardInput
  return { arguments, settings := overrideSettings arguments settings, inputs }

/-! ### Modules that may be needed -/

/-- The names of the modules that the directives of a unit mention. -/
def mentionedModules (marker : String) (input : Input) : List String :=
  match SourceUnit.read .program input.content with
  | .error _ => []
  | .ok program =>
    (program.document.descendantsOf program.root .pragma).filterMap fun pragma =>
      match Directive.find? marker program.document pragma with
      | .ok (some directive) => directive.argument? "module"
      | _ => none

def Job.moduleFiles (job : Job) (files : Files) : List String :=
  (job.inputs.flatMap (mentionedModules job.settings.marker)).flatMap
    (job.settings.library.candidates files)

end LoopDirectives.CommandLine
