import LoopDirectives.Text.Numeral

/-!
# Arguments of the command

Options come in a long and, most of them, in a short form; short flags can be written together; a
value follows its option or stands directly behind it. What is not an option is an input file, and
so is everything after `--`.
-/

namespace LoopDirectives.CommandLine

inductive ValueOption where
  | config | directory | marker | columns | output
  deriving DecidableEq

inductive Flag where
  | update | strict | verbose | quiet | help | version
  deriving DecidableEq

inductive OptionName where
  | value (option : ValueOption)
  | flag (flag : Flag)

def shortOption? : Char → Option OptionName
  | 'c' => some (.value .config)
  | 'L' => some (.value .directory)
  | 'o' => some (.value .output)
  | 'U' => some (.flag .update)
  | 'v' => some (.flag .verbose)
  | 'q' => some (.flag .quiet)
  | 'h' => some (.flag .help)
  | 'V' => some (.flag .version)
  | _ => none

def longOption? : String → Option OptionName
  | "config" => some (.value .config)
  | "directory" => some (.value .directory)
  | "reserved-prefix" => some (.value .marker)
  | "max-columns" => some (.value .columns)
  | "output" => some (.value .output)
  | "update" => some (.flag .update)
  | "strict" => some (.flag .strict)
  | "verbose" => some (.flag .verbose)
  | "quiet" => some (.flag .quiet)
  | "help" => some (.flag .help)
  | "version" => some (.flag .version)
  | _ => none

structure Arguments where
  config? : Option String := none
  directories : List String := []
  marker? : Option String := none
  columns? : Option Nat := none
  output? : Option String := none
  update : Bool := false
  strict : Bool := false
  files : List String := []
  deriving DecidableEq

/-- The faults in a list of arguments. -/
inductive ArgumentError where
  | unknownOption (argument : String)
  | missingValue
  | unexpectedValue (argument : String)
  | badValue (value : String)
  | repeated
  | conflict
  deriving DecidableEq

def ArgumentError.message : ArgumentError → String
  | unknownOption argument => "unexpected argument '" ++ argument ++ "' found"
  | missingValue => "a value is required but none was supplied"
  | unexpectedValue argument => "unexpected value for '" ++ argument ++ "' found"
  | badValue value => "invalid value '" ++ value ++ "'"
  | repeated => "an option cannot be used multiple times"
  | conflict => "two options cannot be used together"

inductive Stop where
  | fault (error : ArgumentError)
  | help
  | version

/-- The arguments taken up so far, with how often the verbosity was asked for. -/
structure Progress where
  arguments : Arguments := {}
  verbose : Bool := false
  quiet : Bool := false
  pending? : Option ValueOption := none
  /-- Whether `--` has come. -/
  onlyFiles : Bool := false

def pathValue (value : String) : Except Stop String :=
  if value.isEmpty then .error (.fault (.badValue value)) else .ok value

def once {α : Type} (old? : Option α) (new : α) : Except Stop (Option α) :=
  if old?.isSome then .error (.fault .repeated) else .ok (some new)

namespace Progress

def setValue (progress : Progress) (option : ValueOption) (value : String) :
    Except Stop Progress := do
  let arguments := progress.arguments
  let changed ← match option with
    | .config => do pure { arguments with config? := ← once arguments.config? (← pathValue value) }
    | .directory => do
      pure { arguments with directories := arguments.directories ++ [← pathValue value] }
    | .marker => do pure { arguments with marker? := ← once arguments.marker? value }
    | .columns =>
      match Text.readNatural? (Text.wordLimit 64) value.toList with
      | none => .error (.fault (.badValue value))
      | some columns => do pure { arguments with columns? := ← once arguments.columns? columns }
    | .output => do pure { arguments with output? := ← once arguments.output? (← pathValue value) }
  return { progress with arguments := changed, pending? := none }

def setFlag (progress : Progress) (flag : Flag) : Except Stop Progress :=
  let arguments := progress.arguments
  match flag with
  | .update =>
    if arguments.update then .error (.fault .repeated)
    else .ok { progress with arguments := { arguments with update := true } }
  | .strict =>
    if arguments.strict then .error (.fault .repeated)
    else .ok { progress with arguments := { arguments with strict := true } }
  | .verbose => .ok { progress with verbose := true }
  | .quiet => .ok { progress with quiet := true }
  | .help => .error .help
  | .version => .error .version

def addFile (progress : Progress) (file : String) : Except Stop Progress := do
  let file ← pathValue file
  let arguments := progress.arguments
  return { progress with arguments := { arguments with files := arguments.files ++ [file] } }

/-- Takes up short options written together: flags, and at the end at most one option with a value,
which may stand directly behind it, with or without `=`. -/
def shortOptions (progress : Progress) (argument : String) : List Char → Except Stop Progress
  | [] => .ok progress
  | letter :: rest =>
    match shortOption? letter with
    | none => .error (.fault (.unknownOption argument))
    | some (.flag flag) => do (← progress.setFlag flag).shortOptions argument rest
    | some (.value option) =>
      match rest with
      | [] => .ok { progress with pending? := some option }
      | '=' :: value => progress.setValue option (String.ofList value)
      | value => progress.setValue option (String.ofList value)

/-- Takes up a long option, given without its dashes. -/
def longOption (progress : Progress) (argument : List Char) : Except Stop Progress :=
  let name := String.ofList (argument.takeWhile (· ≠ '='))
  match longOption? name, argument.dropWhile (· ≠ '=') with
  | none, _ => .error (.fault (.unknownOption ("--" ++ name)))
  | some (.flag flag), [] => progress.setFlag flag
  | some (.flag _), _ => .error (.fault (.unexpectedValue name))
  | some (.value option), [] => .ok { progress with pending? := some option }
  | some (.value option), _ :: value => progress.setValue option (String.ofList value)

def step (progress : Progress) (argument : String) : Except Stop Progress :=
  if progress.onlyFiles then progress.addFile argument
  else
    match progress.pending?, argument.toList with
    | some option, ['-'] => progress.setValue option argument
    | some _, '-' :: _ => .error (.fault .missingValue)
    | some option, _ => progress.setValue option argument
    | none, ['-'] => progress.addFile argument
    | none, ['-', '-'] => .ok { progress with onlyFiles := true }
    | none, '-' :: '-' :: name => progress.longOption name
    | none, '-' :: letters => progress.shortOptions argument letters
    | none, _ => progress.addFile argument

def finish (progress : Progress) : Except Stop Arguments :=
  if progress.pending?.isSome then .error (.fault .missingValue)
  else if progress.verbose && progress.quiet then .error (.fault .conflict)
  else if progress.arguments.output?.isSome && progress.arguments.update then
    .error (.fault .conflict)
  else .ok progress.arguments

end Progress

def parse (arguments : List String) : Except Stop Arguments := do
  let progress ← arguments.foldlM Progress.step {}
  progress.finish

end LoopDirectives.CommandLine
