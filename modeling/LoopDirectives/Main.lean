import LoopDirectives.CommandLine.Execution

/-!
# The command

The outer layer: it takes a snapshot of the files that the command may look at, executes the command
on the snapshot, and carries out what comes of it.
-/

namespace LoopDirectives.CommandLine

def versionText : String := "loopsmith 0.1.0"

def helpText : String :=
  "\n".intercalate [
    "Usage: loopsmith [OPTIONS] [FILES]...",
    "",
    "Options:",
    "  -c, --config <FILE>              Read settings from a TOML file",
    "  -L, --directory <DIRECTORY>      Search modules from the directory",
    "      --reserved-prefix <WORD>     First word of the directives to apply",
    "      --max-columns <NUMBER>       Split longer foreign pragmas into continued pragmas",
    "  -o, --output <FILE>              Output to the specified file",
    "  -U, --update                     Overwrite the input files",
    "      --strict                     Exit with an error when a directive could not be applied",
    "  -v, --verbose...                 Increase logging verbosity",
    "  -q, --quiet...                   Decrease logging verbosity",
    "  -h, --help                       Print help",
    "  -V, --version                    Print version"]

/-! ### Taking a snapshot -/

def look (path : String) : IO (Option FileEntry) := do
  try
    let bytes ← IO.FS.readBinFile path
    match String.fromUTF8? bytes with
    | some content => return some (.text content)
    | none => return some .binary
  catch _ =>
    try
      let real ← IO.FS.realPath path
      return if ← real.isDir then some .directory else none
    catch _ => return none

def observe (files : Files) (path : String) : IO Files :=
  (Files.stages path).foldlM
    (fun files stage => do
      match ← look stage with
      | none => return files
      | some entry => return files.place (files.destination stage) entry)
    files

def emptySnapshot : IO Files := do
  let origin := toString (← IO.currentDir)
  let home := (← IO.getEnv "HOME").getD ""
  return ({ origin, home } : Files).place (Files.locationOf origin) .directory

/-- What is left of a stream, after what was read before. -/
partial def readAll (stream : IO.FS.Stream) (before : String) : IO String := do
  let line ← stream.getLine
  if line.isEmpty then return before else readAll stream (before ++ line)

def readStandardInput (arguments : Arguments) : IO String := do
  if arguments.files.isEmpty && !arguments.update then readAll (← IO.getStdin) ""
  else return ""

def takeSnapshot (arguments : Arguments) (standardInput : String) : IO Files := do
  let named := arguments.config?.toList ++ arguments.files ++ arguments.output?.toList
  let files ← named.foldlM observe (← emptySnapshot)
  match prepare arguments files standardInput with
  | .error _ => return files
  | .ok job => (job.moduleFiles files).foldlM observe files

/-! ### Carrying out a result -/

def printFatal (failure : FatalError) : IO Unit := do
  IO.eprintln failure.code
  IO.eprintln failure.message
  match failure.help? with
  | none => return ()
  | some help => IO.eprintln ("help: " ++ help)

def printEnding : Ending → IO Unit
  | .success => return ()
  | .help => IO.println helpText
  | .version => IO.println versionText
  | .failed cause => IO.eprintln ("Error: " ++ cause.message)
  | .misused error => IO.eprintln ("error: " ++ error.message)

/-- Writes what changed, prints everything else, and returns what the system sees. -/
def carryOut (before : Files) (result : Result) : IO UInt32 := do
  for diagnostic in result.diagnostics do
    IO.eprintln diagnostic.text
  for failure in result.fatal do
    printFatal failure
  for (location, content) in result.files.changesSince before do
    IO.FS.writeFile ("/" ++ "/".intercalate location) content
  for unit in result.printed do
    IO.println unit
  printEnding result.ending
  return result.ending.code.toUInt32

def command (words : List String) : IO UInt32 := do
  match parse words with
  | .error stop =>
    printEnding stop.ending
    return stop.ending.code.toUInt32
  | .ok arguments =>
    let standardInput ← readStandardInput arguments
    let files ← takeSnapshot arguments standardInput
    carryOut files (run arguments files standardInput)

end LoopDirectives.CommandLine

def main (words : List String) : IO UInt32 :=
  LoopDirectives.CommandLine.command words
