import LoopDirectives.SourceUnit

/-!
# Module libraries

The modules loaded so far, under their names in lower case, and where others are looked for. A
module is looked for in the file named after it, in one directory after the other; the first file
that exists is the one that is read. Once loaded, a module stays.
-/

namespace LoopDirectives

inductive ModuleError where
  | notFound (name : String)
  | invalid (name : String) (cause : UnitError)
  | unreadable (path : String) (reason : FileError)
  deriving DecidableEq

def ModuleError.message : ModuleError → String
  | notFound name => "Module `" ++ name ++ "` not found"
  | invalid name cause => "Module `" ++ name ++ "` is invalid: " ++ cause.message
  | unreadable path reason => "IO error: " ++ path ++ ": " ++ reason.message

/-- The modules loaded so far and the directories in which others are looked for, if they are not
the default ones. -/
structure Library where
  modules : List (String × SourceUnit) := []
  directories? : Option (List String) := none

namespace Library

def defaultDirectories : List String :=
  ["$ORIGIN", "$HOME/.loopsmith/modules"]

def directories (library : Library) : List String :=
  library.directories?.getD defaultDirectories

/-- The library that looks for modules in the given directories, or in the default ones if there
are none given. -/
def searching (library : Library) (directories : List String) : Library :=
  { library with directories? := if directories.isEmpty then none else some directories }

def size (library : Library) : Nat :=
  library.modules.length

/-- The module with the name, in whatever case it is given, if it is loaded. -/
def get? (library : Library) (name : String) : Option SourceUnit :=
  (library.modules.find? fun entry => entry.1 == Text.lower name).map Prod.snd

def isLoaded (library : Library) (name : String) : Bool :=
  (library.get? name).isSome

def insert (library : Library) (unit : SourceUnit) : Library :=
  if library.isLoaded unit.name then library
  else { library with modules := library.modules ++ [(Text.lower unit.name, unit)] }

def fileName (name : String) : String :=
  Text.lower name ++ ".xmod"

def candidates (library : Library) (files : Files) (name : String) : List String :=
  library.directories.map fun directory => Files.join (files.expand directory) (fileName name)

def path (library : Library) (files : Files) (name : String) : Except ModuleError String :=
  match (library.candidates files name).find? files.isFile with
  | none => .error (.notFound name)
  | some path => .ok path

def readModule (library : Library) (files : Files) (name : String) :
    Except ModuleError SourceUnit := do
  let path ← library.path files name
  match files.read path with
  | .error reason => throw (.unreadable path reason)
  | .ok text =>
    match SourceUnit.read (.module name) text with
    | .error cause => throw (.invalid name cause)
    | .ok unit => return unit

/-- The module with the name and the library that holds it, which is read on first use. -/
def load (library : Library) (files : Files) (name : String) :
    Except ModuleError (Library × SourceUnit) :=
  match library.get? name with
  | some unit => .ok (library, unit)
  | none => do
    let unit ← library.readModule files name
    return (library.insert unit, unit)

end Library

end LoopDirectives
