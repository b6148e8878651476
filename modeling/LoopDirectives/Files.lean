import LoopDirectives.Text.Word

/-!
# Files

A snapshot of the files that a run can see: texts, files that hold no text, and directories, each
under its absolute path. Paths are resolved the usual way: relative ones start at the working
directory `origin`, `.` stays, `..` goes up, and every name but the last must be a directory.
-/

namespace LoopDirectives

inductive FileEntry where
  | directory
  | text (content : String)
  /-- A file whose bytes are not UTF-8. -/
  | binary
  deriving DecidableEq

inductive FileError where
  | missing
  | notDirectory
  | isDirectory
  | nameTooLong
  | nameWithNull
  | notText
  deriving DecidableEq

def FileError.message : FileError → String
  | missing => "No such file or directory (os error 2)"
  | notDirectory => "Not a directory (os error 20)"
  | isDirectory => "Is a directory (os error 21)"
  | nameTooLong => "File name too long (os error 36)"
  | nameWithNull => "file name contained an unexpected NUL byte"
  | notText => "stream did not contain valid UTF-8"

/-- The names on the way from the root directory to a file. -/
abbrev Location := List String

/-- The directories from the root directory down to the one above the location, outermost first. -/
def Location.above (location : Location) : List Location :=
  (List.range location.length).map fun depth => location.take depth

/-- The working directory, the home directory and everything that can be seen. -/
structure Files where
  origin : String
  home : String
  entries : List (Location × FileEntry) := []

namespace Files

def names (path : String) : List String :=
  (Text.pieces '/' path.toList).map String.ofList

/-- The location that an absolute path without `.` and `..` names. -/
def locationOf (path : String) : Location :=
  (names path).filter (· ≠ "")

/-- What stands at the location; the root directory always exists. -/
def entry? (files : Files) (location : Location) : Option FileEntry :=
  if location.isEmpty then some .directory
  else (files.entries.find? fun entry => entry.1 == location).map Prod.snd

def set (files : Files) (location : Location) (entry : FileEntry) : Files :=
  { files with
    entries := (files.entries.filter fun other => other.1 != location) ++ [(location, entry)] }

def erase (files : Files) (location : Location) : Files :=
  { files with entries := files.entries.filter fun other => other.1 != location }

def makeAbove (files : Files) (location : Location) : Files :=
  location.above.foldl
    (fun files directory =>
      if (files.entry? directory).isSome then files else files.set directory .directory)
    files

/-- Puts an entry at the location and makes the directories above it. -/
def place (files : Files) (location : Location) (entry : FileEntry) : Files :=
  (files.makeAbove location).set location entry

/-- The location and the entry reached from a location by following names one after the other. -/
def walk (files : Files) : Location → List String → Except FileError (Location × FileEntry)
  | location, [] =>
    match files.entry? location with
    | none => .error .missing
    | some entry => .ok (location, entry)
  | location, name :: rest =>
    match files.entry? location with
    | none => .error .missing
    | some .directory =>
      if name = "" || name = "." then files.walk location rest
      else if name = ".." then files.walk location.dropLast rest
      else if 255 < name.utf8ByteSize then .error .nameTooLong
      else files.walk (location ++ [name]) rest
    | some _ => .error .notDirectory

/-- Where a path starts: at the root directory or at the working directory. -/
def start (files : Files) (path : String) : Location :=
  if path.startsWith "/" then [] else locationOf files.origin

def resolve (files : Files) (path : String) : Except FileError (Location × FileEntry) :=
  if path.toList.contains '\x00' then .error .nameWithNull
  else if path.isEmpty then .error .missing
  else files.walk (files.start path) (names path)

def isFile (files : Files) (path : String) : Bool :=
  match files.resolve path with
  | .ok (_, .text _) => true
  | .ok (_, .binary) => true
  | _ => false

def read (files : Files) (path : String) : Except FileError String :=
  match files.resolve path with
  | .error reason => .error reason
  | .ok (_, .directory) => .error .isDirectory
  | .ok (_, .binary) => .error .notText
  | .ok (_, .text content) => .ok content

/-- The files after a text is written under the path. The directory above must exist. -/
def write (files : Files) (path content : String) : Except FileError Files :=
  match files.resolve path with
  | .ok (_, .directory) => .error .isDirectory
  | .ok (location, _) => .ok (files.set location (.text content))
  | .error .missing =>
    match (names path).reverse with
    | [] => .error .missing
    | name :: above =>
      if path.isEmpty then .error .missing
      else
        match files.walk (files.start path) above.reverse with
        | .error reason => .error reason
        | .ok (location, .directory) =>
          if name = "" then .error .isDirectory
          else .ok (files.set (location ++ [name]) (.text content))
        | .ok _ => .error .notDirectory
  | .error reason => .error reason

/-- The texts that differ from what stood at their locations before. -/
def changesSince (after before : Files) : List (Location × String) :=
  after.entries.filterMap fun entry =>
    match entry.2 with
    | .text content =>
      if before.entry? entry.1 == some entry.2 then none else some (entry.1, content)
    | _ => none

/-- The paths of what stands on the way to a path, itself included. -/
def stages (path : String) : List String :=
  let steps := names path
  ((List.range steps.length).map fun count => "/".intercalate (steps.take (count + 1))).filter
    (· ≠ "")

/-- The location that a path leads to if everything on the way is a directory. -/
def destination (files : Files) (path : String) : Location :=
  (names path).foldl
    (fun location name =>
      if name = "" || name = "." then location
      else if name = ".." then location.dropLast
      else location ++ [name])
    (files.start path)

/-- The path of a file below a directory. An absolute file stands for itself. -/
def join (directory file : String) : String :=
  if file.startsWith "/" then file
  else if directory.isEmpty || directory.endsWith "/" then directory ++ file
  else directory ++ "/" ++ file

/-- The directory that a search path means: `$ORIGIN` stands for the working directory and `$HOME`
for the home directory. -/
def expand (files : Files) (path : String) : String :=
  let withOrigin := Text.replaceAll "$ORIGIN".toList files.origin.toList path.toList
  String.ofList (Text.replaceAll "$HOME".toList files.home.toList withOrigin)

end Files

end LoopDirectives
