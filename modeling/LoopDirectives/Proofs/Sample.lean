import LoopDirectives.Transformation.Plan

/-!
# Sample elements

The statements, loops, types and tables that the examples of the other modules are put together
from.
-/

namespace LoopDirectives

/-- The default settings, on a machine without files. -/
def plainContext : Context where
  files := { origin := "", home := "" }

namespace Element

def branch (tag : String) (parts : List Element) : Element :=
  .node { tag } parts

def leaf (tag text : String) : Element :=
  .node { tag, text? := some text } []

def marked (tag : String) (attributes : List (String × String)) (parts : List Element) : Element :=
  .node { tag, attributes } parts

def typed (tag type text : String) : Element :=
  .node { tag, attributes := [("type", type)], text? := some text } []

def pragma (text : String) : Element :=
  leaf "FpragmaStatement" text

def var (name : String) : Element :=
  leaf "Var" name

def int (value : String) : Element :=
  leaf "FintConstant" value

def range (lower upper : Element) : Element :=
  branch "indexRange" [branch "lowerBound" [lower], branch "upperBound" [upper]]

/-- A loop over the variable from `1` to `9`. -/
def loop (name : String) (statements : List Element) : Element :=
  branch "FdoStatement" [var name, range (int "1") (int "9"), branch "body" statements]

def arrayRef (array : String) (indices : List Element) : Element :=
  branch "FarrayRef" (branch "varRef" [var array] :: indices)

def basicType (id reference : String) (parts : List Element) : Element :=
  marked "FbasicType" [("type", id), ("ref", reference)] parts

def symbol (name type : String) : Element :=
  marked "id" [("type", type)] [leaf "name" name]

def declaration (name type : String) : Element :=
  branch "varDecl" [typed "name" type name]

def program (types statements : List Element) : Element :=
  branch "XcodeProgram" [branch "typeTable" types, branch "globalSymbols" [],
    branch "globalDeclarations" [branch "body" statements]]

def moduleFile (types symbols declarations : List Element) : Element :=
  branch "OmniFortranModule" [branch "typeTable" types, branch "identifiers" symbols,
    branch "declarations" declarations]

end Element

end LoopDirectives
