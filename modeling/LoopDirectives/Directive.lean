import LoopDirectives.Document.Axis
import LoopDirectives.Pragma.Text

/-!
# Directives

A directive is a reserved pragma: `marker keyword name name(argument, argument) ...`. Keywords and
clause names are taken in lower case; arguments keep their case. `Directive.parse` reads the text of
a pragma, `Directive.find?` a node of a document.
-/

namespace LoopDirectives

structure Clause where
  name : String
  arguments : List String := []
  deriving DecidableEq

inductive DirectiveError where
  | missingKeyword (text : String)
  /-- A parenthesis has no partner, stands inside another pair, or follows no name. -/
  | unbalanced (text : String)
  deriving DecidableEq

def DirectiveError.message : DirectiveError → String
  | missingKeyword text => "Directive `" ++ text ++ "` has no keyword"
  | unbalanced text => "Unbalanced parentheses in directive `" ++ text ++ "`"

structure Directive where
  keyword : String
  clauses : List Clause := []
  deriving DecidableEq

/-- A directive with the pragma that holds it and the line of that pragma. -/
structure PlacedDirective extends Directive where
  pragma : NodeId
  line : Nat
  deriving DecidableEq

namespace Directive

def endKeyword : String := "end"

def clause? (directive : Directive) (name : String) : Option Clause :=
  directive.clauses.find? fun clause => clause.name == name

def hasClause (directive : Directive) (name : String) : Bool :=
  (directive.clause? name).isSome

def arguments (directive : Directive) (name : String) : List String :=
  ((directive.clause? name).map Clause.arguments).getD []

def argument? (directive : Directive) (name : String) : Option String :=
  (directive.arguments name).head?

def isEnd (directive : Directive) : Bool :=
  directive.keyword == endKeyword

def closes? (directive : Directive) : Option String :=
  if directive.isEnd then directive.clauses.head?.map Clause.name else none

/-! ### Reading -/

/-- The arguments between the parentheses of a clause: the pieces between commas without the white
space at their ends, empty ones left out. -/
def argumentsOf (inner : List Char) : List String :=
  (((Text.pieces ',' inner).map Text.trimBoth).filter fun piece => !piece.isEmpty).map String.ofList

def inName (c : Char) : Bool :=
  !(Text.isBlank c || c = '(' || c = ')')

/-- The clause at the front of a text and what follows it without leading white space. -/
def nextClause? (text : List Char) : Option (Clause × List Char) :=
  match text.takeWhile inName with
  | [] => none
  | letter :: letters =>
    let name := Text.lower (String.ofList (letter :: letters))
    match Text.trimStart (text.dropWhile inName) with
    | '(' :: inner =>
      let between := inner.takeWhile (· ≠ ')')
      match inner.dropWhile (· ≠ ')') with
      | [] => none
      | _ :: rest =>
        if between.contains '(' then none
        else some ({ name, arguments := argumentsOf between }, Text.trimStart rest)
    | rest => some ({ name }, rest)

theorem length_dropWhile_le (p : Char → Bool) (text : List Char) :
    (text.dropWhile p).length ≤ text.length :=
  (List.dropWhile_sublist p).length_le

theorem nextClause?_length_lt {text rest : List Char} {clause : Clause}
    (h : nextClause? text = some (clause, rest)) : rest.length < text.length := by
  unfold nextClause? at h
  split at h
  · cases h
  · next letter letters hname =>
    have hsplit := congrArg List.length (List.takeWhile_append_dropWhile (p := inName) (l := text))
    rw [List.length_append, hname, List.length_cons] at hsplit
    have htrim := length_dropWhile_le Text.isBlank (text.dropWhile inName)
    dsimp only at h
    split at h
    · next inner hinner =>
      rw [Text.trimStart] at hinner
      rw [hinner, List.length_cons] at htrim
      split at h
      · cases h
      · next closing tail hclose =>
        split at h
        · cases h
        · cases h
          have hdrop := length_dropWhile_le (· ≠ ')') inner
          have htail := length_dropWhile_le Text.isBlank tail
          rw [hclose, List.length_cons] at hdrop
          rw [Text.trimStart]
          omega
    · cases h
      rw [Text.trimStart]
      omega

def clauses? (text : List Char) : Option (List Clause) :=
  if text.isEmpty then some []
  else
    match _hnext : nextClause? text with
    | none => none
    | some (clause, rest) => (clauses? rest).map (clause :: ·)
termination_by text.length
decreasing_by exact nextClause?_length_lt _hnext

def splitKeyword (text : List Char) : List Char × List Char :=
  text.span fun c => !(Text.isBlank c || c = '(')

/-- The directive in the text of a pragma; nothing if the pragma is not reserved. -/
def parse (marker text : String) : Except DirectiveError (Option Directive) :=
  let content := Text.trimBoth (Pragma.dropComment text.toList)
  let (word, rest) := content.span fun c => !Text.isBlank c
  if Text.sameLetters (String.ofList word) marker then
    let (keyword, tail) := splitKeyword (Text.trimStart rest)
    if keyword.isEmpty then .error (.missingKeyword (String.ofList content))
    else
      match clauses? (Text.trimStart tail) with
      | none => .error (.unbalanced (String.ofList content))
      | some clauses => .ok (some { keyword := Text.lower (String.ofList keyword), clauses })
  else .ok none

/-- The directive that a node of a document holds; nothing if the node is not a reserved pragma. -/
def find? (marker : String) (doc : Document) (node : NodeId) :
    Except DirectiveError (Option PlacedDirective) :=
  if doc.isKind node .pragma then
    (parse marker (doc.text node)).map fun directive? =>
      directive?.map fun directive =>
        { directive with pragma := node, line := doc.line node }
  else .ok none

end Directive

end LoopDirectives
