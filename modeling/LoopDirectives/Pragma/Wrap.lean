import LoopDirectives.Document.Edit
import LoopDirectives.Pragma.Chunks

/-!
# Wrapping pragmas

Every pragma of another tool that is too long for a line becomes a chain of pragmas: the first chunk
stays in its place, each further chunk follows as a pragma of its own that begins with the same
word, and every link but the last is marked as continued.
-/

namespace LoopDirectives.Pragma

def continuation (sentinel : String) (line? : Option String) (chunk : String) (last : Bool) :
    Label :=
  { tag := Kind.pragma.tag
    attributes :=
      (line?.map fun line => ("lineno", line)).toList ++
        if last then [] else [("is_continued", "true")]
    text? := some (sentinel ++ " " ++ chunk) }

def insertLinks (sentinel : String) (line? : Option String) (doc : Document)
    (anchor : NodeId) : List String → Document
  | [] => doc
  | chunk :: rest =>
    let (created, link) := doc.create (continuation sentinel line? chunk rest.isEmpty)
    insertLinks sentinel line? (created.insertAfter anchor link) link rest

/-- The document with the pragma wrapped; nothing if the pragma is reserved or fits. -/
def wrapAt? (columns : Nat) (marker : String) (doc : Document) (pragma : NodeId) :
    Option Document :=
  let sentinel := sentinel (doc.text pragma)
  if sentinel.isEmpty || Text.sameLetters sentinel marker then none
  else
    match chunks columns sentinel (doc.text pragma) with
    | first :: second :: rest =>
      let line? := doc.attribute? pragma "lineno"
      let shortened := (doc.setText pragma first).setAttribute pragma "is_continued" "true"
      some (insertLinks sentinel line? shortened pragma (second :: rest))
    | _ => none

def wrapAt (columns : Nat) (marker : String) (doc : Document) (pragma : NodeId) : Document :=
  (wrapAt? columns marker doc pragma).getD doc

/-- Wraps one pragma and counts it, unless it stays as it is. -/
def wrapNext (columns : Nat) (marker : String) (progress : Document × Nat) (pragma : NodeId) :
    Document × Nat :=
  (wrapAt? columns marker progress.1 pragma).elim progress fun wrapped => (wrapped, progress.2 + 1)

/-- Wraps every pragma below the root and says how many were wrapped. -/
def wrapAll (columns : Nat) (marker : String) (doc : Document) (root : NodeId) :
    Document × Nat :=
  (doc.descendantsOf root .pragma).foldl (wrapNext columns marker) (doc, 0)

def wrap (columns : Nat) (marker : String) (doc : Document) (root : NodeId) : Document :=
  (wrapAll columns marker doc root).1

theorem wrapNext_fst (columns : Nat) (marker : String) (progress : Document × Nat)
    (pragma : NodeId) :
    (wrapNext columns marker progress pragma).1 = wrapAt columns marker progress.1 pragma := by
  unfold wrapNext wrapAt
  cases wrapAt? columns marker progress.1 pragma <;> rfl

theorem foldl_wrapNext_fst (columns : Nat) (marker : String) (progress : Document × Nat)
    (pragmas : List NodeId) :
    (pragmas.foldl (wrapNext columns marker) progress).1 =
      pragmas.foldl (wrapAt columns marker) progress.1 :=
  (List.foldl_hom Prod.fst fun progress pragma =>
    (wrapNext_fst columns marker progress pragma).symm).symm

theorem wrap_eq_foldl (columns : Nat) (marker : String) (doc : Document) (root : NodeId) :
    wrap columns marker doc root =
      (doc.descendantsOf root .pragma).foldl (wrapAt columns marker) doc :=
  foldl_wrapNext_fst ..

end LoopDirectives.Pragma
