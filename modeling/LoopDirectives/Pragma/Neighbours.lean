import LoopDirectives.Document.Edit
import LoopDirectives.Pragma.Text

/-!
# Pragmas near a statement

The pragmas beside a loop that a change of the loop makes obsolete, and the pragma before a
statement that mentions a word.
-/

namespace LoopDirectives.Pragma

/-- The text of a pragma up to its first space; empty for any other node. -/
def sentinelOf (doc : Document) (node : NodeId) : String :=
  if doc.isKind node .pragma then sentinel (doc.text node) else ""

/-- Whether the text mentions one of the keywords, in exactly this case. -/
def mentions (keywords : List String) (text : String) : Bool :=
  keywords.any fun keyword => Text.occursIn keyword.toList text.toList

/-- The sibling next to a node, after it or before it. -/
def beside? (doc : Document) (onwards : Bool) (node : NodeId) : Option NodeId :=
  if onwards then doc.nextSibling? node else doc.previousSibling? node

/-- Goes on from pragma to pragma, at most `bound` times, and deletes those that mention a keyword.
A node that is no pragma ends the walk, and so does a reserved pragma, which stays. The next node is
looked up before the pragma is deleted. -/
def sweep (marker : String) (keywords : List String) (onwards : Bool) :
    (bound : Nat) → Option NodeId → Document → Document
  | bound + 1, some pragma, doc =>
    if doc.isKind pragma .pragma && !isReserved marker (doc.text pragma) then
      let next? := beside? doc onwards pragma
      let doomed := mentions keywords (doc.text pragma)
      sweep marker keywords onwards bound next?
        (if doomed then doc.delete pragma else doc)
    else doc
  | _, _, doc => doc

/-- Deletes the pragmas directly beside a loop that mention a keyword: those before it that mention
one of `before`, and then, in what is left, those after it that mention one of `after`. -/
def cleanAround (doc : Document) (marker : String) (loop : NodeId)
    (before after : List String) : Document :=
  if doc.isKind loop .doLoop then
    let swept := sweep marker before false doc.slots.size (beside? doc false loop) doc
    sweep marker after true swept.slots.size (beside? swept true loop) swept
  else doc

/-- Whether the node is a pragma that mentions the keyword, in any case. -/
def isAbout (doc : Document) (keyword : String) (node : NodeId) : Bool :=
  doc.isKind node .pragma &&
    Text.occursIn (Text.lowerChars keyword.toList) (Text.lowerChars (doc.text node).toList)

/-- The nearest pragma before the node that mentions the keyword: among the siblings before it, or
else a node above it, or the siblings before that one, and so on outwards. -/
def previous? (doc : Document) (keyword : String) (node : NodeId) : Option NodeId :=
  let before (anchor : NodeId) := (doc.precedingSiblings anchor).reverse
  (before node ++ (doc.ancestors node).flatMap fun anchor => anchor :: before anchor).find?
    (isAbout doc keyword)

end LoopDirectives.Pragma
