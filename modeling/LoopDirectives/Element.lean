import LoopDirectives.Label
import LoopDirectives.Tree

/-!
# Elements

An element is a labelled tree: the content of a document with the identities of its nodes
forgotten. Two parts of documents have the same structure when their elements are equal.
-/

namespace LoopDirectives

abbrev Element := Tree Label

namespace Element

def kind (element : Element) : Kind :=
  element.value.kind

/-- The text of the root, empty when there is none. -/
def text (element : Element) : String :=
  element.value.text

def childOf? (element : Element) (kind : Kind) : Option Element :=
  element.branches.find? fun child => child.value.kind == kind

def path? (element : Element) (kinds : List Kind) : Option Element :=
  kinds.foldlM childOf? element

/-- Whether two elements have the same structure: the same labels at the same places. -/
def sameStructure (left right : Element) : Bool :=
  left.agree (fun leftLabel rightLabel => leftLabel == rightLabel) right

/-- Whether two expressions are the same: the same tags and shape, and the same texts without
regard to case. Attributes such as type identifiers do not count. -/
def sameExpression (left right : Element) : Bool :=
  left.agree (fun leftLabel rightLabel =>
    leftLabel.tag == rightLabel.tag && Text.sameLetters leftLabel.text rightLabel.text) right

end Element

end LoopDirectives
