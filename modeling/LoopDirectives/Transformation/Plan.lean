import LoopDirectives.Settings
import LoopDirectives.Transformation.BoundsImport
import LoopDirectives.Transformation.Demotion
import LoopDirectives.Transformation.Fusion
import LoopDirectives.Transformation.Interchange
import LoopDirectives.Transformation.Removal
import LoopDirectives.Transformation.Rotation

/-!
# Plans

There are six kinds of transformations, each with its keyword. Analysing a directive reads the
program only; when the directive can be carried out, the analysis yields a plan. Performing a plan
changes the program.
-/

namespace LoopDirectives

inductive Grouping where
  | independent
  | dependent
  deriving DecidableEq

inductive TransformationKind where
  | fusion | interchange | boundsImport | demotion | removal | rotation
  deriving DecidableEq

namespace TransformationKind

/-- All kinds, in the order in which they are carried out. -/
def all : List TransformationKind :=
  [fusion, interchange, boundsImport, demotion, removal, rotation]

def keyword : TransformationKind → String
  | fusion => "loop-fusion"
  | interchange => "loop-interchange"
  | boundsImport => "import-bounds"
  | demotion => Demotion.keyword
  | removal => Removal.keyword
  | rotation => "rotate-operands"

def grouping : TransformationKind → Grouping
  | fusion => .dependent
  | _ => .independent

def ofKeyword? (keyword : String) : Option TransformationKind :=
  all.find? fun kind => kind.keyword == keyword

end TransformationKind

/-- What analysing and performing can see besides the program. -/
structure Context where
  settings : Settings := {}
  /-- The first word of the pragmas that are read as directives. -/
  marker : String := settings.marker
  files : Files

inductive Plan where
  | fusion (plan : Fusion)
  | interchange (plan : Interchange)
  | boundsImport (plan : BoundsImport)
  | demotion (plan : Demotion)
  | removal (plan : Removal)
  | rotation (plan : Rotation)
  deriving DecidableEq

namespace Plan

def kind : Plan → TransformationKind
  | fusion _ => .fusion
  | interchange _ => .interchange
  | boundsImport _ => .boundsImport
  | demotion _ => .demotion
  | removal _ => .removal
  | rotation _ => .rotation

/-- The plan of the kind for a directive, if the directive can be carried out. -/
def analyse (context : Context) (kind : TransformationKind) (doc : Document)
    (directive : PlacedDirective) : Option Plan :=
  match kind with
  | .fusion => (Fusion.plan? doc directive).map fusion
  | .interchange => (Interchange.plan? doc directive).map interchange
  | .boundsImport => (BoundsImport.plan? doc directive).map boundsImport
  | .demotion => (Demotion.plan? context.marker doc directive).map demotion
  | .removal => (Removal.plan? context.marker doc directive).map removal
  | .rotation => (Rotation.plan? doc directive).map rotation

def compatible (doc : Document) : (first second : Plan) → Bool
  | fusion first, fusion second => Fusion.compatible doc first second
  | _, _ => false

/-- The outcome of an edit of the program's document. -/
def onDocument (workspace : Workspace) (edit : Document → Outcome Document) : Outcome Workspace :=
  (edit workspace.program.document).map fun doc =>
    { workspace with program := { workspace.program with document := doc } }

/-- The outcome of an edit of the program's document that changes nothing when it fails. -/
def onDocumentOrNothing (workspace : Workspace)
    (edit : Document → Except TransformError Document) : Outcome Workspace :=
  onDocument workspace fun doc => Outcome.ofExcept doc (edit doc)

/-- Performs a plan by itself. A fusion without a partner has nothing to do. -/
def perform (context : Context) (pragma : NodeId) (workspace : Workspace) :
    Plan → Outcome Workspace
  | fusion _ => { state := workspace }
  | interchange plan => onDocument workspace fun doc => plan.perform doc
  | boundsImport plan => plan.perform context.files workspace
  | demotion plan => onDocument workspace fun doc => plan.perform doc pragma
  | removal plan => onDocumentOrNothing workspace fun doc => .ok (plan.perform doc pragma)
  | rotation plan => onDocumentOrNothing workspace fun doc => plan.perform doc

/-- Performs a plan with a partner. Only fusions make use of the partner; plans of different kinds
have nothing in common. -/
def performWith (context : Context) (pragma : NodeId) (workspace : Workspace) :
    (first second : Plan) → Outcome Workspace
  | fusion first, fusion second =>
    onDocumentOrNothing workspace fun doc =>
      Fusion.perform context.settings.marker doc first second
  | first, second =>
    if first.kind = second.kind then first.perform context pragma workspace
    else { state := workspace, result := .error .differentKinds }

/-- What performing a kind without a plan comes to: nothing is removed, a fusion without a partner
has nothing to do, and everything else needs a plan. -/
def performUnplanned (kind : TransformationKind) (paired : Bool) : Except TransformError Unit :=
  match kind, paired with
  | .removal, _ => .ok ()
  | .fusion, false => .ok ()
  | _, _ => .error (.unplanned kind.keyword)

end Plan

end LoopDirectives
