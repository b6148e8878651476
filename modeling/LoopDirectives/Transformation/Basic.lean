import LoopDirectives.Transformation.Plan

/-!
# Transformations

A transformation is one directive with the kind that it asks for and the stage it has reached. It
can be carried out once its analysis accepted it; when it succeeds, its pragma goes away.
-/

namespace LoopDirectives

inductive Stage where
  | new
  | accepted (plan : Plan)
  | rejected
  | applied
  | failed
  deriving DecidableEq

def Stage.plan? : Stage → Option Plan
  | accepted plan => some plan
  | _ => none

def Stage.after (result : Except TransformError Unit) : Stage :=
  if result.toBool then applied else failed

structure Transformation where
  directive : PlacedDirective
  kind : TransformationKind
  stage : Stage := .new
  deriving DecidableEq

namespace Transformation

def line (transformation : Transformation) : Nat :=
  transformation.directive.line

/-- Whether the pragma of the directive still hangs in the document. -/
def isLive (transformation : Transformation) (doc : Document) : Bool :=
  (doc.parent? transformation.directive.pragma).isSome

def isAccepted (transformation : Transformation) : Bool :=
  transformation.stage.plan?.isSome

def analyse (context : Context) (doc : Document) (transformation : Transformation) :
    Transformation :=
  match Plan.analyse context transformation.kind doc transformation.directive with
  | some plan => { transformation with stage := .accepted plan }
  | none => { transformation with stage := .rejected }

/-- Whether both transformations are accepted and can be carried out as one edit. -/
def canPair (doc : Document) (first second : Transformation) : Bool :=
  match first.stage.plan?, second.stage.plan? with
  | some firstPlan, some secondPlan => Plan.compatible doc firstPlan secondPlan
  | _, _ => false

def dropPragma (transformation : Transformation) (workspace : Workspace) : Workspace :=
  { workspace with
    program := { workspace.program with
      document := workspace.program.document.delete transformation.directive.pragma } }

def refuse (transformation : Transformation) (workspace : Workspace) : Outcome Workspace :=
  { state := workspace, result := .error (.notAccepted transformation.directive.keyword) }

def apply (context : Context) (transformation : Transformation) (workspace : Workspace) :
    Transformation × Outcome Workspace :=
  match transformation.stage.plan? with
  | none => (transformation, transformation.refuse workspace)
  | some plan =>
    let outcome := plan.perform context transformation.directive.pragma workspace
    let state := if outcome.isOk then transformation.dropPragma outcome.state else outcome.state
    ({ transformation with stage := Stage.after outcome.result }, { outcome with state })

/-- Carries out two transformations as one edit. Both pragmas go away when it succeeds. -/
def applyWith (context : Context) (first second : Transformation) (workspace : Workspace) :
    (Transformation × Transformation) × Outcome Workspace :=
  match first.stage.plan?, second.stage.plan? with
  | some firstPlan, some secondPlan =>
    let outcome := firstPlan.performWith context first.directive.pragma workspace secondPlan
    let state :=
      if outcome.isOk then second.dropPragma (first.dropPragma outcome.state) else outcome.state
    let stage := Stage.after outcome.result
    (({ first with stage }, { second with stage }), { outcome with state })
  | _, _ => ((first, second), first.refuse workspace)

end Transformation

end LoopDirectives
