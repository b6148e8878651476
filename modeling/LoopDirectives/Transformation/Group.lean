import LoopDirectives.Report
import LoopDirectives.Transformation.Basic

/-!
# Groups of transformations

All directives of one keyword, in the order of the document. An independent group carries out its
members one by one. A dependent group first analyses all of them and then pairs each, in order, with
the first later one that is compatible at that moment; a member without a partner only loses its
pragma. A member whose pragma is gone by its turn is passed over.
-/

namespace LoopDirectives

structure Group where
  keyword : String
  grouping : Grouping
  members : List Transformation := []

/-- What carrying out transformations has led to so far. -/
structure Progress where
  workspace : Workspace
  report : Report

namespace Progress

def document (progress : Progress) : Document :=
  progress.workspace.program.document

def reject (keyword : String) (line : Nat) (progress : Progress) : Progress :=
  { progress with
    report := progress.report.recordDropped line .warning
      ("`" ++ keyword ++ "` directive rejected by analysis") }

def record (keyword : String) (line : Nat) (result : Except TransformError Unit)
    (progress : Progress) : Progress :=
  match result with
  | .ok () => { progress with report := progress.report.recordApplied }
  | .error cause =>
    { progress with
      report := progress.report.recordDropped line .error
        ("`" ++ keyword ++ "` directive failed: " ++ cause.message) }

/-- Records that a directive found no partner, or that it failed all the same. -/
def recordAlone (keyword : String) (line : Nat) (result : Except TransformError Unit)
    (progress : Progress) : Progress :=
  match result with
  | .ok () =>
    { progress with
      report := progress.report.recordDropped line .info
        ("`" ++ keyword ++ "` directive has no compatible partner") }
  | .error _ => progress.record keyword line result

end Progress

namespace Group

/-! ### Independent groups -/

def applyMember (context : Context) (keyword : String) (member : Transformation)
    (progress : Progress) : Transformation × Progress :=
  if member.isLive progress.document then
    let analysed := member.analyse context progress.document
    if analysed.isAccepted then
      let (done, outcome) := analysed.apply context progress.workspace
      (done, { progress with workspace := outcome.state }.record keyword member.line outcome.result)
    else (analysed, progress.reject keyword member.line)
  else (member, progress)

def applyEach (context : Context) (keyword : String) :
    List Transformation → Progress → List Transformation × Progress
  | [], progress => ([], progress)
  | member :: rest, progress =>
    let (done, next) := applyMember context keyword member progress
    let (others, final) := applyEach context keyword rest next
    (done :: others, final)

/-! ### Dependent groups -/

def analyseEach (context : Context) (keyword : String) :
    List Transformation → Progress → List Transformation × Progress
  | [], progress => ([], progress)
  | member :: rest, progress =>
    if member.isLive progress.document then
      let analysed := member.analyse context progress.document
      let next := if analysed.isAccepted then progress else progress.reject keyword member.line
      let (others, final) := analyseEach context keyword rest next
      (analysed :: others, final)
    else
      let (others, final) := analyseEach context keyword rest progress
      (member :: others, final)

/-- The position of the first of the later members that can be paired with the member now. -/
def partner? (doc : Document) (member : Transformation) (later : List Transformation) :
    Option Nat :=
  later.findIdx? fun other => other.isLive doc && member.canPair doc other

/-- Carries out a member with a partner among the later ones, or by itself, and returns the later
members as they are then. -/
def applyPaired (context : Context) (keyword : String) (member : Transformation)
    (later : List Transformation) (progress : Progress) :
    Transformation × List Transformation × Progress :=
  if member.isAccepted && member.isLive progress.document then
    let found? := (partner? progress.document member later).bind fun position =>
      later[position]?.map fun partner => (position, partner)
    match found? with
    | some (position, partner) =>
      let ((done, donePartner), outcome) := member.applyWith context partner progress.workspace
      let next := { progress with workspace := outcome.state }
      (done, later.set position donePartner,
        (next.record keyword member.line outcome.result).record keyword partner.line outcome.result)
    | none =>
      let (done, outcome) := member.apply context progress.workspace
      (done, later,
        { progress with workspace := outcome.state }.recordAlone keyword member.line outcome.result)
  else (member, later, progress)

theorem length_applyPaired_later (context : Context) (keyword : String) (member : Transformation)
    (later : List Transformation) (progress : Progress) :
    (applyPaired context keyword member later progress).2.1.length = later.length := by
  unfold applyPaired
  split
  · dsimp only
    split
    · simp
    · rfl
  · rfl

def pairEach (context : Context) (keyword : String) (members : List Transformation)
    (progress : Progress) : List Transformation × Progress :=
  match members with
  | [] => ([], progress)
  | member :: later =>
    let step := applyPaired context keyword member later progress
    let (others, final) := pairEach context keyword step.2.1 step.2.2
    (step.1 :: others, final)
termination_by members.length
decreasing_by
  rw [length_applyPaired_later, List.length_cons]
  exact Nat.lt_succ_self _

def apply (context : Context) (group : Group) (progress : Progress) : Group × Progress :=
  match group.grouping with
  | .independent =>
    let (members, final) := applyEach context group.keyword group.members progress
    ({ group with members }, final)
  | .dependent =>
    let (analysed, next) := analyseEach context group.keyword group.members progress
    let (members, final) := pairEach context group.keyword analysed next
    ({ group with members }, final)

end Group

end LoopDirectives
