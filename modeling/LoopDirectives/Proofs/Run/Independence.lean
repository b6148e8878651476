import LoopDirectives.Proofs.Library.Reflection
import LoopDirectives.Run

/-!
# Runs with different libraries

Two runs over one program, with the same files but with libraries that hold different modules
already, do the same: they write the same program, and their reports agree in everything but the
wording of the messages (`Run.transform_alike`). What the libraries hold can make a difference to
the names of modules in messages only, as long as both reflect the files.
-/

namespace LoopDirectives

/-- What a message is about, without its wording. -/
def Diagnostic.heading (diagnostic : Diagnostic) : String × Nat × Severity :=
  (diagnostic.file, diagnostic.line, diagnostic.severity)

/-- The reports agree in everything but the wording of their messages. -/
structure Report.Alike (one other : Report) : Prop where
  file : one.file = other.file
  headings : one.diagnostics.map Diagnostic.heading = other.diagnostics.map Diagnostic.heading
  applied : one.applied = other.applied
  dropped : one.dropped = other.dropped

/-- The programs are the same and both libraries reflect the files. -/
structure Workspace.Alike (files : Files) (origin : Library) (one other : Workspace) : Prop where
  program : one.program = other.program
  reflects : Library.Reflects files origin one.library
  reflects_other : Library.Reflects files origin other.library

/-- The edits both succeed or both fail, and leave behind the same program. -/
structure Outcome.Alike (files : Files) (origin : Library) (one other : Outcome Workspace) :
    Prop where
  state : one.state.Alike files origin other.state
  isOk : one.isOk = other.isOk

structure Progress.Alike (files : Files) (origin : Library) (one other : Progress) : Prop where
  workspace : one.workspace.Alike files origin other.workspace
  report : one.report.Alike other.report

/-! ### Reports -/

namespace Report

theorem Alike.refl (report : Report) : report.Alike report :=
  ⟨rfl, rfl, rfl, rfl⟩

variable {one other : Report} (alike : one.Alike other)

include alike

theorem Alike.recordDropped (line : Nat) (severity : Severity) (message otherMessage : String) :
    (one.recordDropped line severity message).Alike
      (other.recordDropped line severity otherMessage) := by
  refine ⟨alike.file, ?_, alike.applied, congrArg (· + 1) alike.dropped⟩
  simp only [Report.recordDropped, add, List.map_append, alike.headings, List.map_singleton,
    Diagnostic.heading, alike.file]

theorem Alike.recordApplied : one.recordApplied.Alike other.recordApplied :=
  ⟨alike.file, alike.headings, congrArg (· + 1) alike.applied, alike.dropped⟩

theorem Alike.hasErrors : one.hasErrors = other.hasErrors := by
  have hany (report : Report) : report.hasErrors =
      (report.diagnostics.map Diagnostic.heading).any fun heading ↦ heading.2.2 == .error := by
    rw [List.any_map]
    rfl
  rw [hany, hany, alike.headings]

end Report

section

variable {context : Context} {origin : Library}

/-! ### Edits -/

section Edits

variable {one other : Workspace} (alike : one.Alike context.files origin other)

include alike

theorem Plan.onDocument_alike (edit : Document → Outcome Document) :
    Outcome.Alike context.files origin (onDocument one edit) (onDocument other edit) := by
  obtain ⟨hprogram, hone, hother⟩ := alike
  refine ⟨⟨?_, hone, hother⟩, ?_⟩
  · simp only [onDocument, Outcome.map, hprogram]
  · simp only [onDocument, Outcome.map, Outcome.isOk, hprogram]

theorem Plan.onDocumentOrNothing_alike (edit : Document → Except TransformError Document) :
    Outcome.Alike context.files origin (onDocumentOrNothing one edit)
      (onDocumentOrNothing other edit) :=
  onDocument_alike alike _

/-- Bounds are imported alike, since a module is the same whether it was loaded before or is read
now, but for its name. -/
theorem BoundsImport.perform_alike (plan : BoundsImport) :
    Outcome.Alike context.files origin (plan.perform context.files one)
      (plan.perform context.files other) := by
  rw [BoundsImport.perform, BoundsImport.perform]
  rcases alike.reflects.load plan.module with
    ⟨_, hload, hread⟩ | ⟨_, _, hload, hlater, hread⟩
  all_goals
    rcases alike.reflects_other.load plan.module with
      ⟨_, hotherLoad, hotherRead⟩ | ⟨_, _, hotherLoad, hotherLater, hotherRead⟩
  · rw [hload, hotherLoad]
    exact ⟨alike, rfl⟩
  · cases hread.symm.trans hotherRead
  · cases hread.symm.trans hotherRead
  · obtain ⟨hstate, hisOk⟩ := BoundsImport.performFrom_congr
      (Except.ok.inj (hread.symm.trans hotherRead)) plan one.program
    rw [hload, hotherLoad, ← alike.program]
    exact ⟨⟨hstate, hlater, hotherLater⟩, hisOk⟩

theorem Plan.perform_alike (pragma : NodeId) (plan : Plan) :
    Outcome.Alike context.files origin (plan.perform context pragma one)
      (plan.perform context pragma other) := by
  cases plan with
  | fusion plan => exact ⟨alike, rfl⟩
  | boundsImport plan => exact BoundsImport.perform_alike alike plan
  | interchange plan => exact onDocument_alike alike fun doc ↦ plan.perform doc
  | demotion plan => exact onDocument_alike alike fun doc ↦ plan.perform doc pragma
  | removal plan =>
    exact onDocumentOrNothing_alike alike fun doc ↦ .ok (plan.perform doc pragma)
  | rotation plan => exact onDocumentOrNothing_alike alike fun doc ↦ plan.perform doc

theorem Plan.performWith_alike (pragma : NodeId) (first second : Plan) :
    Outcome.Alike context.files origin (first.performWith context pragma one second)
      (first.performWith context pragma other second) := by
  unfold performWith
  split
  · exact onDocumentOrNothing_alike alike _
  · split
    · exact Plan.perform_alike alike pragma first
    · exact ⟨alike, rfl⟩

namespace Transformation

theorem dropPragma_alike (transformation : Transformation) :
    (transformation.dropPragma one).Alike context.files origin
      (transformation.dropPragma other) := by
  refine ⟨?_, alike.reflects, alike.reflects_other⟩
  rw [dropPragma, dropPragma, alike.program]

theorem apply_alike (transformation : Transformation) :
    (transformation.apply context one).1 = (transformation.apply context other).1 ∧
      Outcome.Alike context.files origin (transformation.apply context one).2
        (transformation.apply context other).2 := by
  unfold apply
  split
  · exact ⟨rfl, alike, rfl⟩
  · next plan _ =>
    have houtcome := Plan.perform_alike alike transformation.directive.pragma plan
    have hresult := houtcome.isOk
    unfold Outcome.isOk at hresult
    refine ⟨by simp only [Stage.after, hresult], ?_, houtcome.isOk⟩
    dsimp only
    rw [houtcome.isOk]
    split
    · exact dropPragma_alike houtcome.state transformation
    · exact houtcome.state

theorem applyWith_alike (first second : Transformation) :
    (first.applyWith context second one).1 = (first.applyWith context second other).1 ∧
      Outcome.Alike context.files origin (first.applyWith context second one).2
        (first.applyWith context second other).2 := by
  unfold applyWith
  split
  · next firstPlan secondPlan _ _ =>
    have houtcome := Plan.performWith_alike alike first.directive.pragma firstPlan secondPlan
    have hresult := houtcome.isOk
    unfold Outcome.isOk at hresult
    refine ⟨by simp only [Stage.after, hresult], ?_, houtcome.isOk⟩
    dsimp only
    rw [houtcome.isOk]
    split
    · exact dropPragma_alike (dropPragma_alike houtcome.state first) second
    · exact houtcome.state
  · exact ⟨rfl, alike, rfl⟩

end Transformation

end Edits

/-! ### Groups -/

section Groups

variable {one other : Progress} (alike : one.Alike context.files origin other) (keyword : String)

include alike

theorem Progress.Alike.document : one.document = other.document :=
  congrArg SourceUnit.document alike.workspace.program

theorem Progress.Alike.reject (line : Nat) :
    (one.reject keyword line).Alike context.files origin (other.reject keyword line) :=
  ⟨alike.workspace, alike.report.recordDropped line .warning _ _⟩

theorem Progress.Alike.withState {outcome otherOutcome : Outcome Workspace}
    (houtcome : Outcome.Alike context.files origin outcome otherOutcome) :
    Progress.Alike context.files origin { one with workspace := outcome.state }
      { other with workspace := otherOutcome.state } :=
  ⟨houtcome.state, alike.report⟩

omit alike in
theorem Progress.Alike.record {one other : Progress} (alike : one.Alike context.files origin other)
    (line : Nat) {result otherResult : Except TransformError Unit}
    (h : result.toBool = otherResult.toBool) :
    (one.record keyword line result).Alike context.files origin
      (other.record keyword line otherResult) := by
  cases result with
  | error cause =>
    cases otherResult with
    | error otherCause => exact ⟨alike.workspace, alike.report.recordDropped line .error _ _⟩
    | ok _ => cases h
  | ok _ =>
    cases otherResult with
    | error otherCause => cases h
    | ok _ => exact ⟨alike.workspace, alike.report.recordApplied⟩

theorem Progress.Alike.recordAlone (line : Nat) {result otherResult : Except TransformError Unit}
    (h : result.toBool = otherResult.toBool) :
    (one.recordAlone keyword line result).Alike context.files origin
      (other.recordAlone keyword line otherResult) := by
  cases result with
  | error cause =>
    cases otherResult with
    | error otherCause => exact alike.record keyword line h
    | ok _ => cases h
  | ok _ =>
    cases otherResult with
    | error otherCause => cases h
    | ok _ => exact ⟨alike.workspace, alike.report.recordDropped line .info _ _⟩

namespace Group

theorem applyMember_alike (member : Transformation) :
    (applyMember context keyword member one).1 = (applyMember context keyword member other).1 ∧
      (applyMember context keyword member one).2.Alike context.files origin
        (applyMember context keyword member other).2 := by
  unfold applyMember
  dsimp only
  rw [alike.document]
  split
  · split
    · obtain ⟨hdone, houtcome⟩ := Transformation.apply_alike alike.workspace
        (member.analyse context other.document)
      exact ⟨hdone, (alike.withState houtcome).record keyword member.line houtcome.isOk⟩
    · exact ⟨rfl, alike.reject keyword member.line⟩
  · exact ⟨rfl, alike⟩

omit alike in
theorem applyEach_alike {one other : Progress} (alike : one.Alike context.files origin other)
    (members : List Transformation) :
    (applyEach context keyword members one).2.Alike context.files origin
      (applyEach context keyword members other).2 := by
  induction members generalizing one other with
  | nil => exact alike
  | cons member rest ih => exact ih (applyMember_alike alike keyword member).2

omit alike in
theorem analyseEach_alike {one other : Progress} (alike : one.Alike context.files origin other)
    (members : List Transformation) :
    (analyseEach context keyword members one).1 = (analyseEach context keyword members other).1 ∧
      (analyseEach context keyword members one).2.Alike context.files origin
        (analyseEach context keyword members other).2 := by
  induction members generalizing one other with
  | nil => exact ⟨rfl, alike⟩
  | cons member rest ih =>
    unfold analyseEach
    dsimp only
    rw [alike.document]
    split
    · split
      · obtain ⟨hmembers, hprogress⟩ := ih alike
        exact ⟨congrArg (_ :: ·) hmembers, hprogress⟩
      · obtain ⟨hmembers, hprogress⟩ := ih (alike.reject keyword member.line)
        exact ⟨congrArg (_ :: ·) hmembers, hprogress⟩
    · obtain ⟨hmembers, hprogress⟩ := ih alike
      exact ⟨congrArg (_ :: ·) hmembers, hprogress⟩

theorem applyPaired_alike (member : Transformation) (later : List Transformation) :
    (applyPaired context keyword member later one).2.1 =
        (applyPaired context keyword member later other).2.1 ∧
      (applyPaired context keyword member later one).2.2.Alike context.files origin
        (applyPaired context keyword member later other).2.2 := by
  unfold applyPaired
  dsimp only
  rw [alike.document]
  split
  · split
    · next position partner _ =>
      obtain ⟨hdone, houtcome⟩ := Transformation.applyWith_alike alike.workspace member partner
      refine ⟨congrArg (fun done ↦ later.set position done.2) hdone, ?_⟩
      exact ((alike.withState houtcome).record keyword member.line houtcome.isOk).record keyword
        partner.line houtcome.isOk
    · obtain ⟨-, houtcome⟩ := Transformation.apply_alike alike.workspace member
      exact ⟨rfl, (alike.withState houtcome).recordAlone keyword member.line houtcome.isOk⟩
  · exact ⟨rfl, alike⟩

omit alike in
theorem pairEach_alike {one other : Progress} (alike : one.Alike context.files origin other)
    (members : List Transformation) :
    (pairEach context keyword members one).2.Alike context.files origin
      (pairEach context keyword members other).2 := by
  induction members, one using pairEach.induct context keyword generalizing other
  case case1 one =>
    rw [pairEach, pairEach]
    exact alike
  case case2 one member later step _ _ _ ih =>
    obtain ⟨hlater, hnext⟩ := applyPaired_alike alike keyword member later
    rw [pairEach, pairEach, ← hlater]
    exact ih hnext

theorem apply_alike (group : Group) :
    (group.apply context one).2.Alike context.files origin (group.apply context other).2 := by
  unfold apply
  split
  · exact applyEach_alike group.keyword alike group.members
  · obtain ⟨hmembers, hprogress⟩ := analyseEach_alike group.keyword alike group.members
    dsimp only
    rw [hmembers]
    exact pairEach_alike group.keyword hprogress _

end Group

end Groups

namespace Run

theorem applyGroups_alike {one other : Progress} (alike : one.Alike context.files origin other)
    (groups : List Group) :
    (applyGroups context groups one).Alike context.files origin
      (applyGroups context groups other) := by
  induction groups generalizing one other with
  | nil => exact alike
  | cons group rest ih => exact ih (Group.apply_alike alike group)

/-- Two runs over one program, with libraries that both reflect the files, fail alike or write the
same program and report alike. -/
theorem transform_alike {one other : Workspace} (alike : one.Alike context.files origin other) :
    (∃ failure, transform context one = .error failure ∧
      transform context other = .error failure) ∨
    ∃ result otherResult, transform context one = .ok result ∧
      transform context other = .ok otherResult ∧
      result.1.Alike context.files origin otherResult.1 ∧ result.2.Alike otherResult.2 := by
  unfold transform
  dsimp only
  rw [alike.program]
  split
  · exact .inl ⟨_, rfl, rfl⟩
  · have hstart : Progress.Alike context.files origin
        { workspace := one, report := (discover context.marker other.program).2 }
        { workspace := other, report := (discover context.marker other.program).2 } :=
      ⟨alike, .refl _⟩
    have hend := applyGroups_alike hstart (discover context.marker other.program).1
    refine .inr ⟨_, _, rfl, rfl, ⟨?_, hend.workspace.reflects, hend.workspace.reflects_other⟩,
      hend.report⟩
    exact congrArg (wrapPragmas context.settings) hend.workspace.program

end Run

end

end LoopDirectives
