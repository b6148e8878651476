import LoopDirectives.Proofs.Import.Steps
import LoopDirectives.Transformation.Basic

/-!
# Carrying out a transformation keeps to a scope

What holds of the six kinds one by one is put together here: performing the plan of an accepted
transformation, and dropping its pragma afterwards, keeps to every scope that has the pragma and
the targets inside. Loops are the only targets of fusion, interchange and import.
-/

namespace LoopDirectives

open Document Import

variable {scope : Scope} {context : Context} {workspace : Workspace}

/-- The kinds whose targets can be any statement after the pragma. -/
def TransformationKind.takesStatements : TransformationKind → Bool
  | demotion | removal | rotation => true
  | fusion | interchange | boundsImport => false

/-- All possible targets of the kind after the pragma are inside the scope. -/
def Document.Scope.HasTargets (scope : Scope) (doc : Document) (kind : TransformationKind)
    (pragma : NodeId) : Prop :=
  ∀ x ∈ doc.followingSiblings pragma,
    kind.takesStatements = true ∨ doc.isKind x .doLoop = true → scope.inside x

namespace Plan

variable {doc : Document} {directive : PlacedDirective}

theorem extends_onDocument (edit : Document → Outcome Document)
    (h : scope.Steps workspace.program.document (edit workspace.program.document).state) :
    Extends scope workspace.program (onDocument workspace edit).state.program :=
  ⟨⟨rfl, rfl, rfl, rfl, rfl⟩, h⟩

theorem extends_onDocumentOrNothing (edit : Document → Except TransformError Document)
    (h : ∀ after, edit workspace.program.document = .ok after →
      scope.Steps workspace.program.document after) :
    Extends scope workspace.program (onDocumentOrNothing workspace edit).state.program :=
  extends_onDocument _ (Outcome.state_ofExcept (scope.Steps _) .refl h)

theorem kind_of_analyse {kind : TransformationKind} {plan : Plan}
    (h : Plan.analyse context kind doc directive = some plan) : plan.kind = kind := by
  cases kind <;> obtain ⟨plan, -, rfl⟩ := Option.map_eq_some_iff.mp h <;> rfl

theorem nextLoop?_of_analyse {kind : TransformationKind} {fusion : Fusion}
    (h : Plan.analyse context kind doc directive = some (.fusion fusion)) :
    Target.nextLoop? doc directive.pragma = some fusion.loop := by
  rw [← kind_of_analyse h] at h
  obtain ⟨plan, hplan, heq⟩ := Option.map_eq_some_iff.mp h
  cases heq
  exact Fusion.nextLoop?_of_plan? hplan

/-- Assumes: a scope with the targets, and open to the tables for imports. No plan leaves it. -/
theorem extends_perform {kind : TransformationKind} {plan : Plan}
    (h : Plan.analyse context kind workspace.program.document directive = some plan)
    (guards : scope.Guards workspace.program.document)
    (hserves : kind = .boundsImport → Serves scope workspace.program)
    (htargets : scope.HasTargets workspace.program.document kind directive.pragma) :
    Extends scope workspace.program
      (plan.perform context directive.pragma workspace).state.program := by
  have hloop {loop : NodeId}
      (hnext : Target.nextLoop? workspace.program.document directive.pragma = some loop) :
      scope.inside loop :=
    htargets loop (Target.mem_of_nextLoop? hnext) (Or.inr (Target.isKind_of_nextLoop? hnext))
  cases kind with
  | fusion =>
    obtain ⟨plan, -, rfl⟩ := Option.map_eq_some_iff.mp h
    exact .refl scope _
  | interchange =>
    obtain ⟨plan, hplan, rfl⟩ := Option.map_eq_some_iff.mp h
    obtain ⟨outer, depth, houter, hnest⟩ := Interchange.nest_of_plan? hplan
    refine extends_onDocument _ (Interchange.steps_perform guards fun loop hmem ↦ ?_)
    exact Loop.inside_of_mem_levels guards (hloop houter) (hnest ▸ hmem)
  | boundsImport =>
    obtain ⟨plan, hplan, rfl⟩ := Option.map_eq_some_iff.mp h
    exact BoundsImport.extends_perform (hserves rfl)
      (hloop (BoundsImport.nextLoop?_of_plan? hplan).1) context.files
  | demotion =>
    obtain ⟨plan, hplan, rfl⟩ := Option.map_eq_some_iff.mp h
    exact extends_onDocument _ (Demotion.steps_perform guards
      (fun x hx ↦ htargets x hx (Or.inl rfl)) (Demotion.mem_of_plan? hplan))
  | removal =>
    obtain ⟨plan, hplan, rfl⟩ := Option.map_eq_some_iff.mp h
    refine extends_onDocumentOrNothing _ fun after hafter ↦ ?_
    cases hafter
    exact Removal.steps_perform hplan fun x hx ↦ htargets x hx (Or.inl rfl)
  | rotation =>
    obtain ⟨plan, hplan, rfl⟩ := Option.map_eq_some_iff.mp h
    obtain ⟨statement, hstatement, hexpression⟩ := Rotation.mem_of_plan? hplan
    refine extends_onDocumentOrNothing _ fun after hafter ↦ ?_
    exact Rotation.steps_perform guards
      (guards.inside_of_mem_children hexpression (htargets _ hstatement (Or.inl rfl))) hafter

theorem extends_performWith {one other : Fusion} {parent : NodeId} (pragma : NodeId)
    (guards : scope.Guards workspace.program.document)
    (hone : workspace.program.document.parent? one.loop = some parent)
    (hother : workspace.program.document.parent? other.loop = some parent)
    (hin : scope.inside one.loop) (hinOther : scope.inside other.loop)
    (hbefore : ∀ x ∈ Pragma.foreignRun workspace.program.document context.settings.marker
      (workspace.program.document.precedingSiblings other.loop).reverse, scope.inside x)
    (hafter : ∀ x ∈ Pragma.foreignRun workspace.program.document context.settings.marker
      (workspace.program.document.followingSiblings other.loop), scope.inside x) :
    Extends scope workspace.program
      ((Plan.fusion one).performWith context pragma workspace (.fusion other)).state.program :=
  extends_onDocumentOrNothing _ fun _ hafter' ↦
    Fusion.steps_perform guards hone hother hin hinOther hbefore hafter hafter'

end Plan

namespace Transformation

variable {transformation first second : Transformation} {plan firstPlan secondPlan : Plan}
  {doc : Document}

theorem analyse_of_plan? (h : (transformation.analyse context doc).stage.plan? = some plan) :
    Plan.analyse context transformation.kind doc transformation.directive = some plan := by
  unfold analyse at h
  split at h
  · next found hfound =>
    cases h
    exact hfound
  · cases h

theorem directive_analyse (doc : Document) :
    (transformation.analyse context doc).directive = transformation.directive := by
  unfold analyse
  split <;> rfl

theorem apply_of_perform (property : Workspace → Prop)
    (hdrop : ∀ {later}, property later → property (transformation.dropPragma later))
    (hplan : transformation.stage.plan? = some plan)
    (h : property (plan.perform context transformation.directive.pragma workspace).state) :
    property (transformation.apply context workspace).2.state := by
  unfold apply
  simp only [hplan]
  split
  · exact hdrop h
  · exact h

theorem applyWith_of_performWith (property : Workspace → Prop)
    (hdrop : ∀ {later}, property later → property (second.dropPragma (first.dropPragma later)))
    (hfirst : first.stage.plan? = some firstPlan) (hsecond : second.stage.plan? = some secondPlan)
    (h : property
      (firstPlan.performWith context first.directive.pragma workspace secondPlan).state) :
    property (first.applyWith context second workspace).2.state := by
  unfold applyWith
  simp only [hfirst, hsecond]
  split
  · exact hdrop h
  · exact h

theorem extends_dropPragma (hpragma : scope.inside transformation.directive.pragma)
    {before : SourceUnit} (h : Extends scope before workspace.program) :
    Extends scope before (transformation.dropPragma workspace).program :=
  h.trans ⟨⟨rfl, rfl, rfl, rfl, rfl⟩, .single (.delete _ _ hpragma)⟩

theorem fusions_of_canPair (h : first.canPair doc second) :
    ∃ one other, first.stage.plan? = some (.fusion one) ∧
      second.stage.plan? = some (.fusion other) ∧
      Fusion.compatible doc one other := by
  unfold canPair at h
  split at h
  · next firstPlan secondPlan hfirst hsecond =>
    unfold Plan.compatible at h
    split at h
    · next one other => exact ⟨one, other, hfirst, hsecond, h⟩
    · cases h
  · cases h

end Transformation

theorem Fusion.parent?_of_compatible {doc : Document} {first second : Fusion}
    (h : Fusion.compatible doc first second) :
    first.loop ≠ second.loop ∧ ∃ parent, doc.parent? first.loop = some parent ∧
      doc.parent? second.loop = some parent := by
  simp only [Fusion.compatible, Bool.and_eq_true, bne_iff_ne, beq_iff_eq] at h
  obtain ⟨⟨⟨⟨hne, -⟩, hsome⟩, hsame⟩, -⟩ := h
  obtain ⟨parent, hparent⟩ := Option.isSome_iff_exists.mp hsome
  exact ⟨hne, parent, hparent, hsame ▸ hparent⟩

end LoopDirectives
