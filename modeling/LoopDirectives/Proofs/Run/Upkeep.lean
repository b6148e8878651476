import LoopDirectives.Proofs.Library
import LoopDirectives.Proofs.Run.Turns
import LoopDirectives.Proofs.Transformation.Upkeep

/-!
# Runs keep to a policy

Whatever a policy asks of a program, and of the modules that are loaded or that the directives of
the program can have loaded (`Run.CanLoad`), holds of the program all along a run
(`Run.kept_applyGroups`).
-/

namespace LoopDirectives

open Document Import

variable {policy : Policy} {origin doc : Document} {context : Context} {program : SourceUnit}
  {library : Library} {workspace : Workspace} {kind : TransformationKind}
  {directive : PlacedDirective}

/-- A unit that a run on a program can load: the one that the library reads for the module of a
directive that imports bounds. -/
def Run.CanLoad (context : Context) (program : SourceUnit) (library : Library)
    (unit : SourceUnit) : Prop :=
  ∃ directive name, (directive, .boundsImport) ∈ requests context.marker program ∧
    directive.argument? "module" = some name ∧ library.readModule context.files name = .ok unit

theorem Run.CanLoad.exists_read {unit : SourceUnit} (h : CanLoad context program library unit) :
    ∃ path text name, context.files.read path = .ok text ∧
      SourceUnit.read (.module name) text = .ok unit := by
  obtain ⟨_, name, -, -, hmodule⟩ := h
  obtain ⟨path, text, hpath, hread⟩ := Library.exists_read_of_readModule hmodule
  exact ⟨path, text, name, hpath, hread⟩

theorem Plan.module_of_analyse {plan : BoundsImport}
    (h : analyse context kind doc directive = some (.boundsImport plan)) :
    kind = .boundsImport ∧ directive.argument? "module" = some plan.module := by
  have hkind : TransformationKind.boundsImport = kind := kind_of_analyse h
  subst hkind
  obtain ⟨_, hplan, heq⟩ := Option.map_eq_some_iff.mp h
  cases heq
  obtain ⟨name, hname, hplan⟩ := Option.bind_eq_some_iff.mp hplan
  refine ⟨rfl, hname.trans ?_⟩
  simp only [Option.bind_eq_bind, Option.bind_eq_some_iff, Option.pure_def] at hplan
  obtain ⟨_, -, _, -, _, -, hplan⟩ := hplan
  cases hplan
  rfl

/-- The program is as the policy asks, and so is everything in the modules. Further modules are
read as by the library that was there first. -/
structure Policy.Kept (policy : Policy) (origin : Document) (library : Library)
    (workspace : Workspace) : Prop where
  program : Tended policy origin workspace.program
  modules : ∀ entry ∈ workspace.library.modules, policy.Supplies entry.2.document
  readModule : workspace.library.readModule = library.readModule

namespace Policy.Kept

variable (kept : policy.Kept origin library workspace)

include kept

theorem withDocument (h : policy.Upholds origin workspace.program.document doc) :
    policy.Kept origin library
      { workspace with program := { workspace.program with document := doc } } :=
  ⟨⟨h.tidy, fun table htable ↦ h.roomy table (kept.program.tables table htable)⟩, kept.modules,
    kept.readModule⟩

theorem onDocumentOrNothing {edit : Document → Except TransformError Document}
    (h : ∀ after, edit workspace.program.document = .ok after →
      policy.Upholds origin workspace.program.document after) :
    policy.Kept origin library (Plan.onDocumentOrNothing workspace edit).state :=
  kept.withDocument (Outcome.state_ofExcept (policy.Upholds origin _)
    kept.program.tidy.refl.toUpholds h)

theorem importBounds {plan : BoundsImport} (h : ∀ {unit},
      library.readModule context.files plan.module = .ok unit → policy.Supplies unit.document) :
    policy.Kept origin library (plan.perform context.files workspace).state := by
  unfold BoundsImport.perform
  split
  · exact kept
  · next later unit hload =>
    obtain ⟨hmodules, hunit, hread⟩ := Library.forall_load
      (fun unit ↦ policy.Supplies unit.document) kept.modules
      (fun hmodule ↦ h (kept.readModule ▸ hmodule)) hload
    exact ⟨(BoundsImport.tends_performFrom kept.program hunit plan).tended kept.program, hmodules,
      hread.trans kept.readModule⟩

/-- Performing a plan keeps to a policy if what the plan can load does. -/
theorem perform
    (hfiles : ∀ unit, Run.CanLoad context program library unit → policy.Supplies unit.document)
    (hrequest : (directive, kind) ∈ Run.requests context.marker program) {plan : Plan}
    (hplan : Plan.analyse context kind doc directive = some plan) (pragma : NodeId) :
    policy.Kept origin library (plan.perform context pragma workspace).state := by
  have tidy := kept.program.tidy
  cases plan with
  | fusion plan => exact kept
  | interchange plan => exact kept.withDocument (Interchange.careful_perform tidy plan).toUpholds
  | boundsImport plan =>
    obtain ⟨rfl, hname⟩ := Plan.module_of_analyse hplan
    exact kept.importBounds fun hmodule ↦ hfiles _ ⟨_, _, hrequest, hname, hmodule⟩
  | demotion plan => exact kept.withDocument (Demotion.careful_perform tidy plan pragma).toUpholds
  | removal plan =>
    refine kept.onDocumentOrNothing fun after hafter ↦ ?_
    cases hafter
    exact (Removal.careful_perform tidy plan pragma).toUpholds
  | rotation plan =>
    exact kept.onDocumentOrNothing fun after hafter ↦ Rotation.upholds_perform tidy hafter

end Policy.Kept

namespace Run

section

variable
  (hfiles : ∀ unit, CanLoad context program library unit → policy.Supplies unit.document)

include hfiles

/-- Every kind keeps to a policy, if what the run can load does. -/
theorem keeps_policy (kind : TransformationKind) :
    Group.Keeps context (fun directive ↦ (directive, kind) ∈ requests context.marker program)
      (fun _ ↦ True) kind (policy.Kept origin library) where
  dropPragma transformation _ _ kept :=
    kept.withDocument
      (kept.program.tidy.careful_delete transformation.directive.pragma).toUpholds
  perform kept hrequest hplan := kept.perform hfiles hrequest hplan _
  inside_loop _ _ _ := trivial
  performWith _ _ kept _ _ hcompatible :=
    kept.onDocumentOrNothing fun _ hafter ↦
      Fusion.upholds_perform kept.program.tidy hcompatible hafter

/-- All along the groups of a program, what a policy asks is kept. It has to hold at first, and of
every unit that the run can load. -/
theorem kept_applyGroups {progress : Progress}
    (kept : policy.Kept origin library progress.workspace) :
    policy.Kept origin library
      (applyGroups context (discover context.marker program).1 progress).workspace := by
  obtain ⟨_, hadvances, -⟩ := advances_applyGroups (fun kind _ ↦ keeps_policy hfiles kind)
    (forall₂_discover context.marker program) kept
  exact hadvances.passes.last

end

end Run

end LoopDirectives
