import LoopDirectives.Proofs.Library
import LoopDirectives.Proofs.Loop.Separate
import LoopDirectives.Proofs.Reference
import LoopDirectives.Proofs.Transformation.Perform

/-!
# Transformations leave nothing behind

Whatever a transformation creates hangs in the document in the end, or is gone: when only the root
hangs nowhere before a plan is performed, only the root does so afterwards, whether the plan
succeeds or fails on the way (`Plan.rootedAt_perform`). Deleting and moving never leave anything
behind, so only the copies of demotion, interchange and import need care.
-/

namespace LoopDirectives

open Document List

variable {doc after : Document} {pragma : NodeId} {roots : List NodeId}

/-! ### Removal, rotation and fusion -/

section

variable (forest : doc.Forest) (rooted : doc.RootedAt roots)

include forest rooted

/-- A removal leaves no loose ends. -/
theorem Removal.rootedAt_perform (pragma : NodeId) (removal : Removal) :
    (removal.perform doc pragma).RootedAt roots := by
  cases removal with
  | region closing =>
    exact (forest.deleteAll _).rootedAt_delete ((forest.rootedAt_deleteAll rooted _).weaken closing)
  | single statement => exact forest.rootedAt_delete (rooted.weaken statement)

/-- Nor does a rotation. -/
theorem Rotation.rootedAt_perform {rotation : Rotation}
    (h : rotation.perform doc = .ok after) : after.RootedAt roots := by
  unfold Rotation.perform at h
  split at h
  · cases h
  · next first _ =>
    cases h
    exact forest.rootedAt_append rooted rotation.expression first

theorem Pragma.rootedAt_cleanAround (marker : String) (loop : NodeId) (words : List String) :
    (Pragma.cleanAround doc marker loop words words).Forest ∧
      (Pragma.cleanAround doc marker loop words words).RootedAt roots := by
  obtain ⟨doomed, hclean, -⟩ := Pragma.cleanAround_eq_deleteAll forest marker loop words words
  rw [hclean]
  exact ⟨forest.deleteAll doomed, forest.rootedAt_deleteAll rooted doomed⟩

/-- Nor does a fusion. -/
theorem Fusion.rootedAt_perform {marker : String} {first second : Fusion}
    (h : Fusion.perform marker doc first second = .ok after) : after.RootedAt roots := by
  obtain ⟨body, extra, -, -, rfl⟩ := Fusion.perform_eq_ok h
  obtain ⟨hforest, hrooted⟩ := Pragma.rootedAt_cleanAround (forest.appendAll body _)
    (forest.rootedAt_appendAll rooted body (doc.children extra)) marker second.loop
    Fusion.loopWords
  exact hforest.rootedAt_delete (hrooted.weaken second.loop)

end

/-! ### Demotion -/

theorem Reference.rootedAt_toScalar? (forest : doc.Forest) (rooted : doc.RootedAt roots)
    {reference scalar : NodeId} (hreference : reference ∉ roots)
    (h : Reference.toScalar? doc reference = some (after, scalar)) :
    after.Forest ∧ after.RootedAt roots := by
  obtain ⟨var, hvar, -⟩ := Option.bind_eq_some_iff.mp h
  obtain ⟨part, hpart, -⟩ := Reference.mem_children_of_varOf? hvar
  -- A reference with a variable is alive, and it is no root, so it hangs somewhere.
  obtain ⟨parent, hparent⟩ := rooted.exists_parent? (contains_of_mem_children hpart) hreference
  obtain ⟨found, hfound, substituted⟩ := Reference.substituted_toScalar? forest hvar hparent
  cases h.symm.trans hfound
  exact ⟨substituted.forest,
    substituted.toRecast.rootedAt forest (hung_singleton hparent) rooted⟩

namespace Demotion

variable {demotion : Demotion}

/-- A demotion leaves no loose ends, whether it fails or not. -/
theorem rootedAt_perform (forest : doc.Forest) (rooted : doc.RootedAt roots)
    (hroots : ∀ root ∈ roots, doc.parent? root = none) :
    (demotion.perform doc pragma).state.RootedAt roots := by
  -- A reference is below a sibling of the pragma, so it hangs somewhere.
  have hreferences : ∀ reference ∈ demotion.references doc pragma, reference ∉ roots := by
    intro reference hreference hroot
    obtain ⟨sibling, -, -, habove⟩ := exists_above_of_mem_references forest hreference
    exact not_above_of_parent?_eq_none (hroots reference hroot) habove
  refine (perform_induction (fun later ↦ later.Forest ∧ later.RootedAt roots) ⟨forest, rooted⟩
    (fun hlater hmem h ↦ Reference.rootedAt_toScalar? hlater.1 hlater.2 (hreferences _ hmem) h)
    (fun hlater _ h ↦ ?_) fun hlater ↦
      ⟨hlater.1.delete _, hlater.1.rootedAt_delete (hlater.2.weaken _)⟩).2
  obtain ⟨_, -, h⟩ := exists_of_bind_eq_ok h
  cases h
  exact ⟨hlater.1.deleteAll _, hlater.1.rootedAt_deleteAll hlater.2 _⟩

end Demotion

/-! ### Interchange -/

/-- Assumes: loops within each other. Also an interchange that fails leaves no loose ends. -/
theorem Interchange.rootedAt_perform {interchange : Interchange} (forest : doc.Forest)
    (rooted : doc.RootedAt roots)
    (hnest : interchange.nest.Pairwise (Loop.Nested doc)) :
    (interchange.perform doc).state.RootedAt roots := by
  refine (perform_induction (fun later ↦ later.Forest ∧ later.RootedAt roots ∧
    interchange.nest.Pairwise (Loop.Nested later)) ⟨forest, rooted, hnest⟩ ?_).2.1
  rintro before after left right level current ⟨hforest, hrooted, hpairwise⟩ hne hleft hright h
  have hseparate : Loop.Separate before left right := by
    obtain ⟨hlevel, rfl⟩ := List.getElem?_eq_some_iff.mp hleft
    obtain ⟨hcurrent, rfl⟩ := List.getElem?_eq_some_iff.mp hright
    rcases Nat.lt_or_gt_of_ne hne with hlt | hgt
    · exact ((pairwise_iff_getElem.mp hpairwise _ _ _ _ hlt).separate hforest).symm
    · exact (pairwise_iff_getElem.mp hpairwise _ _ _ _ hgt).separate hforest
  obtain ⟨hforest', hrooted'⟩ := hseparate.rootedAt_exchangeHeaders hforest hrooted h
  exact ⟨hforest', hrooted', Loop.pairwise_nested_exchangeHeaders hforest hpairwise
    (mem_of_getElem? hleft) (mem_of_getElem? hright) h⟩

/-! ### All kinds -/

namespace Plan

variable {context : Context} {workspace : Workspace} {root : NodeId}

theorem rootedAt_onDocumentOrNothing (edit : Document → Except TransformError Document)
    (rooted : workspace.program.document.RootedAt roots)
    (h : ∀ after, edit workspace.program.document = .ok after → after.RootedAt roots) :
    (onDocumentOrNothing workspace edit).state.program.document.RootedAt roots :=
  Outcome.state_ofExcept (Document.RootedAt · roots) rooted h

/-- Whatever plan was just made, performing it leaves no loose ends. -/
theorem rootedAt_perform {kind : TransformationKind} {directive : PlacedDirective} {plan : Plan}
    (h : Plan.analyse context kind workspace.program.document directive = some plan)
    (forest : workspace.program.document.Forest)
    (rooted : workspace.program.document.RootedAt [root])
    (hroot : workspace.program.document.parent? root = none)
    (hlibrary : workspace.library.Readable)
    (htables : kind = .boundsImport → workspace.program.HasTables) :
    (plan.perform context directive.pragma workspace).state.program.document.RootedAt [root] := by
  cases kind with
  | fusion =>
    obtain ⟨plan, -, rfl⟩ := Option.map_eq_some_iff.mp h
    exact rooted
  | interchange =>
    obtain ⟨plan, hplan, rfl⟩ := Option.map_eq_some_iff.mp h
    obtain ⟨outer, depth, -, hnest⟩ := Interchange.nest_of_plan? hplan
    refine Interchange.rootedAt_perform forest rooted ?_
    rw [hnest]
    exact Loop.pairwise_nested_levels forest depth outer
  | boundsImport =>
    obtain ⟨plan, hplan, rfl⟩ := Option.map_eq_some_iff.mp h
    rw [perform, BoundsImport.perform]
    split
    · exact rooted
    · next library unit hload =>
      exact BoundsImport.rootedAt_performFrom ⟨forest, htables rfl, rooted⟩
        (Library.readable_load hlibrary hload).2 (BoundsImport.nextLoop?_of_plan? hplan).2
  | demotion =>
    obtain ⟨plan, -, rfl⟩ := Option.map_eq_some_iff.mp h
    exact Demotion.rootedAt_perform forest rooted (by simpa using hroot)
  | removal =>
    obtain ⟨plan, -, rfl⟩ := Option.map_eq_some_iff.mp h
    refine rootedAt_onDocumentOrNothing _ rooted fun after hafter ↦ ?_
    cases hafter
    exact plan.rootedAt_perform forest rooted directive.pragma
  | rotation =>
    obtain ⟨plan, -, rfl⟩ := Option.map_eq_some_iff.mp h
    exact rootedAt_onDocumentOrNothing _ rooted fun after hafter ↦
      Rotation.rootedAt_perform forest rooted hafter

theorem rootedAt_performWith (forest : workspace.program.document.Forest)
    (rooted : workspace.program.document.RootedAt roots) (one other : Fusion) (pragma : NodeId) :
    ((Plan.fusion one).performWith context pragma workspace
      (.fusion other)).state.program.document.RootedAt roots :=
  rootedAt_onDocumentOrNothing _ rooted fun _ hafter ↦
    Fusion.rootedAt_perform forest rooted hafter

theorem readable_perform (hlibrary : workspace.library.Readable) (pragma : NodeId) (plan : Plan) :
    (plan.perform context pragma workspace).state.library.Readable := by
  cases plan with
  | boundsImport plan =>
    rw [perform, BoundsImport.perform]
    split
    · exact hlibrary
    · next library unit hload => exact (Library.readable_load hlibrary hload).1
  | _ => exact hlibrary

end Plan

end LoopDirectives
