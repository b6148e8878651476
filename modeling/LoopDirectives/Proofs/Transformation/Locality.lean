import LoopDirectives.Proofs.Pragma.Reserved
import LoopDirectives.Proofs.Sample
import LoopDirectives.Proofs.Transformation.Perform

/-!
# Locality of transformations

The region of a pragma is the pragma with the siblings after it and everything below them. An
accepted transformation, whether it succeeds or fails, leaves the rest of the document as it is,
but for the siblings after the pragma that its parent loses or gets, and for the new nodes that
importing bounds puts at the end of the tables.
-/

namespace LoopDirectives

open Document Import List

namespace Document

variable {before after doc : Document} {pragma parent x : NodeId} {ledgers : List NodeId}

/-- The pragma and the siblings after it, with everything below them. -/
def region (doc : Document) (pragma : NodeId) : List NodeId :=
  (pragma :: doc.followingSiblings pragma).flatMap doc.subtree

/-- The second document differs from the first in the region of the pragma only, but for the
children of the parent from the pragma on, and for new nodes at the end of the ledgers. -/
structure ChangedOnlyFrom (before after : Document) (pragma parent : NodeId)
    (ledgers : List NodeId) : Prop where
  contains : ∀ x, before.contains x = true → x ∉ before.region pragma → after.contains x = true
  label : ∀ x, before.contains x = true → x ∉ before.region pragma →
    after.label x = before.label x
  parent? : ∀ x, before.contains x = true → x ∉ before.region pragma →
    after.parent? x = before.parent? x
  children : ∀ x, before.contains x = true → x ∉ before.region pragma → x ≠ parent →
    x ∉ ledgers → after.children x = before.children x
  preceding : before.precedingSiblings pragma <+: after.children parent
  ledger : ∀ x ∈ ledgers, before.contains x = true → x ∉ before.region pragma → x ≠ parent →
    ∃ added, after.children x = before.children x ++ added ∧
      ∀ y ∈ added, before.contains y = false

def regionScope (doc : Document) (pragma parent : NodeId) (ledgers : List NodeId) : Scope :=
  Scope.below doc (pragma :: doc.followingSiblings pragma) [parent] ledgers

theorem inside_regionScope_iff (hlive : doc.contains x) :
    (doc.regionScope pragma parent ledgers).inside x ↔ x ∈ doc.region pragma := by
  rw [regionScope, Scope.inside_below_iff _ _ _ _ hlive, region, mem_flatMap]

section Region

variable (forest : doc.Forest) (hparent : doc.parent? pragma = some parent)

include forest hparent

theorem guards_regionScope : (doc.regionScope pragma parent ledgers).Guards doc := by
  refine Scope.guards_below forest ledgers fun root hroot upper hupper ↦ ?_
  rw [forest.parent?_of_mem_siblings hparent (mem_append_right _ hroot),
    Option.some.injEq] at hupper
  simp [hupper]

omit hparent in
theorem inside_regionScope (hx : x ∈ pragma :: doc.followingSiblings pragma) :
    (doc.regionScope pragma parent ledgers).inside x := by
  exact Or.inr (mem_flatMap.mpr ⟨x, hx, forest.self_mem_subtree x⟩)

theorem parent_not_mem_region : parent ∉ doc.region pragma := by
  intro hmem
  obtain ⟨root, hroot, hmem⟩ := mem_flatMap.mp hmem
  exact forest.not_mem_subtree_of_parent?
    (forest.parent?_of_mem_siblings hparent (mem_append_right _ hroot)) hmem

theorem preceding_not_mem_region (hx : x ∈ doc.precedingSiblings pragma) :
    x ∉ doc.region pragma := by
  intro hmem
  obtain ⟨root, hroot, hmem⟩ := mem_flatMap.mp hmem
  have hnodup := forest.nodup_children parent
  rw [forest.children_eq_siblings hparent, nodup_append] at hnodup
  exact (forest.apart_of_parent? (forest.parent?_of_mem_siblings hparent (mem_append_left _ hx))
    (forest.parent?_of_mem_siblings hparent (mem_append_right _ hroot))
    (hnodup.2.2 x hx root hroot)).1 hmem

/-- Steps within the region of a pragma change nothing else. -/
theorem changedOnlyFrom_of_steps
    (steps : (doc.regionScope pragma parent ledgers).Steps doc after) :
    ChangedOnlyFrom doc after pragma parent ledgers := by
  have guards : (doc.regionScope pragma parent ledgers).Guards doc :=
    guards_regionScope forest hparent
  obtain ⟨hafter, hspares⟩ := Scope.Steps.guards_and_spares guards steps
  have hout {y : NodeId} (hlive : doc.contains y) (hy : y ∉ doc.region pragma) :
      ¬ (doc.regionScope pragma parent ledgers).inside y :=
    mt (inside_regionScope_iff hlive).mp hy
  have hchildOut {y child : NodeId} (hy : y ∉ doc.region pragma) (hne : y ≠ parent)
      (hlive : doc.contains y) (hchild : child ∈ doc.children y) :
      ¬ (doc.regionScope pragma parent ledgers).inside child := by
    intro hinside
    rcases guards.above (forest.parent?_of_mem hchild) hinside with hup | hholder | ⟨-, hnew⟩
    · exact hout hlive hy hup
    · exact hne (mem_singleton.mp hholder)
    · exact Nat.not_lt.mpr hnew (index_lt_size (forest.contains_child hchild))
  refine ⟨fun y hlive hy ↦ hspares.contains y hlive (hout hlive hy),
    fun y hlive hy ↦ hspares.label y hlive (hout hlive hy),
    fun y hlive hy ↦ hspares.parent? y hlive (hout hlive hy),
    fun y hlive hy hne hledger ↦ ?_, ?_, fun y _ hlive hy hne ↦ ?_⟩
  · exact hspares.children_eq guards hafter hlive (hout hlive hy)
      (fun hholder ↦ hne (mem_singleton.mp hholder)) hledger
  · have hlive := forest.contains_parent hparent
    have hbefore : ∀ y ∈ doc.precedingSiblings pragma,
        ¬ (doc.regionScope pragma parent ledgers).inside y := by
      intro y hy
      have hyParent := forest.parent?_of_mem_siblings hparent (mem_append_left _ hy)
      exact hout (contains_of_parent? hyParent) (preceding_not_mem_region forest hparent hy)
    obtain ⟨-, rest, hrest, -⟩ := hspares.children parent hlive
      (hout hlive (parent_not_mem_region forest hparent)) (doc.precedingSiblings pragma)
      ⟨hbefore, _, forest.children_eq_siblings hparent, fun y hy ↦ inside_regionScope forest hy⟩
    exact ⟨rest, hrest.symm⟩
  · obtain ⟨-, added, hadded, hinside⟩ := hspares.children y hlive (hout hlive hy)
      (doc.children y) ⟨fun child hchild ↦ hchildOut hy hne hlive hchild, [], by simp, by simp⟩
    refine ⟨added, hadded, fun child hchild ↦ ?_⟩
    have hmem : child ∈ after.children y := hadded ▸ mem_append_right _ hchild
    rcases hafter.above (hafter.forest.parent?_of_mem hmem) (hinside child hchild) with
      hup | hholder | ⟨-, hnew⟩
    · exact absurd hup (hout hlive hy)
    · exact absurd (mem_singleton.mp hholder) hne
    · exact contains_eq_false_of_size_le hnew

end Region

theorem Forest.siblings_of_following (forest : doc.Forest)
    (hparent : doc.parent? pragma = some parent) {first rest : List NodeId}
    (h : doc.followingSiblings pragma = first ++ x :: rest) :
    doc.parent? x = some parent ∧
      doc.precedingSiblings x = doc.precedingSiblings pragma ++ pragma :: first ∧
      doc.followingSiblings x = rest := by
  have hchildren : doc.children parent =
      (doc.precedingSiblings pragma ++ pragma :: first) ++ x :: rest := by
    rw [forest.children_eq_siblings hparent, h]
    simp
  have hx : doc.parent? x = some parent :=
    forest.parent?_of_mem (hchildren ▸ mem_append_right _ (mem_cons_self ..))
  exact ⟨hx, forest.siblings_of_children_eq hx hchildren⟩

theorem Forest.followingSiblings_subset (forest : doc.Forest)
    (hx : x ∈ doc.followingSiblings pragma) :
    ∀ y ∈ doc.followingSiblings x, y ∈ doc.followingSiblings pragma := by
  obtain ⟨parent, hparent, -⟩ := forest.exists_parent?_of_mem_siblings (Or.inr hx)
  obtain ⟨first, rest, hsplit⟩ := append_of_mem hx
  intro y hy
  rw [(forest.siblings_of_following hparent hsplit).2.2] at hy
  rw [hsplit]
  exact mem_append_right _ (mem_cons_of_mem _ hy)

end Document

/-! ### The pragmas beside fused loops -/

namespace Fusion

variable {doc : Document} {pragma later firstLoop secondLoop parent x : NodeId}

theorem mem_of_mem_foreignRun_reverse {marker : String} {before between : List NodeId}
    {stop : NodeId}
    (hstop : doc.isKind stop .pragma = false ∨
      Pragma.isReserved marker (doc.text stop))
    (h : x ∈ Pragma.foreignRun doc marker (before ++ stop :: between).reverse) :
    x ∈ between := by
  have htest : (doc.isKind stop .pragma && !Pragma.isReserved marker (doc.text stop)) =
      false := by
    rcases hstop with hkind | hreserved
    · rw [hkind, Bool.false_and]
    · rw [hreserved, Bool.not_true, Bool.and_false]
  unfold Pragma.foreignRun at h
  rw [reverse_append, reverse_cons, append_assoc, takeWhile_append] at h
  split at h
  · simp [htest] at h
    exact h
  · exact mem_reverse.mp (takeWhile_subset _ h)

section Between

variable {marker : String} (forest : doc.Forest)
  (hparent : doc.parent? pragma = some parent)
  (hfirst : Target.nextLoop? doc pragma = some firstLoop)

include forest hparent hfirst

theorem mem_following_of_mem_run_second (hlater : later ∈ doc.followingSiblings pragma)
    (hsecond : Target.nextLoop? doc later = some secondLoop) (hne : firstLoop ≠ secondLoop)
    (hx : x ∈ Pragma.foreignRun doc marker (doc.precedingSiblings secondLoop).reverse) :
    x ∈ doc.followingSiblings pragma := by
  have hsecondMem := forest.followingSiblings_subset hlater _ (Target.mem_of_nextLoop? hsecond)
  have hkind := Target.isKind_of_nextLoop? hsecond
  obtain ⟨hnotPragma, pragmas, rest, hsplit, hall⟩ :=
    find?_eq_some_iff_append.mp (Option.filter_eq_some_iff.mp hfirst).1
  -- The second loop is no pragma, so it stands after the first one.
  have hrest : secondLoop ∈ rest := by
    rw [hsplit] at hsecondMem
    rcases mem_append.mp hsecondMem with hmem | hmem
    · have hpragma : doc.isKind secondLoop .pragma := by simpa using hall _ hmem
      rw [isKind, beq_iff_eq] at hkind hpragma
      rw [hkind] at hpragma
      cases hpragma
    · exact (mem_cons.mp hmem).resolve_left hne.symm
  obtain ⟨between, others, hothers⟩ := append_of_mem hrest
  have hsplit' : doc.followingSiblings pragma =
      (pragmas ++ firstLoop :: between) ++ secondLoop :: others := by
    rw [hsplit, hothers]
    simp
  obtain ⟨-, hpreceding, -⟩ := forest.siblings_of_following hparent hsplit'
  have hstop : doc.precedingSiblings secondLoop =
      (doc.precedingSiblings pragma ++ pragma :: pragmas) ++ firstLoop :: between := by
    rw [hpreceding]
    simp
  rw [hstop] at hx
  have hbetween := mem_of_mem_foreignRun_reverse (Or.inl (by simpa using hnotPragma)) hx
  rw [hsplit']
  exact mem_append_left _ (mem_append_right _ (mem_cons_of_mem _ hbetween))

theorem mem_following_of_mem_run_first
    (hreserved : Pragma.isReserved marker (doc.text pragma))
    (hx : x ∈ Pragma.foreignRun doc marker (doc.precedingSiblings firstLoop).reverse) :
    x ∈ doc.followingSiblings pragma := by
  obtain ⟨first, rest, hsplit⟩ := append_of_mem (Target.mem_of_nextLoop? hfirst)
  rw [(forest.siblings_of_following hparent hsplit).2.1] at hx
  rw [hsplit]
  exact mem_append_left _ (mem_of_mem_foreignRun_reverse (Or.inr hreserved) hx)

end Between

end Fusion

/-! ### Accepted transformations -/

namespace Transformation

def documentAfter (context : Context) (transformation : Transformation) (workspace : Workspace) :
    Document :=
  ((transformation.analyse context workspace.program.document).apply context
    workspace).2.state.program.document

/-- The document after two transformations are analysed and at once carried out as one. -/
def documentAfterBoth (context : Context) (first second : Transformation)
    (workspace : Workspace) : Document :=
  ((first.analyse context workspace.program.document).applyWith context
    (second.analyse context workspace.program.document) workspace).2.state.program.document

/-- The nodes outside its region that a transformation may append new nodes to. -/
def ledgers (transformation : Transformation) (unit : SourceUnit) : List NodeId :=
  if transformation.kind = .boundsImport then unit.tableNodes else []

variable {context : Context} {transformation first second : Transformation}
  {workspace : Workspace} {parent : NodeId}

theorem steps_documentAfter (forest : workspace.program.document.Forest)
    (hparent : workspace.program.document.parent? transformation.directive.pragma = some parent)
    (haccepted : (transformation.analyse context workspace.program.document).isAccepted) :
    (workspace.program.document.regionScope transformation.directive.pragma parent
      (transformation.ledgers workspace.program)).Steps workspace.program.document
      (transformation.documentAfter context workspace) := by
  obtain ⟨plan, hplan⟩ := Option.isSome_iff_exists.mp haccepted
  have hanalyse := analyse_of_plan? hplan
  let scope := workspace.program.document.regionScope transformation.directive.pragma parent
    (transformation.ledgers workspace.program)
  have guards : scope.Guards workspace.program.document := guards_regionScope forest hparent
  have hserves : transformation.kind = .boundsImport → Serves scope workspace.program := by
    refine fun hkind ↦ ⟨guards, fun table htable x hx ↦ Or.inr (Or.inr ⟨?_, hx⟩)⟩
    change table ∈ transformation.ledgers workspace.program
    rwa [ledgers, if_pos hkind]
  have htargets : scope.HasTargets workspace.program.document transformation.kind
      transformation.directive.pragma := fun x hx _ ↦
    inside_regionScope forest (mem_cons_of_mem _ hx)
  refine (apply_of_perform (fun later ↦ Extends scope workspace.program later.program)
    (extends_dropPragma ?_) hplan ?_).steps
  · rw [directive_analyse]
    exact inside_regionScope forest (mem_cons_self ..)
  · rw [directive_analyse]
    exact Plan.extends_perform hanalyse guards hserves htargets

/-- Two fusions keep to the region of a pragma, whichever of them comes first, if they and the
pragmas next to the loop that goes away are in the region. -/
theorem steps_documentAfterBoth (forest : workspace.program.document.Forest) {pragma : NodeId}
    (hparent : workspace.program.document.parent? pragma = some parent)
    (hfirst : first.directive.pragma ∈
      pragma :: workspace.program.document.followingSiblings pragma)
    (hsecond : second.directive.pragma ∈
      pragma :: workspace.program.document.followingSiblings pragma)
    (hpair : (first.analyse context workspace.program.document).canPair
      workspace.program.document (second.analyse context workspace.program.document))
    (hbefore : ∀ firstLoop secondLoop, firstLoop ≠ secondLoop →
      Target.nextLoop? workspace.program.document first.directive.pragma = some firstLoop →
      Target.nextLoop? workspace.program.document second.directive.pragma = some secondLoop →
      ∀ x ∈ Pragma.foreignRun workspace.program.document context.settings.marker
        (workspace.program.document.precedingSiblings secondLoop).reverse,
        x ∈ workspace.program.document.followingSiblings pragma) :
    (workspace.program.document.regionScope pragma parent []).Steps workspace.program.document
      (first.documentAfterBoth context second workspace) := by
  obtain ⟨one, other, hone, hother, hcompatible⟩ := fusions_of_canPair hpair
  obtain ⟨hne, upper, honeParent, hotherParent⟩ := Fusion.parent?_of_compatible hcompatible
  have honeLoop := Plan.nextLoop?_of_analyse (analyse_of_plan? hone)
  have hotherLoop := Plan.nextLoop?_of_analyse (analyse_of_plan? hother)
  have hinside {x : NodeId} (hx : x ∈ workspace.program.document.followingSiblings pragma) :
      (workspace.program.document.regionScope pragma parent []).inside x :=
    inside_regionScope forest (mem_cons_of_mem _ hx)
  have hfollowing {start x : NodeId}
      (hstart : start ∈ pragma :: workspace.program.document.followingSiblings pragma)
      (hx : x ∈ workspace.program.document.followingSiblings start) :
      x ∈ workspace.program.document.followingSiblings pragma := by
    rcases mem_cons.mp hstart with rfl | hstart
    · exact hx
    · exact forest.followingSiblings_subset hstart x hx
  have honeMem := hfollowing hfirst (Target.mem_of_nextLoop? honeLoop)
  have hotherMem := hfollowing hsecond (Target.mem_of_nextLoop? hotherLoop)
  refine (applyWith_of_performWith (fun later ↦ Extends _ workspace.program later.program)
    (fun hlater ↦ extends_dropPragma ?_ (extends_dropPragma ?_ hlater)) hone hother ?_).steps
  · rw [directive_analyse]
    exact inside_regionScope forest hsecond
  · rw [directive_analyse]
    exact inside_regionScope forest hfirst
  · refine Plan.extends_performWith _ (guards_regionScope forest hparent) honeParent hotherParent
      (hinside honeMem) (hinside hotherMem) (fun x hx ↦ ?_) fun x hx ↦ ?_
    · exact hinside (hbefore one.loop other.loop hne honeLoop hotherLoop x hx)
    · have hmem := (Pragma.mem_of_mem_foreignRun hx).1
      exact hinside (forest.followingSiblings_subset hotherMem x hmem)

/-- An accepted transformation changes the region of its pragma only, but for the siblings after
the pragma that the parent loses or gets and for new nodes at the end of the tables. Two fusions
change the region of the earlier pragma only if that one is carried out with the later one, and
the other way round if the earlier pragma carries the reserved word, at which the search for the
pragmas before its loop stops. -/
theorem changedOnlyFrom_pragma (context : Context) (transformation : Transformation)
    (workspace : Workspace) (parent : NodeId) (forest : workspace.program.document.Forest)
    (hparent : workspace.program.document.parent? transformation.directive.pragma = some parent) :
    ((transformation.analyse context workspace.program.document).isAccepted = true →
      ChangedOnlyFrom workspace.program.document (transformation.documentAfter context workspace)
        transformation.directive.pragma parent (transformation.ledgers workspace.program)) ∧
    ∀ later : Transformation, later.directive.pragma ∈
        workspace.program.document.followingSiblings transformation.directive.pragma →
      ((transformation.analyse context workspace.program.document).canPair
          workspace.program.document (later.analyse context workspace.program.document) = true →
        ChangedOnlyFrom workspace.program.document
          (transformation.documentAfterBoth context later workspace)
          transformation.directive.pragma parent []) ∧
      (Pragma.isReserved context.settings.marker
          (workspace.program.document.text transformation.directive.pragma) = true →
        (later.analyse context workspace.program.document).canPair workspace.program.document
          (transformation.analyse context workspace.program.document) = true →
        ChangedOnlyFrom workspace.program.document
          (later.documentAfterBoth context transformation workspace)
          transformation.directive.pragma parent []) := by
  refine ⟨fun haccepted ↦ changedOnlyFrom_of_steps forest hparent
    (steps_documentAfter forest hparent haccepted), fun later hlater ↦ ⟨fun hpair ↦ ?_,
    fun hreserved hpair ↦ ?_⟩⟩
  · refine changedOnlyFrom_of_steps forest hparent (steps_documentAfterBoth forest hparent
      (List.mem_cons_self ..) (List.mem_cons_of_mem _ hlater) hpair ?_)
    intro firstLoop secondLoop hne hfirst hsecond x hx
    exact Fusion.mem_following_of_mem_run_second forest hparent hfirst hlater hsecond hne hx
  · refine changedOnlyFrom_of_steps forest hparent (steps_documentAfterBoth forest hparent
      (List.mem_cons_of_mem _ hlater) (List.mem_cons_self ..) hpair ?_)
    intro _ firstLoop _ _ hfirst x hx
    exact Fusion.mem_following_of_mem_run_first forest hparent hfirst hreserved hx

def fusionWorkspace (statements : List Element) : Workspace where
  program := { document := (Document.ofElement (.branch "body" statements)).1, root := ⟨0⟩ }
  library := {}

theorem forest_fusionWorkspace (statements : List Element) :
    (fusionWorkspace statements).program.document.Forest :=
  forest_ofElement _

/-- A statement, and two loops to be fused, the second one with a pragma of its own. -/
def fusibleWorkspace : Workspace :=
  fusionWorkspace [.branch "ContinueStatement" [], .pragma "lsm loop-fusion", .loop "i" [],
    .pragma "lsm loop-fusion", .pragma "acc loop", .loop "i" []]

def fusionAt (number : Nat) : Transformation :=
  { directive := { keyword := "loop-fusion", pragma := ⟨number⟩, line := 0 }, kind := .fusion }

theorem changedOnlyFrom_pragma_of_fusibleLoops :
    ChangedOnlyFrom fusibleWorkspace.program.document
        ((fusionAt 2).documentAfter plainContext fusibleWorkspace)
        ⟨2⟩ ⟨0⟩ [] ∧
      ChangedOnlyFrom fusibleWorkspace.program.document
        ((fusionAt 2).documentAfterBoth plainContext (fusionAt 11)
          fusibleWorkspace) ⟨2⟩ ⟨0⟩ [] ∧
      ChangedOnlyFrom fusibleWorkspace.program.document
        ((fusionAt 11).documentAfterBoth plainContext (fusionAt 2)
          fusibleWorkspace) ⟨2⟩ ⟨0⟩ [] := by
  have forest : fusibleWorkspace.program.document.Forest := forest_fusionWorkspace _
  obtain ⟨halone, hpaired⟩ := changedOnlyFrom_pragma plainContext
    (fusionAt 2) fusibleWorkspace ⟨0⟩ forest (by decide +kernel)
  obtain ⟨hforward, hbackward⟩ := hpaired (fusionAt 11) (by decide +kernel)
  exact ⟨halone (by decide +kernel), hforward (by decide +kernel),
    hbackward (by decide +kernel) (by decide +kernel)⟩

/-- Two loops to be fused, after a pragma of another kind. -/
def clawWorkspace : Workspace :=
  fusionWorkspace [.pragma "acc loop", .pragma "claw loop-fusion", .loop "i" [],
    .pragma "claw loop-fusion", .loop "i" []]

/-- Where directives are read with another word than the reserved one, the search for the pragmas
before the loop of the earlier directive does not stop at that directive, and takes a pragma that
stands before it. -/
theorem not_changedOnlyFrom_pragma :
    ∃ context : Context,
      clawWorkspace.program.document.Forest ∧
      (∀ number ∈ [2, 11], Directive.find? context.marker clawWorkspace.program.document
        ⟨number⟩ = .ok (some (fusionAt number).directive)) ∧
      clawWorkspace.program.document.parent? ⟨2⟩ = some ⟨0⟩ ∧
      ⟨11⟩ ∈ clawWorkspace.program.document.followingSiblings ⟨2⟩ ∧
      ((fusionAt 11).analyse context clawWorkspace.program.document).canPair
        clawWorkspace.program.document
        ((fusionAt 2).analyse context clawWorkspace.program.document) = true ∧
      ¬ ChangedOnlyFrom clawWorkspace.program.document
        ((fusionAt 11).documentAfterBoth context (fusionAt 2) clawWorkspace) ⟨2⟩ ⟨0⟩ [] := by
  refine ⟨{ plainContext with marker := "claw" }, forest_fusionWorkspace _, by decide +kernel,
    by decide +kernel, by decide +kernel, by decide +kernel, fun hchanged ↦ ?_⟩
  have hgone := hchanged.contains ⟨1⟩ (by decide +kernel) (by decide +kernel)
  revert hgone
  decide +kernel

end Transformation

end LoopDirectives
