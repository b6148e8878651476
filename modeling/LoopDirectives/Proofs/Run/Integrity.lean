import LoopDirectives.Proofs.Pragma.Wrap
import LoopDirectives.Proofs.Run.Turns
import LoopDirectives.Proofs.Transformation.Rooted

/-!
# A run damages no document and loses no node

Whatever the directives of a program ask for, and whichever of them are rejected or fail, its
document is one tree below its root after the run, too. As long as no directive stands directly
below the root, the tables stay where they are (`Run.isTree_transform`).

The groups are carried out in two scopes. Fusion, interchange and import cannot reach the root and
the tables. The other kinds can delete a table beside their pragma, but they come when nothing is
imported any more.
-/

namespace LoopDirectives

open Document Import List

/-- The document is a forest of one tree, that of the root. -/
structure Document.IsTree (doc : Document) (root : NodeId) : Prop where
  forest : doc.Forest
  contains_root : doc.contains root = true
  below_root : ∀ x, doc.contains x = true → x = root ∨ doc.Above root x

/-- Beside a node inside the scope, whatever the kind can reach is inside. -/
def Document.Scope.Covers (scope : Scope) (kind : TransformationKind) (doc : Document) :
    Prop :=
  ∀ x y parent, doc.parent? x = some parent → doc.parent? y = some parent →
    scope.inside x → kind.takesStatements = true ∨ doc.isKind y .doLoop = true ∨
      doc.isKind y .pragma = true → scope.inside y

theorem Document.Scope.Covers.hasTargets {scope : Scope} {kind : TransformationKind}
    {doc : Document} (covers : scope.Covers kind doc) (forest : doc.Forest)
    {pragma : NodeId} (hpragma : scope.inside pragma) : scope.HasTargets doc kind pragma := by
  intro x hx htarget
  obtain ⟨parent, hparent, hsame⟩ := forest.exists_parent?_of_mem_siblings (Or.inr hx)
  exact covers _ _ parent hparent hsame hpragma (htarget.imp_right Or.inl)

namespace Run

variable {scope : Scope} {context : Context} {kind : TransformationKind}
  {before program : SourceUnit} {workspace : Workspace} {directive : PlacedDirective}

/-! ### One scope -/

/-- The scope fits the kind on a program: it keeps away from the root and covers what the kind can
reach, and for imports the tables stay and take new nodes. -/
structure Fits (scope : Scope) (kind : TransformationKind) (before : SourceUnit) : Prop where
  guards : scope.Guards before.document
  outside_root : ¬ scope.inside before.root
  contains_root : before.document.contains before.root = true
  parent?_root : before.document.parent? before.root = none
  covers : ∀ {after : Document}, scope.Steps before.document after → scope.Covers kind after
  serves : kind = .boundsImport → Serves scope before
  hasTables : kind = .boundsImport → before.HasTables
  outside_table : kind = .boundsImport → ∀ table ∈ before.tableNodes, ¬ scope.inside table

/-- The program was reached from another one within the scope without leaving nodes behind, and
the library can be imported from. -/
structure Intact (scope : Scope) (before : SourceUnit) (workspace : Workspace) : Prop where
  reached : Extends scope before workspace.program
  rooted : workspace.program.document.RootedAt [before.root]
  library : workspace.library.Readable

/-- The document of the workspace has grown from that of the program and has no loose ends. -/
structure Grounded (program : SourceUnit) (workspace : Workspace) : Prop where
  forest : workspace.program.document.Forest
  rooted : workspace.program.document.RootedAt [program.root]
  size_le : program.document.slots.size ≤ workspace.program.document.slots.size

theorem Intact.grounded {unit : SourceUnit} (intact : Intact scope unit workspace)
    (guards : scope.Guards unit.document) (hroot : unit.root = program.root)
    (hsize : program.document.slots.size ≤ scope.size) : Grounded program workspace := by
  have hguards := Scope.Steps.guards guards intact.reached.steps
  exact ⟨hguards.forest, hroot ▸ intact.rooted, Nat.le_trans hsize hguards.size_le⟩

namespace Fits

variable (fits : Fits scope kind before)

include fits

section

variable (intact : Intact scope before workspace)

include intact

theorem guards_of_intact : scope.Guards workspace.program.document :=
  Scope.Steps.guards fits.guards intact.reached.steps

theorem covers_of_intact : scope.Covers kind workspace.program.document :=
  fits.covers intact.reached.steps

theorem root_of_intact :
    workspace.program.document.contains before.root ∧
      workspace.program.document.parent? before.root = none ∧
      workspace.program.document.label before.root = before.document.label before.root := by
  have hspares := Scope.Steps.spares fits.guards intact.reached.steps
  exact ⟨hspares.contains _ fits.contains_root fits.outside_root,
    (hspares.parent? _ fits.contains_root fits.outside_root).trans fits.parent?_root,
    hspares.label _ fits.contains_root fits.outside_root⟩

end

theorem hasTables_of_intact (hkind : kind = .boundsImport)
    (intact : Intact scope before workspace) : workspace.program.HasTables :=
  intact.reached.same.hasTables (fits.hasTables hkind) fun x hlive htable ↦
    (Scope.Steps.spares fits.guards intact.reached.steps).contains x hlive
      (fits.outside_table hkind x htable)

theorem intact_perform {plan : Plan} (intact : Intact scope before workspace)
    (hpragma : scope.inside directive.pragma)
    (h : Plan.analyse context kind workspace.program.document directive = some plan) :
    Intact scope before (plan.perform context directive.pragma workspace).state := by
  have hguards := fits.guards_of_intact intact
  refine ⟨intact.reached.trans ?_, ?_, Plan.readable_perform intact.library _ plan⟩
  · exact Plan.extends_perform h hguards (fun hkind ↦ (fits.serves hkind).extends intact.reached)
      ((fits.covers_of_intact intact).hasTargets hguards.forest hpragma)
  · exact Plan.rootedAt_perform h hguards.forest intact.rooted (fits.root_of_intact intact).2.1
      intact.library fun hkind ↦ fits.hasTables_of_intact hkind intact

theorem intact_performWith {one other : Fusion} (pragma : NodeId)
    (intact : Intact scope before workspace) (hone : scope.inside one.loop)
    (hother : scope.inside other.loop)
    (h : Fusion.compatible workspace.program.document one other) :
    Intact scope before
      ((Plan.fusion one).performWith context pragma workspace (.fusion other)).state := by
  have hguards := fits.guards_of_intact intact
  obtain ⟨-, parent, honeParent, hotherParent⟩ := Fusion.parent?_of_compatible h
  -- Both runs of pragmas next to the second loop are beside it.
  have hrun {x : NodeId} (hx : workspace.program.document.parent? x = some parent)
      (hkind : workspace.program.document.isKind x .pragma) : scope.inside x :=
    fits.covers_of_intact intact _ _ parent hotherParent hx hother (Or.inr (Or.inr hkind))
  refine ⟨intact.reached.trans ?_,
    Plan.rootedAt_performWith hguards.forest intact.rooted one other pragma, intact.library⟩
  refine Plan.extends_performWith pragma hguards honeParent hotherParent hone hother ?_ ?_
  · intro x hx
    obtain ⟨hmem, hkind, -⟩ := Pragma.mem_of_mem_foreignRun hx
    exact hrun (hguards.forest.parent?_of_mem_siblings hotherParent
      (mem_append_left _ (mem_reverse.mp hmem))) hkind
  · intro x hx
    obtain ⟨hmem, hkind, -⟩ := Pragma.mem_of_mem_foreignRun hx
    exact hrun (hguards.forest.parent?_of_mem_siblings hotherParent (by simp [hmem])) hkind

theorem keeps :
    Group.Keeps context (scope.inside ·.pragma) scope.inside kind (Intact scope before) where
  dropPragma transformation workspace hpragma intact :=
    ⟨Transformation.extends_dropPragma hpragma intact.reached,
      (fits.guards_of_intact intact).forest.rootedAt_delete (intact.rooted.weaken _),
      intact.library⟩
  perform := fits.intact_perform
  inside_loop intact hpragma h := by
    have hguards := fits.guards_of_intact intact
    have hnext := Plan.nextLoop?_of_analyse h
    exact (fits.covers_of_intact intact).hasTargets hguards.forest hpragma _
      (Target.mem_of_nextLoop? hnext) (Or.inr (Target.isKind_of_nextLoop? hnext))
  performWith pragma _ := fits.intact_performWith pragma

end Fits

/-! ### Scopes around the root -/

/-- The scope of everything but the root and some of its children. -/
def aroundRoot (unit : SourceUnit) (fixed holders : List NodeId) : Scope :=
  Scope.around unit.document (unit.root :: fixed) holders

/-- The root and some of its children can be kept where they are, and the holders among them can
get other children. -/
structure CanFix (unit : SourceUnit) (fixed holders : List NodeId) : Prop where
  forest : unit.document.Forest
  contains_root : unit.document.contains unit.root = true
  parent?_root : unit.document.parent? unit.root = none
  parent? : ∀ x ∈ fixed, unit.document.parent? x = some unit.root
  children : ∀ x ∈ unit.root :: fixed, x ∉ holders →
    ∀ child ∈ unit.document.children x, child ∈ fixed

namespace CanFix

variable {fixed holders : List NodeId} {x : NodeId} {after : Document}
  (canFix : CanFix before fixed holders)

include canFix

theorem guards : (aroundRoot before fixed holders).Guards before.document := by
  refine Scope.guards_around canFix.forest (fun x hx parent hparent ↦ ?_)
    fun x hx hholder child hchild ↦
      mem_cons_of_mem _ (canFix.children x hx hholder child hchild)
  rcases mem_cons.mp hx with rfl | hx
  · rw [canFix.parent?_root] at hparent
    cases hparent
  · cases (canFix.parent? x hx).symm.trans hparent
    exact mem_cons_self ..

theorem contains (hx : x ∈ before.root :: fixed) : before.document.contains x := by
  rcases mem_cons.mp hx with rfl | hx
  · exact canFix.contains_root
  · exact contains_of_parent? (canFix.parent? x hx)

theorem outside (hx : x ∈ before.root :: fixed) : ¬ (aroundRoot before fixed holders).inside x := by
  rw [aroundRoot, Scope.inside_around_iff (canFix.contains hx)]
  exact not_not_intro hx

theorem covers_of_root (hroot : before.root ∈ holders → fixed = [])
    (steps : (aroundRoot before fixed holders).Steps before.document after) :
    (aroundRoot before fixed holders).Covers kind after := by
  intro x y parent hx hy hinside _
  obtain ⟨hguards, hspares⟩ := Scope.Steps.guards_and_spares canFix.guards steps
  refine Or.inr fun hfixed ↦ ?_
  rw [hspares.parent? y (canFix.contains hfixed) (canFix.outside hfixed)] at hy
  rcases mem_cons.mp hfixed with rfl | hfixed
  · rw [canFix.parent?_root] at hy
    cases hy
  · cases (canFix.parent? y hfixed).symm.trans hy
    rcases hguards.above hx hinside with hparent | hparent | hparent
    · exact canFix.outside (mem_cons_self ..) hparent
    · rw [hroot hparent] at hfixed
      cases hfixed
    · exact hparent.1

theorem covers_of_kinds (hkind : kind.takesStatements = false)
    (hkinds : ∀ x ∈ before.root :: fixed,
      before.document.kind x ≠ .doLoop ∧ before.document.kind x ≠ .pragma)
    (steps : (aroundRoot before fixed holders).Steps before.document after) :
    (aroundRoot before fixed holders).Covers kind after := by
  intro x y parent _ _ _ htarget
  have hspares := Scope.Steps.spares canFix.guards steps
  refine Or.inr fun hfixed ↦ ?_
  have hlabel := hspares.label y (canFix.contains hfixed) (canFix.outside hfixed)
  have hsame : after.kind y = before.document.kind y := congrArg Label.kind hlabel
  simp only [hkind, isKind, hsame, beq_iff_eq, Bool.false_eq_true, false_or] at htarget
  exact htarget.elim (hkinds y hfixed).1 (hkinds y hfixed).2

theorem fits
    (hcovers : ∀ {after}, (aroundRoot before fixed holders).Steps before.document after →
      (aroundRoot before fixed holders).Covers kind after)
    (htables : kind = .boundsImport → before.HasTables ∧
      ∀ table ∈ before.tableNodes, table ∈ fixed ∧ table ∈ holders) :
    Fits (aroundRoot before fixed holders) kind before where
  guards := canFix.guards
  outside_root := canFix.outside (mem_cons_self ..)
  contains_root := canFix.contains_root
  parent?_root := canFix.parent?_root
  covers := hcovers
  serves hkind := ⟨canFix.guards, fun table htable _ _ ↦
    Or.inr (Or.inl ((htables hkind).2 table htable).2)⟩
  hasTables hkind := (htables hkind).1
  outside_table hkind table htable :=
    canFix.outside (mem_cons_of_mem _ ((htables hkind).2 table htable).1)

end CanFix

/-- The scope of everything but the root and the tables, which hold it. -/
def aroundTables (unit : SourceUnit) : Scope :=
  aroundRoot unit unit.tableNodes (unit.root :: unit.tableNodes)

/-- The scope of everything but the root and its children; these hold it. -/
def aroundChildren (unit : SourceUnit) : Scope :=
  aroundRoot unit (unit.document.children unit.root) (unit.document.children unit.root)

theorem fits_tables (fromText : program.FromText) (hkind : kind.takesStatements = false) :
    Fits (aroundTables program) kind program := by
  have canFix : CanFix program program.tableNodes (program.root :: program.tableNodes) := by
    refine ⟨fromText.forest, fromText.contains_root, fromText.parent?_root, fun x hx ↦ ?_,
      fun x hx hholder ↦ absurd hx hholder⟩
    obtain ⟨_, -, hchild⟩ := fromText.childOf?_of_mem_tableNodes hx
    exact fromText.forest.parent?_of_childOf? hchild
  exact canFix.fits (canFix.covers_of_kinds hkind fromText.kind_ne) fun _ ↦
    ⟨fromText.hasTables, fun table htable ↦ ⟨htable, mem_cons_of_mem _ htable⟩⟩

theorem fits_root (forest : before.document.Forest)
    (hroot : before.document.contains before.root)
    (hparent : before.document.parent? before.root = none) (hkind : kind ≠ .boundsImport) :
    Fits (aroundRoot before [] [before.root]) kind before := by
  have canFix : CanFix before [] [before.root] :=
    ⟨forest, hroot, hparent, nofun, fun x hx hholder ↦ absurd hx hholder⟩
  exact canFix.fits (canFix.covers_of_root fun _ ↦ rfl) fun heq ↦ absurd heq hkind

theorem canFix_children (fromText : program.FromText) :
    CanFix program (program.document.children program.root)
      (program.document.children program.root) := by
  refine ⟨fromText.forest, fromText.contains_root, fromText.parent?_root,
    fun x hx ↦ fromText.forest.parent?_of_mem hx, fun x hx hholder ↦ ?_⟩
  rcases mem_cons.mp hx with rfl | hx
  · exact fun _ hchild ↦ hchild
  · exact absurd hx hholder

theorem fits_children (fromText : program.FromText) :
    Fits (aroundChildren program) kind program := by
  have canFix := canFix_children fromText
  refine canFix.fits (canFix.covers_of_root fun hmem ↦ ?_) fun _ ↦
    ⟨fromText.hasTables, fun table htable ↦ ?_⟩
  · exact absurd rfl (fromText.forest.parent_ne (fromText.forest.parent?_of_mem hmem))
  · obtain ⟨_, -, hchild⟩ := fromText.childOf?_of_mem_tableNodes htable
    exact ⟨mem_children_of_childOf? hchild, mem_children_of_childOf? hchild⟩

/-! ### The groups of a run -/

structure Found (marker : String) (program : SourceUnit) (directive : PlacedDirective) : Prop where
  find? : Directive.find? marker program.document directive.pragma = .ok (some directive)
  kind_pragma : program.document.kind directive.pragma = .pragma
  below_root : program.document.Above program.root directive.pragma

theorem Found.pragma_ne_root {marker : String} (found : Found marker program directive)
    (forest : program.document.Forest) : directive.pragma ≠ program.root :=
  (forest.ne_of_above found.below_root).symm

theorem pragma_of_find? {marker : String} {doc : Document} {node : NodeId}
    (h : Directive.find? marker doc node = .ok (some directive)) :
    directive.pragma = node := by
  unfold Directive.find? at h
  split at h
  · cases hparse : Directive.parse marker (doc.text node) with
    | error => simp [hparse, Except.map] at h
    | ok directive? =>
      simp only [hparse, Except.map, Except.ok.injEq, Option.map_eq_some_iff] at h
      obtain ⟨_, -, rfl⟩ := h
      rfl
  · cases h

theorem found_of_mem_requests {marker : String} (forest : program.document.Forest)
    {request : PlacedDirective × TransformationKind} (h : request ∈ requests marker program) :
    Found marker program request.1 := by
  obtain ⟨pragma, hpragma, hrequest⟩ := mem_filterMap.mp h
  obtain ⟨hmem, hkind⟩ := mem_filter.mp hpragma
  have hfind := (find?_of_requestAt? hrequest).1
  cases pragma_of_find? hfind
  exact ⟨hfind, by simpa [isKind] using hkind, forest.mem_descendants_iff.mp hmem⟩

theorem forall₂_found (forest : program.document.Forest) (marker : String) :
    List.Forall₂ (Group.IsOf fun _ ↦ Found marker program) TransformationKind.all
      (discover marker program).1 :=
  (forall₂_discover marker program).imp fun _ _ hgroup ↦
    hgroup.imp fun _ ↦ found_of_mem_requests forest

variable {marker : String} {kinds : List TransformationKind} {groups : List Group}
  {progress : Progress}

theorem advances_intact (context : Context) (hfits : ∀ kind ∈ kinds, Fits scope kind before)
    (hinside : ∀ directive, Found marker program directive → scope.inside directive.pragma)
    (hgroups : List.Forall₂ (Group.IsOf fun _ ↦ Found marker program) kinds groups)
    (h : Intact scope before progress.workspace) :
    ∃ entries, Advances context (Intact scope before) progress entries
        (applyGroups context groups progress) ∧
      ((groups.flatMap Group.members).map Transformation.request).Perm
        (entries.map Entry.request) :=
  advances_applyGroups (fun kind hkind ↦ (hfits kind hkind).keeps)
    (hgroups.imp fun _ _ hgroup ↦ hgroup.imp hinside) h

section

variable (hfound : Found marker program directive) (fromText : program.FromText)

include hfound fromText

theorem Found.inside_tables : (aroundTables program).inside directive.pragma :=
  Or.inr fun hmem ↦ (fromText.kind_ne _ hmem).2 hfound.kind_pragma

theorem Found.inside_root {unit : SourceUnit} (hroot : unit.root = program.root) :
    (aroundRoot unit [] [program.root]).inside directive.pragma :=
  Or.inr fun hmem ↦
    hfound.pragma_ne_root fromText.forest ((mem_singleton.mp hmem).trans hroot)

end

theorem fits_root_of_intact (fromText : program.FromText)
    (intact : Intact (aroundTables program) program workspace) (hkind : kind ≠ .boundsImport) :
    Fits (aroundRoot workspace.program [] [program.root]) kind workspace.program := by
  have hfits : Fits (aroundTables program) .fusion program := fits_tables fromText rfl
  have hroot : workspace.program.root = program.root := intact.reached.same.root
  obtain ⟨hcontains, hparent, -⟩ := hfits.root_of_intact intact
  rw [← hroot] at hcontains hparent ⊢
  exact fits_root (hfits.guards_of_intact intact).forest hcontains hparent hkind

section Groups

variable (progress) (context : Context) (fromText : program.FromText)
  (hprogress : progress.workspace.program = program)
  (hlibrary : progress.workspace.library.Readable)
  (hgroups : List.Forall₂ (Group.IsOf fun _ ↦ Found marker program) TransformationKind.all groups)

include fromText hprogress hlibrary hgroups

/-- The kinds that need the tables come first and spare them, and no kind reaches the root. -/
theorem advances_grounded :
    (∃ entries, Advances context (Grounded program) progress entries
        (applyGroups context groups progress) ∧
      ((groups.flatMap Group.members).map Transformation.request).Perm
        (entries.map Entry.request)) ∧
      SourceUnit.SamePlaces program (applyGroups context groups progress).workspace.program ∧
      (applyGroups context groups progress).document.contains program.root ∧
      (applyGroups context groups progress).document.label program.root =
        program.document.label program.root := by
  rw [← take_append_drop 3 groups, applyGroups_append, flatMap_append, map_append]
  have hstatements : ∀ kind ∈ TransformationKind.all.take 3, kind.takesStatements = false := by
    decide
  have hothers : ∀ kind ∈ TransformationKind.all.drop 3, kind ≠ .boundsImport := by decide
  have hfusion : Fits (aroundTables program) .fusion program := fits_tables fromText rfl
  have hstart : Intact (aroundTables program) program progress.workspace :=
    ⟨hprogress ▸ .refl _ _, hprogress ▸ fromText.rooted, hlibrary⟩
  -- The first kinds need the tables, but cannot reach them.
  obtain ⟨entries, hadvances, hperm⟩ := advances_intact context
    (fun kind hkind ↦ fits_tables fromText (hstatements kind hkind))
    (fun directive hfound ↦ hfound.inside_tables fromText) (forall₂_take 3 hgroups)
    hstart
  generalize applyGroups context (groups.take 3) progress = middle at hadvances ⊢
  have hfirst := hadvances.passes.last
  have hroot : middle.workspace.program.root = program.root := hfirst.reached.same.root
  -- The others may reach the tables, but not the root.
  have hsecond {kind : TransformationKind} (hkind : kind ≠ .boundsImport) :=
    fits_root_of_intact fromText hfirst hkind
  have hrotation : Fits (aroundRoot middle.workspace.program [] [program.root]) .rotation
      middle.workspace.program := hsecond nofun
  have hmiddle : Intact (aroundRoot middle.workspace.program [] [program.root])
      middle.workspace.program middle.workspace :=
    ⟨.refl _ _, hroot ▸ hfirst.rooted, hfirst.library⟩
  obtain ⟨others, hrest, hpermRest⟩ := advances_intact context
    (fun kind hkind ↦ hsecond (hothers kind hkind))
    (fun directive hfound ↦ hfound.inside_root fromText hroot) (forall₂_drop 3 hgroups)
    hmiddle
  have hlast := hrest.passes.last
  obtain ⟨hcontains, -, hlabel⟩ := hrotation.root_of_intact hlast
  rw [hroot] at hcontains hlabel
  refine ⟨⟨entries ++ others, (hadvances.mono fun _ intact ↦ ?_).trans
    (hrest.mono fun _ intact ↦ ?_), ?_⟩, hfirst.reached.same.trans hlast.reached.same,
    hcontains, hlabel.trans (hfusion.root_of_intact hfirst).2.2⟩
  · exact intact.grounded hfusion.guards rfl (Nat.le_refl _)
  · exact intact.grounded hrotation.guards hroot (hfirst.grounded hfusion.guards rfl
      (Nat.le_refl _)).size_le
  · rw [map_append]
    exact hperm.append hpermRest

/-- A run leaves one tree below the root. -/
theorem rootedAt_applyGroups :
    SourceUnit.SamePlaces program (applyGroups context groups progress).workspace.program ∧
      (applyGroups context groups progress).document.Forest ∧
      (applyGroups context groups progress).document.contains program.root ∧
      (applyGroups context groups progress).document.RootedAt [program.root] := by
  obtain ⟨⟨_, hadvances, -⟩, hsame, hroot, -⟩ :=
    advances_grounded progress context fromText hprogress hlibrary hgroups
  have hgrounded := hadvances.passes.last
  exact ⟨hsame, hgrounded.forest, hroot, hgrounded.rooted⟩

/-- After a run the root is as before, so only a table can be missing. -/
theorem missingTable_applyGroups {cause : UnitError}
    (h : (applyGroups context groups progress).workspace.program.validate = .error cause) :
    ∃ table, cause = .missingTable table := by
  obtain ⟨-, hsame, -, hlabel⟩ :=
    advances_grounded progress context fromText hprogress hlibrary hgroups
  obtain ⟨tables, htables, -⟩ := fromText.exists_tables
  rw [SourceUnit.validate, hsame.role, hsame.root] at h
  cases hafter : SourceUnit.tableElements program.role
      (applyGroups context groups progress).workspace.program.document program.root with
  | ok tables =>
    rw [hafter] at h
    cases h
  | error other =>
    rw [hafter] at h
    cases h
    refine SourceUnit.missingTable_of_tableElements ?_ hafter
    have hkind : (applyGroups context groups progress).workspace.program.document.kind
        program.root = program.document.kind program.root := congrArg Label.kind hlabel
    rw [isKind, hkind, ← isKind]
    exact (SourceUnit.tableElements_eq_ok_iff.mp htables).1

/-- Assumes: no directive directly below the root. Then the tables are the same nodes. -/
theorem tableElements_applyGroups
    (htop : ∀ child ∈ program.document.children program.root, ∀ directive,
      Directive.find? marker program.document child ≠ .ok (some directive))
    {tables : SourceUnit.TableElements}
    (htables : SourceUnit.tableElements program.role program.document program.root = .ok tables) :
    SourceUnit.tableElements program.role (applyGroups context groups progress).document
      program.root = .ok tables := by
  have hintact : Intact (aroundChildren program) program
      (applyGroups context groups progress).workspace := by
    have hstart : Intact (aroundChildren program) program progress.workspace :=
      ⟨hprogress ▸ .refl _ _, hprogress ▸ fromText.rooted, hlibrary⟩
    refine (advances_intact context (fun _ _ ↦ fits_children fromText)
      (fun directive hfound ↦ Or.inr fun hmem ↦ ?_) hgroups hstart).elim
      fun _ hadvances ↦ hadvances.1.passes.last
    rcases mem_cons.mp hmem with heq | hchild
    · exact hfound.pragma_ne_root fromText.forest heq
    · exact htop _ hchild directive hfound.find?
  have canFix := canFix_children fromText
  have hspares := Scope.Steps.spares canFix.guards hintact.reached.steps
  have hroot := canFix.outside (mem_cons_self ..)
  refine SourceUnit.tableElements_of_childOf? ?_ (fun wanted _ table htable ↦ ?_) htables
  · exact congrArg Label.kind (hspares.label _ fromText.contains_root hroot)
  · exact hspares.childOf?_eq_some fromText.forest htable hroot fun child hchild ↦
      canFix.outside (mem_cons_of_mem _ hchild)

end Groups

/-! ### A whole run -/

theorem wrapped_wrapPragmas (settings : Settings) (forest : program.document.Forest) :
    Pragma.Wrapped program.document (wrapPragmas settings program).document := by
  unfold wrapPragmas
  split
  · exact .refl forest
  · exact Pragma.wrapped_wrap forest _ settings.marker program.root

theorem samePlaces_wrapPragmas (settings : Settings) (program : SourceUnit) :
    SourceUnit.SamePlaces program (wrapPragmas settings program) := by
  unfold wrapPragmas
  split <;> exact ⟨rfl, rfl, rfl, rfl, rfl⟩

theorem transform_of_validate (context : Context) (h : workspace.program.validate = .ok ()) :
    let done := applyGroups context (discover context.marker workspace.program).1
      { workspace, report := (discover context.marker workspace.program).2 }
    transform context workspace = .ok ({ done.workspace with
      program := wrapPragmas context.settings done.workspace.program }, done.report) := by
  unfold transform
  generalize discover context.marker workspace.program = found
  rw [h]

/-- A run on a program read from a text, with modules read from texts at hand, succeeds and leaves
one tree below the same root. If no directive stands directly below the root, the tables are the
same live nodes as before, and the program is still valid. -/
theorem isTree_transform (context : Context) {text : String} {library : Library}
    (hprogram : SourceUnit.read .program text = .ok program)
    (hlibrary : ∀ entry ∈ library.modules, ∃ role text, SourceUnit.read role text = .ok entry.2) :
    ∃ after report, transform context { program, library } = .ok (after, report) ∧
      after.program.root = program.root ∧ after.program.document.IsTree program.root ∧
      ((∀ child ∈ program.document.children program.root, ∀ directive,
          Directive.find? context.marker program.document child ≠ .ok (some directive)) →
        ∃ tables, SourceUnit.tableElements .program program.document program.root = .ok tables ∧
          SourceUnit.tableElements .program after.program.document program.root = .ok tables ∧
          (∀ table ∈ [tables.types, tables.symbols, tables.declarations],
            after.program.document.contains table = true) ∧
          after.program.validate = .ok ()) := by
  obtain ⟨fromText, hrole⟩ := SourceUnit.fromText_of_read hprogram
  have hreadable : library.Readable := by
    intro entry hentry
    obtain ⟨role, text, hread⟩ := hlibrary entry hentry
    exact (SourceUnit.fromText_of_read hread).1.readable
  have hgroups := forall₂_found fromText.forest context.marker
  let start : Progress :=
    { workspace := { program, library }, report := (discover context.marker program).2 }
  let done := applyGroups context (discover context.marker program).1 start
  obtain ⟨hsame, forest, hroot, hrooted⟩ :=
    rootedAt_applyGroups start context fromText rfl hreadable hgroups
  have hwrapped := wrapped_wrapPragmas context.settings forest
  have hplaces := hsame.trans (samePlaces_wrapPragmas context.settings done.workspace.program)
  refine ⟨{ done.workspace with program := wrapPragmas context.settings done.workspace.program },
    done.report, ?_, hplaces.root, ⟨hwrapped.forest, hwrapped.contains _ hroot, fun x hx ↦
      hwrapped.forest.eq_or_above_of_rootedAt (hwrapped.rootedAt _ hrooted) hx⟩, fun htop ↦ ?_⟩
  · exact transform_of_validate context fromText.validate_eq_ok
  · obtain ⟨tables, htables, -⟩ := fromText.exists_tables
    have hmiddle :=
      tableElements_applyGroups start context fromText rfl hreadable hgroups htop htables
    have hafter := SourceUnit.tableElements_of_childOf? (hwrapped.kind _ hroot)
      (fun wanted hwanted table htable ↦
        (hwrapped.childOf?_eq forest hroot hwanted).trans htable) hmiddle
    refine ⟨tables, hrole ▸ htables, hrole ▸ hafter,
      SourceUnit.contains_of_tableElements hwrapped.forest hafter, ?_⟩
    rw [SourceUnit.validate, hplaces.role, hplaces.root, hafter]
    rfl

def nestedDirectives : Element :=
  .program []
    [.pragma "lsm loop-fusion", .loop "i" [], .pragma "lsm loop-fusion", .loop "i" [],
     .pragma "lsm import-bounds module(grid) array(field)", .loop "i" []]

def emptyModule : Element :=
  .moduleFile [] [] []

theorem isTree_transform_of_nestedDirectives :
    ∃ program unit, SourceUnit.read .program (Markup.write nestedDirectives) = .ok program ∧
      SourceUnit.read (.module "grid") (Markup.write emptyModule) = .ok unit ∧
      ∃ after report, transform plainContext
          { program, library := { modules := [("grid", unit)] } } = .ok (after, report) ∧
        after.program.root = program.root ∧ after.program.document.IsTree program.root ∧
        after.program.validate = .ok () := by
  obtain ⟨program, hprogram, hdocument, hroot⟩ := SourceUnit.exists_read_write (by decide +kernel)
    (SourceUnit.tableElements_eq_ok_iff.mpr (by decide +kernel) :
      SourceUnit.tableElements .program (Document.ofElement nestedDirectives).1
        (Document.ofElement nestedDirectives).2 =
          .ok { types := ⟨1⟩, symbols := ⟨2⟩, declarations := ⟨3⟩ })
  obtain ⟨unit, hunit, -⟩ := SourceUnit.exists_read_write (by decide +kernel)
    (SourceUnit.tableElements_eq_ok_iff.mpr (by decide +kernel) :
      SourceUnit.tableElements (.module "grid") (Document.ofElement emptyModule).1
        (Document.ofElement emptyModule).2 =
          .ok { types := ⟨1⟩, symbols := ⟨2⟩, declarations := ⟨3⟩ })
  have hlibrary : ∀ entry ∈ ({ modules := [("grid", unit)] } : Library).modules,
      ∃ role text, SourceUnit.read role text = .ok entry.2 := by
    simpa using ⟨_, _, hunit⟩
  obtain ⟨after, report, hrun, hsame, htree, htables⟩ :=
    isTree_transform plainContext hprogram hlibrary
  have hchildren : ∀ child ∈ program.document.children program.root,
      program.document.isKind child .pragma = false := by
    rw [hdocument, hroot]
    decide +kernel
  obtain ⟨_, -, -, -, hvalid⟩ := htables fun child hchild directive ↦ by
    simp [Directive.find?, hchildren child hchild]
  exact ⟨program, unit, hprogram, hunit, after, report, hrun, hsame, htree, hvalid⟩

end Run

end LoopDirectives
