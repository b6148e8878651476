import LoopDirectives.Proofs.Run.Discovery
import LoopDirectives.Proofs.Table.Coherent
import LoopDirectives.Proofs.Transformation.Regions

/-!
# Runs that only remove

In a program whose directives all ask for removals, a run strikes the openings of every list of
siblings one by one, whatever happens in other lists (`Group.struck_applyEach`). Where no region
is opened inside another one, what is left are the survivors of the list (`Run.transform_removals`).
-/

namespace LoopDirectives

open Document List

variable {doc before after : Document} {marker : String} {id node parent pragma : NodeId}

/-! ### The roles of the nodes of a document -/

theorem Directive.find?_of_label_eq (h : after.label node = before.label node) :
    Directive.find? marker after node = Directive.find? marker before node := by
  rw [Directive.find?, Directive.find?, isKind, isKind, kind, kind, text, text, line, line, h]

namespace Removal

/-- What a node of the document is to the removals among its siblings. -/
def roleIn (marker : String) (doc : Document) (node : NodeId) : Role :=
  if doc.isKind node .pragma then
    if Target.closesRegion doc marker keyword node then .closing
    else if (Run.requestAt? marker doc node).map Prod.snd = some .removal then .opening
    else .other
  else .statement

theorem roleIn_of_label_eq (h : after.label node = before.label node) :
    roleIn marker after node = roleIn marker before node := by
  unfold roleIn Target.closesRegion Run.requestAt?
  rw [Directive.find?_of_label_eq h, isKind, isKind, kind, kind, h]

theorem roleIn_eq_statement_iff :
    roleIn marker doc node = .statement ↔ doc.isKind node .pragma = false := by
  unfold roleIn
  split_ifs <;> simp_all

theorem find?_of_closesRegion {keyword : String}
    (h : Target.closesRegion doc marker keyword node) :
    ∃ directive, Directive.find? marker doc node = .ok (some directive) ∧
      directive.isEnd := by
  unfold Target.closesRegion at h
  split at h
  · next directive hfind =>
    refine ⟨directive, hfind, by_contra fun hend ↦ ?_⟩
    rw [Directive.closes?, if_neg hend] at h
    cases h
  · cases h

theorem roleIn_eq_closing_iff : roleIn marker doc node = .closing ↔
    Target.closesRegion doc marker keyword node := by
  refine ⟨fun h ↦ ?_, fun h ↦ ?_⟩
  · unfold roleIn at h
    split_ifs at h
    assumption
  · obtain ⟨directive, hfind, -⟩ := find?_of_closesRegion h
    rw [roleIn, if_pos (Directive.isKind_of_find? hfind), if_pos h]

theorem roleIn_eq_opening_iff : roleIn marker doc node = .opening ↔
    (Run.requestAt? marker doc node).map Prod.snd = some .removal := by
  refine ⟨fun h ↦ ?_, fun h ↦ ?_⟩
  · unfold roleIn at h
    split_ifs at h
    assumption
  · obtain ⟨request, hrequest, -⟩ := Option.map_eq_some_iff.mp h
    obtain ⟨hfind, hopens⟩ := Run.find?_of_requestAt? hrequest
    have hcloses : ¬ Target.closesRegion doc marker keyword node := fun hcloses ↦ by
      obtain ⟨directive, hsame, hends⟩ := find?_of_closesRegion hcloses
      rw [hfind] at hsame
      cases hsame
      exact Bool.false_ne_true (hopens.symm.trans hends)
    rw [roleIn, if_pos (Directive.isKind_of_find? hfind), if_neg hcloses, if_pos h]

def targets (doc : Document) (pragma : NodeId) : Removal → List NodeId
  | region closing => Siblings.between doc pragma closing ++ [closing]
  | single statement => [statement]

theorem perform_eq_deleteAll (removal : Removal) (doc : Document) (pragma : NodeId) :
    removal.perform doc pragma = doc.deleteAll (removal.targets doc pragma) := by
  cases removal with
  | region closing => exact (deleteAll_append doc _ [closing]).symm
  | single statement => rfl

theorem doomed_roleIn (marker : String) (doc : Document) (directive : PlacedDirective) :
    doomed (roleIn marker doc) directive.pragma
        (doc.followingSiblings directive.pragma) =
      match plan? marker doc directive with
      | some removal => removal.targets doc directive.pragma ++ [directive.pragma]
      | none => [] := by
  have hclosing : (doc.followingSiblings directive.pragma).find?
      (roleIn marker doc · = .closing) =
        Target.closing? doc marker keyword directive.pragma :=
    find?_congr fun x _ ↦ by
      rw [Bool.eq_iff_iff, decide_eq_true_iff, roleIn_eq_closing_iff]
  have hstatement : (doc.followingSiblings directive.pragma).find?
      (roleIn marker doc · = .statement) =
        Target.nextStatement? doc directive.pragma :=
    find?_congr fun x _ ↦ by
      rw [Bool.eq_iff_iff, decide_eq_true_iff, roleIn_eq_statement_iff, Bool.not_eq_true']
  rw [doomed, hclosing, hstatement, plan?]
  cases Target.closing? doc marker keyword directive.pragma with
  | some closing => simp [targets, Siblings.between]
  | none => cases Target.nextStatement? doc directive.pragma <;> rfl

theorem parent?_of_mem_doomed (forest : doc.Forest) {role : NodeId → Role}
    (h : id ∈ doomed role pragma (doc.followingSiblings pragma)) :
    ∃ parent, doc.parent? pragma = some parent ∧ doc.parent? id = some parent := by
  cases hparent : doc.parent? pragma with
  | none =>
    rw [followingSiblings_of_parent?_eq_none hparent] at h
    cases h
  | some parent =>
    refine ⟨parent, rfl, forest.parent?_of_mem_siblings hparent (mem_append_right _ ?_)⟩
    exact mem_cons.mpr (mem_doomed h)

theorem doomed_followingSiblings (forest : doc.Forest) (role : NodeId → Role)
    (h : doc.parent? pragma = some parent) :
    (doc.children parent).filter
        (· ∉ doomed role pragma (doc.followingSiblings pragma)) =
      strike role (doc.children parent) pragma := by
  have hchildren := forest.children_eq_siblings h
  have hnodup := forest.nodup_children parent
  rw [hchildren] at hnodup
  have hnotMem : pragma ∉ doc.precedingSiblings pragma := fun hmem ↦
    (nodup_append.mp hnodup).2.2 _ hmem _ (mem_cons_self ..) rfl
  rw [strike, hchildren, dropWhile_ne_append hnotMem, dropWhile_cons_of_neg (by simp),
    tail_cons]

/-- The second program is what striking the openings makes of the first: hanging nodes are deleted,
and each list of children that is still there is the old one struck by the openings of that list. -/
structure Struck (marker : String) (origin program : SourceUnit) (openings : List NodeId) :
    Prop where
  exists_deleted : ∃ ids, program = { origin with document := origin.document.deleteAll ids } ∧
    ∀ id ∈ ids, ∃ parent, origin.document.parent? id = some parent
  children_eq : ∀ parent, program.document.contains parent = true →
    program.document.children parent =
      (openings.filter (origin.document.parent? · = some parent)).foldl
        (strike (roleIn marker origin.document)) (origin.document.children parent)

namespace Struck

variable {origin program : SourceUnit} {openings : List NodeId}

theorem refl (marker : String) (origin : SourceUnit) : Struck marker origin origin [] :=
  ⟨⟨[], rfl, fun _ h ↦ absurd h not_mem_nil⟩, fun _ _ ↦ rfl⟩

section

variable (struck : Struck marker origin program openings) (forest : origin.document.Forest)

include struck forest

theorem turn (pragma : NodeId) :
    Struck marker origin
      { program with
        document := program.document.deleteAll (doomed (roleIn marker program.document) pragma
          (program.document.followingSiblings pragma)) } (openings ++ [pragma]) := by
  obtain ⟨ids, hprogram, hids⟩ := struck.exists_deleted
  have hpruned : Pruned origin.document program.document ids :=
    hprogram ▸ forest.pruned_deleteAll ids
  have hlift {id parent : NodeId} (h : program.document.parent? id = some parent) :
      origin.document.parent? id = some parent :=
    hpruned.parent?_eq id (contains_of_parent? h) ▸ h
  generalize hremoved : doomed (roleIn marker program.document) pragma
    (program.document.followingSiblings pragma) = removed
  refine ⟨⟨ids ++ removed, by rw [hprogram, deleteAll_append], ?_⟩, fun parent hparent ↦ ?_⟩
  · intro id hid
    rcases mem_append.mp hid with hold | hnew
    · exact hids id hold
    · obtain ⟨parent, -, hbeside⟩ := parent?_of_mem_doomed hpruned.forest (hremoved ▸ hnew)
      exact ⟨parent, hlift hbeside⟩
  · have hlast := hpruned.forest.pruned_deleteAll removed
    rw [hlast.children_eq parent hparent, filter_append, foldl_append,
      ← struck.children_eq parent ((hlast.contains_iff parent).mp hparent).1]
    by_cases hpragma : program.document.parent? pragma = some parent
    · have hroles : ∀ x ∈ program.document.followingSiblings pragma,
          roleIn marker program.document x = roleIn marker origin.document x := fun x hx ↦ by
        obtain ⟨_, -, hx⟩ := hpruned.forest.exists_parent?_of_mem_siblings (Or.inr hx)
        exact roleIn_of_label_eq (hpruned.label_eq x (contains_of_parent? hx))
      rw [← hremoved, doomed_congr hroles, doomed_followingSiblings hpruned.forest _ hpragma,
        filter_cons_of_pos (by simpa using hlift hpragma)]
      rfl
    · -- The opening is gone or belongs to another list: this one stays as it is.
      have hapart : ∀ x ∈ program.document.children parent, x ∉ removed := fun x hx hmem ↦ by
        obtain ⟨shared, hshared, hx'⟩ := parent?_of_mem_doomed hpruned.forest (hremoved ▸ hmem)
        rw [hpruned.forest.parent?_of_mem hx] at hx'
        exact hpragma (hx' ▸ hshared)
      have hnotMem : pragma ∉ program.document.children parent := fun hmem ↦
        hpragma (hpruned.forest.parent?_of_mem hmem)
      rw [filter_eq_self.mpr fun x hx ↦ decide_eq_true (hapart x hx)]
      by_cases horigin : origin.document.parent? pragma = some parent
      · rw [filter_cons_of_pos (by simpa using horigin)]
        exact (strike_of_notMem hnotMem).symm
      · rw [filter_cons_of_neg (by simpa using horigin)]
        rfl

theorem contains_of_parent?_eq_none (hid : origin.document.contains id)
    (hnone : origin.document.parent? id = none) : program.document.contains id := by
  obtain ⟨ids, rfl, hids⟩ := struck.exists_deleted
  refine ((forest.pruned_deleteAll ids).contains_iff id).mpr ⟨hid, fun deleted hdeleted hmem ↦ ?_⟩
  rcases (forest.mem_subtree_iff deleted id).mp hmem with rfl | habove
  · obtain ⟨parent, hparent⟩ := hids id hdeleted
    cases hnone.symm.trans hparent
  · obtain ⟨parent, hparent⟩ := habove.exists_parent?
    cases hnone.symm.trans hparent

end

end Struck

end Removal

/-! ### One directive -/

namespace Group

variable {context : Context} {keyword : String} {member : Transformation} {progress : Progress}

theorem program_applyMember (hkind : member.kind = .removal) (progress : Progress) :
    (applyMember context keyword member progress).2.workspace.program =
      { progress.workspace.program with
        document := progress.document.deleteAll (Removal.doomed
          (Removal.roleIn context.marker progress.document) member.directive.pragma
          (progress.document.followingSiblings member.directive.pragma)) } := by
  unfold applyMember
  by_cases hlive : member.isLive progress.document
  · rw [if_pos hlive, Removal.doomed_roleIn, Transformation.analyse, hkind, Plan.analyse]
    cases hplan : Removal.plan? context.marker progress.document member.directive with
    | none => rfl
    | some removal =>
      dsimp only
      rw [deleteAll_append, ← Removal.perform_eq_deleteAll]
      rfl
  · have hnone : progress.document.parent? member.directive.pragma = none := by
      simpa [Transformation.isLive] using hlive
    rw [if_neg hlive, followingSiblings_of_parent?_eq_none hnone]
    rfl

variable {origin : SourceUnit} {openings : List NodeId} (forest : origin.document.Forest)
include forest

/-- Assumes: removals. Each strikes the region of its pragma, one after the other. -/
theorem struck_applyEach {members : List Transformation}
    (hkind : ∀ member ∈ members, member.kind = .removal)
    (h : Removal.Struck context.marker origin progress.workspace.program openings) :
    Removal.Struck context.marker origin
      (applyEach context keyword members progress).2.workspace.program
      (openings ++ members.map (·.directive.pragma)) := by
  induction members generalizing openings progress with
  | nil => simpa [applyEach] using h
  | cons member rest ih =>
    rw [forall_mem_cons] at hkind
    have hturn : Removal.Struck context.marker origin
        (applyMember context keyword member progress).2.workspace.program
        (openings ++ [member.directive.pragma]) := by
      rw [program_applyMember hkind.1]
      exact h.turn forest member.directive.pragma
    have hrest := ih hkind.2 hturn
    rwa [append_assoc] at hrest

theorem struck_apply {group : Group} (hkind : ∀ member ∈ group.members, member.kind = .removal)
    (hgrouping : group.members = [] ∨ group.grouping = .independent)
    (h : Removal.Struck context.marker origin progress.workspace.program openings) :
    Removal.Struck context.marker origin (group.apply context progress).2.workspace.program
      (openings ++ group.members.map (·.directive.pragma)) := by
  unfold Group.apply
  split
  · exact struck_applyEach forest hkind h
  · next hdependent =>
    have hmembers : group.members = [] := hgrouping.resolve_right fun hindependent ↦ by
      cases hdependent.symm.trans hindependent
    simpa [hmembers, analyseEach, pairEach] using h

end Group

/-! ### A whole run -/

namespace Run

variable {program : SourceUnit}

theorem membersOf_removal {requests : List (PlacedDirective × TransformationKind)}
    (honly : ∀ request ∈ requests, request.2 = .removal) (kind : TransformationKind) :
    (membersOf kind requests).map (·.directive.pragma) =
      if kind = .removal then requests.map (·.1.pragma) else [] := by
  split
  · next hkind =>
    rw [membersOf, filter_eq_self.mpr fun request hrequest ↦
      decide_eq_true ((honly request hrequest).trans hkind.symm), map_map]
    rfl
  · next hkind =>
    have hnone : requests.filter (·.2 = kind) = [] :=
      filter_eq_nil_iff.mpr fun request hrequest h ↦
        hkind ((of_decide_eq_true h).symm.trans (honly request hrequest))
    rw [membersOf, hnone]
    rfl

theorem struck_foldl_apply {context : Context} {origin : SourceUnit}
    (forest : origin.document.Forest) {requests : List (PlacedDirective × TransformationKind)}
    (honly : ∀ request ∈ requests, request.2 = .removal) {kinds : List TransformationKind}
    {groups : List Group} (hgroups : List.Forall₂ (Gathers requests) kinds groups)
    {openings : List NodeId} {progress : Progress}
    (h : Removal.Struck context.marker origin progress.workspace.program openings) :
    Removal.Struck context.marker origin (applyGroups context groups progress).workspace.program
      (openings ++ kinds.flatMap fun kind ↦
        (membersOf kind requests).map (·.directive.pragma)) := by
  induction hgroups generalizing openings progress with
  | nil => simpa [applyGroups] using h
  | @cons kind group kinds groups hgroup _ ih =>
    have hkind : ∀ member ∈ group.members, member.kind = .removal := by
      intro member hmember
      rw [hgroup.members] at hmember
      obtain ⟨request, hrequest, rfl⟩ := mem_map.mp hmember
      exact honly request (mem_of_mem_filter hrequest)
    have hgrouping : group.members = [] ∨ group.grouping = .independent := by
      by_cases hremoval : kind = .removal
      · exact Or.inr (by rw [hgroup.grouping, hremoval]; rfl)
      · have hnone := membersOf_removal honly kind
        rw [if_neg hremoval, map_eq_nil_iff, ← hgroup.members] at hnone
        exact Or.inl hnone
    have hrest := ih (Group.struck_apply forest hkind hgrouping h)
    rwa [append_assoc, hgroup.members] at hrest

theorem struck_applyGroups (context : Context) (forest : program.document.Forest)
    (honly : ∀ request ∈ requests context.marker program, request.2 = .removal)
    (progress : Progress) (hprogress : progress.workspace.program = program) :
    Removal.Struck context.marker program
      (applyGroups context (discover context.marker program).1 progress).workspace.program
      ((requests context.marker program).map (·.1.pragma)) := by
  have hstart : Removal.Struck context.marker program progress.workspace.program [] :=
    hprogress ▸ .refl context.marker program
  have hstruck := struck_foldl_apply forest honly
    (forall₂_gathers_discover context.marker program) hstart
  simpa [membersOf_removal honly, TransformationKind.all] using hstruck

theorem pragmas_requests
    (honly : ∀ request ∈ requests marker program, request.2 = .removal) :
    (requests marker program).map (·.1.pragma) = (program.document.descendants program.root).filter
      (Removal.roleIn marker program.document · = .opening) := by
  have hrole {pragma : NodeId}
      (hpragma : pragma ∈ program.document.descendantsOf program.root .pragma) :
      (requestAt? marker program.document pragma).map (·.1.pragma) =
        Option.guard (Removal.roleIn marker program.document · = .opening) pragma := by
    cases hrequest : requestAt? marker program.document pragma with
    | none =>
      have hother : Removal.roleIn marker program.document pragma ≠ .opening := fun hopening ↦ by
        rw [Removal.roleIn_eq_opening_iff, hrequest] at hopening
        cases hopening
      simp [Option.guard, hother]
    | some request =>
      have hkind := honly request (mem_filterMap.mpr ⟨pragma, hpragma, hrequest⟩)
      have hopening : Removal.roleIn marker program.document pragma = .opening := by
        rw [Removal.roleIn_eq_opening_iff, hrequest, Option.map_some, hkind]
      simp [Option.guard, hopening, pragma_of_requestAt? hrequest]
  rw [requests, map_filterMap, filterMap_congr fun pragma ↦ hrole,
    filterMap_eq_filter, descendantsOf, filter_filter]
  refine filter_congr fun x _ ↦ ?_
  by_cases hkind : program.document.isKind x .pragma
  · rw [hkind, Bool.and_true]
  · have hstatement : Removal.roleIn marker program.document x = .statement :=
      Removal.roleIn_eq_statement_iff.mpr (eq_false_of_ne_true hkind)
    simp [hstatement]

theorem filter_pragmas_requests (forest : program.document.Forest)
    (hparent : parent ∈ program.document.subtree program.root)
    (honly : ∀ request ∈ requests marker program, request.2 = .removal) :
    ((requests marker program).map (·.1.pragma)).filter
        (program.document.parent? · = some parent) =
      (program.document.children parent).filter
        (Removal.roleIn marker program.document · = .opening) := by
  rw [pragmas_requests honly, filter_comm, forest.filter_descendants_parent? hparent]

/-- A run on a program read from a text whose directives all ask for removals succeeds and leaves
one tree below the same root. Of every list of siblings whose parent is still there, and in which no
opening stands between another one and the first closing directive after it, the survivors are left;
wrapping may put new pragmas between them. -/
theorem transform_removals (context : Context) {text : String} (library : Library)
    (hprogram : SourceUnit.read .program text = .ok program)
    (honly : ∀ request ∈ requests context.marker program, request.2 = .removal) :
    ∃ after report, transform context { program, library } = .ok (after, report) ∧
      after.program.root = program.root ∧ after.program.document.IsTree program.root ∧
      ∀ parent, program.document.contains parent = true →
        after.program.document.contains parent = true →
        Removal.isUnnested (Removal.roleIn context.marker program.document)
          (program.document.children parent) = true →
        (after.program.document.children parent).filter program.document.contains =
          Removal.survivors (Removal.roleIn context.marker program.document)
            (program.document.children parent) := by
  obtain ⟨fromText, -⟩ := SourceUnit.fromText_of_read hprogram
  have forest := fromText.forest
  let start : Progress :=
    { workspace := { program, library }, report := (discover context.marker program).2 }
  let done := applyGroups context (discover context.marker program).1 start
  have hstruck : Removal.Struck context.marker program done.workspace.program _ :=
    struck_applyGroups context forest honly start rfl
  obtain ⟨ids, hdone, -⟩ := hstruck.exists_deleted
  have hpruned : Pruned program.document done.workspace.program.document ids :=
    hdone ▸ forest.pruned_deleteAll ids
  have hwrapped := wrapped_wrapPragmas context.settings hpruned.forest
  have hroot := hstruck.contains_of_parent?_eq_none forest fromText.contains_root
    fromText.parent?_root
  have hrooted : done.workspace.program.document.RootedAt [program.root] :=
    hdone ▸ forest.rootedAt_deleteAll fromText.rooted ids
  refine ⟨{ done.workspace with program := wrapPragmas context.settings done.workspace.program },
    done.report, transform_of_validate context fromText.validate_eq_ok, ?_,
    ⟨hwrapped.forest, hwrapped.contains _ hroot, fun x hx ↦
      hwrapped.forest.eq_or_above_of_rootedAt (hwrapped.rootedAt _ hrooted) hx⟩,
    fun parent hbefore hafter hunnested ↦ ?_⟩
  · rw [(samePlaces_wrapPragmas context.settings done.workspace.program).root, hdone]
  · have hold {x : NodeId} (hx : program.document.contains x = true) :
        x.index < done.workspace.program.document.slots.size := by
      rw [hdone, size_deleteAll]
      exact index_lt_size hx
    have hmiddle : done.workspace.program.document.contains parent = true :=
      hwrapped.contains_old hrooted (fun _ h ↦ List.mem_singleton.mp h ▸ hroot) (hold hbefore)
        hafter
    have hbelow : parent ∈ program.document.subtree program.root :=
      (forest.mem_subtree_iff _ _).mpr (forest.eq_or_above_of_rootedAt fromText.rooted hbefore)
    have hchildren : ((wrapPragmas context.settings done.workspace.program).document.children
        parent).filter program.document.contains =
          done.workspace.program.document.children parent := by
      rw [← hwrapped.children_old parent hmiddle]
      refine List.filter_congr fun child hchild ↦ Bool.eq_iff_iff.mpr ⟨fun h ↦ ?_, fun h ↦ ?_⟩
      · exact hwrapped.contains_of_parent? (hold h) (hwrapped.forest.parent?_of_mem hchild)
      · exact ((hpruned.contains_iff child).mp h).1
    rw [hchildren, hstruck.children_eq parent hmiddle,
      filter_pragmas_requests forest hbelow honly,
      Removal.foldl_strike_eq_survivors (forest.nodup_children parent) hunnested]

def bodyProgram (statements : List Element) : SourceUnit :=
  .withTables .program (ofElement (.program [] statements)).1 (ofElement (.program [] statements)).2
    { types := ⟨1⟩, symbols := ⟨2⟩, declarations := ⟨3⟩ }

def sampleStatement : Option String → Element
  | some text => .pragma text
  | none => .branch "FassignStatement" []

/-- A closing directive without an opening, a region, and three openings without a closing
directive, the last of which has nothing to take. -/
def mixedRegions : List Element :=
  [some "lsm end remove", none, some "lsm remove", none, some "lsm end remove", none,
    some "lsm remove", some "lsm remove", none, none, none, some "lsm remove"].map sampleStatement

theorem transform_removals_mixedRegions :
    SourceUnit.read .program (Markup.write (.program [] mixedRegions)) =
        .ok (bodyProgram mixedRegions) ∧
      (∀ request ∈ requests plainContext.marker (bodyProgram mixedRegions),
        request.2 = .removal) ∧
      ∃ after report, transform plainContext
          { program := bodyProgram mixedRegions, library := {} } = .ok (after, report) ∧
        after.program.document.IsTree (bodyProgram mixedRegions).root ∧
        after.program.document.contains ⟨4⟩ = true ∧
        (after.program.document.children ⟨4⟩).filter
          (bodyProgram mixedRegions).document.contains = [⟨5⟩, ⟨6⟩, ⟨10⟩, ⟨15⟩, ⟨16⟩] := by
  have hprogram : SourceUnit.read .program (Markup.write (.program [] mixedRegions)) =
      .ok (bodyProgram mixedRegions) :=
    SourceUnit.read_write (by decide +kernel)
      (SourceUnit.tableElements_eq_ok_iff.mpr (by decide +kernel))
  have hall : (requests plainContext.marker (bodyProgram mixedRegions)).all
      (·.2 == .removal) = true := by
    decide +kernel
  have honly : ∀ request ∈ requests plainContext.marker (bodyProgram mixedRegions),
      request.2 = .removal := fun request hrequest ↦
    beq_iff_eq.mp (List.all_eq_true.mp hall request hrequest)
  obtain ⟨after, report, hrun, -, htree, hleft⟩ :=
    transform_removals plainContext {} hprogram honly
  have hlist {parent : NodeId} {left : List NodeId}
      (hparent : after.program.document.contains parent = true)
      (heval : ((bodyProgram mixedRegions).document.contains parent &&
        Removal.isUnnested (Removal.roleIn plainContext.marker (bodyProgram mixedRegions).document)
          ((bodyProgram mixedRegions).document.children parent) &&
        Removal.survivors (Removal.roleIn plainContext.marker (bodyProgram mixedRegions).document)
          ((bodyProgram mixedRegions).document.children parent) == left) = true) :
      (after.program.document.children parent).filter
        (bodyProgram mixedRegions).document.contains = left := by
    simp only [Bool.and_eq_true, beq_iff_eq] at heval
    exact heval.2 ▸ hleft parent heval.1.1 hparent heval.1.2
  have hbelow {parent child : NodeId} {left : List NodeId}
      (h : (after.program.document.children parent).filter
        (bodyProgram mixedRegions).document.contains = left) (hchild : child ∈ left) :
      after.program.document.contains child = true :=
    htree.forest.contains_child (List.mem_of_mem_filter (h ▸ hchild))
  have hroot : (after.program.document.children ⟨0⟩).filter
      (bodyProgram mixedRegions).document.contains = [⟨1⟩, ⟨2⟩, ⟨3⟩] :=
    hlist htree.contains_root (by decide +kernel)
  have hdeclarations : (after.program.document.children ⟨3⟩).filter
      (bodyProgram mixedRegions).document.contains = [⟨4⟩] :=
    hlist (hbelow hroot (by simp)) (by decide +kernel)
  have hbody := hbelow hdeclarations (List.mem_singleton_self _)
  exact ⟨hprogram, honly, after, report, hrun, htree, hbody, hlist hbody (by decide +kernel)⟩

/-- What bracket pairing alone would leave: the siblings in no paired region that are no openings
and are not the next statement after an unpaired one. -/
def bracketed (role : NodeId → Removal.Role) (siblings : List NodeId) : List NodeId :=
  siblings.filter fun x ↦ role x ≠ .opening ∧
    (∀ pair ∈ Removal.pairs role [] siblings, x ∉ Removal.stretch siblings pair) ∧
    ∀ opening ∈ Removal.lone role siblings,
      (siblings.dropWhile (· ≠ opening)).find? (role · = .statement) ≠ some x

/-- A run on the program, whose directives all ask for removals, leaves the first list in its body,
where bracket pairing alone would leave the second. -/
def Leaves (statements : List Element) (left bracketing : List NodeId) : Prop :=
  SourceUnit.read .program (Markup.write (.program [] statements)) = .ok (bodyProgram statements) ∧
    (∀ request ∈ requests plainContext.marker (bodyProgram statements), request.2 = .removal) ∧
    (∃ after report, transform plainContext { program := bodyProgram statements, library := {} } =
      .ok (after, report) ∧ after.program.document.children ⟨4⟩ = left) ∧
    bracketed (Removal.roleIn plainContext.marker (bodyProgram statements).document)
      ((bodyProgram statements).document.children ⟨4⟩) = bracketing

theorem leaves_of_eval {statements : List Element} {left bracketing : List NodeId}
    (hcanonical : (Element.program [] statements).isCanonical)
    (htables : SourceUnit.tableElements .program (ofElement (.program [] statements)).1
      (ofElement (.program [] statements)).2 =
        .ok { types := ⟨1⟩, symbols := ⟨2⟩, declarations := ⟨3⟩ })
    (honly : (requests plainContext.marker (bodyProgram statements)).all
      (·.2 == .removal))
    (hrun : ((transform plainContext ⟨bodyProgram statements, {}⟩).toOption.any fun result ↦
      result.1.program.document.children ⟨4⟩ == left))
    (hbracketing : bracketed (Removal.roleIn plainContext.marker (bodyProgram statements).document)
      ((bodyProgram statements).document.children ⟨4⟩) = bracketing) :
    Leaves statements left bracketing := by
  obtain ⟨⟨after, report⟩, hresult, hleft⟩ := exists_of_any_toOption hrun
  exact ⟨SourceUnit.read_write hcanonical htables, fun request hrequest ↦
    beq_iff_eq.mp (all_eq_true.mp honly request hrequest),
    ⟨after, report, hresult, beq_iff_eq.mp hleft⟩, hbracketing⟩

/-- An opening with nothing to take stays; of two openings without a closing directive, each takes a
statement; and an opening takes everything up to the first closing directive after it, also where
another opening stands before that one. -/
theorem not_bracketed_transform :
    Leaves ([some "lsm remove", some "acc end kernels"].map sampleStatement) [⟨5⟩, ⟨6⟩] [⟨6⟩] ∧
    Leaves ([some "lsm remove", some "lsm remove", none, none].map sampleStatement) [] [⟨8⟩] ∧
    Leaves ([some "lsm remove", none, none, some "lsm remove", none, some "lsm end remove",
      none].map sampleStatement) [⟨11⟩] [⟨7⟩, ⟨11⟩] ∧
    Leaves ([some "lsm remove", none, some "lsm remove", none, some "lsm end remove", none,
      some "lsm end remove", none].map sampleStatement) [⟨10⟩, ⟨11⟩, ⟨12⟩] [⟨12⟩] := by
  refine ⟨?_, ?_, ?_, ?_⟩ <;>
    exact leaves_of_eval (by decide +kernel)
      (SourceUnit.tableElements_eq_ok_iff.mpr (by decide +kernel)) (by decide +kernel)
      (by decide +kernel) (by decide +kernel)

end Run

end LoopDirectives
