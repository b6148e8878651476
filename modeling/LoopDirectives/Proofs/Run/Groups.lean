import Mathlib.Data.List.Forall2
import LoopDirectives.Proofs.Transformation.Perform
import LoopDirectives.Run

/-!
# What groups of transformations keep

`Group.Keeps` says what it takes for one member of a group to keep a property of workspaces:
performing the plan that was just made for a directive, performing two fusions together, and
dropping a pragma. The directives of a group were found by `Run.discover`, in each group those of
its own kind (`Run.forall₂_discover`).
-/

namespace LoopDirectives

open Document List

section

variable (keyword : String) (line : Nat) (result : Except TransformError Unit) (progress : Progress)

@[simp] theorem Progress.workspace_record :
    (progress.record keyword line result).workspace = progress.workspace := by
  unfold record
  split <;> rfl

@[simp] theorem Progress.workspace_recordAlone :
    (progress.recordAlone keyword line result).workspace = progress.workspace := by
  unfold recordAlone
  split
  · rfl
  · exact workspace_record ..

end

theorem Stage.plan?_after (result : Except TransformError Unit) :
    (Stage.after result).plan? = none := by
  unfold Stage.after
  split <;> rfl

namespace Group

/-- What it takes for the transformations of a kind to keep a property of workspaces, as long as
their directives were found and the loops that are fused are inside. -/
structure Keeps (context : Context) (found : PlacedDirective → Prop) (inside : NodeId → Prop)
    (kind : TransformationKind) (property : Workspace → Prop) : Prop where
  dropPragma : ∀ (transformation : Transformation) {workspace : Workspace},
    found transformation.directive → property workspace →
      property (transformation.dropPragma workspace)
  perform : ∀ {workspace : Workspace} {directive : PlacedDirective} {plan : Plan},
    property workspace → found directive →
      Plan.analyse context kind workspace.program.document directive = some plan →
      property (plan.perform context directive.pragma workspace).state
  inside_loop : ∀ {workspace : Workspace} {directive : PlacedDirective} {fusion : Fusion},
    property workspace → found directive →
      Plan.analyse context kind workspace.program.document directive = some (.fusion fusion) →
      inside fusion.loop
  performWith : ∀ {workspace : Workspace} {one other : Fusion} (pragma : NodeId),
    kind = .fusion → property workspace → inside one.loop → inside other.loop →
      Fusion.compatible workspace.program.document one other = true →
      property ((Plan.fusion one).performWith context pragma workspace (.fusion other)).state

/-- A fusion whose directive was found, and whose loop is inside once it is accepted. -/
structure FusesInside (found : PlacedDirective → Prop) (inside : NodeId → Prop)
    (member : Transformation) : Prop where
  directive : found member.directive
  plan : ∀ plan, member.stage.plan? = some plan →
    ∃ fusion, plan = .fusion fusion ∧ inside fusion.loop

theorem canPair_of_partner? {doc : Document} {later : List Transformation} {position : Nat}
    {member partner : Transformation}
    (h : ((partner? doc member later).bind fun position ↦
      later[position]?.map fun partner ↦ (position, partner)) = some (position, partner)) :
    later[position]? = some partner ∧ partner.isLive doc ∧
      member.canPair doc partner := by
  obtain ⟨found, hfound, h⟩ := Option.bind_eq_some_iff.mp h
  obtain ⟨other, hother, h⟩ := Option.map_eq_some_iff.mp h
  cases h
  obtain ⟨hlt, htest, -⟩ := findIdx?_eq_some_iff_getElem.mp hfound
  obtain ⟨_, rfl⟩ := List.getElem?_eq_some_iff.mp hother
  exact ⟨hother, Bool.and_eq_true_iff.mp htest⟩

namespace Keeps

variable {context : Context} {found : PlacedDirective → Prop} {inside : NodeId → Prop}
  {kind : TransformationKind} {property : Workspace → Prop} {workspace : Workspace}
  {member partner : Transformation}
  (keeps : Keeps context found inside kind property)

include keeps

theorem applyAnalysed {plan : Plan}
    (hanalysed : Plan.analyse context kind workspace.program.document member.directive = some plan)
    (hplan : member.stage.plan? = some plan) (hfound : found member.directive)
    (h : property workspace) : property (member.apply context workspace).2.state :=
  Transformation.apply_of_perform property (keeps.dropPragma _ hfound) hplan
    (keeps.perform h hfound hanalysed)

theorem applyAlone (hmember : FusesInside found inside member) (haccepted : member.isAccepted)
    (h : property workspace) : property (member.apply context workspace).2.state := by
  obtain ⟨plan, hplan⟩ := Option.isSome_iff_exists.mp haccepted
  obtain ⟨fusion, rfl, -⟩ := hmember.plan plan hplan
  exact Transformation.apply_of_perform property (keeps.dropPragma _ hmember.directive) hplan h

theorem applyWith (hfusion : kind = .fusion) (hmember : FusesInside found inside member)
    (hpartner : FusesInside found inside partner)
    (hpair : member.canPair workspace.program.document partner) (h : property workspace) :
    property (member.applyWith context partner workspace).2.state := by
  obtain ⟨one, other, hone, hother, hcompatible⟩ := Transformation.fusions_of_canPair hpair
  obtain ⟨_, hplan, honeLoop⟩ := hmember.plan _ hone
  cases hplan
  obtain ⟨_, hplan, hotherLoop⟩ := hpartner.plan _ hother
  cases hplan
  exact Transformation.applyWith_of_performWith property (fun hlater ↦ keeps.dropPragma _
    hpartner.directive (keeps.dropPragma _ hmember.directive hlater)) hone hother
    (keeps.performWith _ hfusion h honeLoop hotherLoop hcompatible)

end Keeps

/-- The group holds new transformations of the kind, for directives that were found. -/
structure IsOf (found : TransformationKind → PlacedDirective → Prop) (kind : TransformationKind)
    (group : Group) : Prop where
  keyword : group.keyword = kind.keyword
  grouping : group.grouping = kind.grouping
  members : ∀ member ∈ group.members,
    member.kind = kind ∧ member.stage = .new ∧ found kind member.directive

theorem IsOf.imp {found other : TransformationKind → PlacedDirective → Prop}
    {kind : TransformationKind} {group : Group} (isOf : IsOf found kind group)
    (h : ∀ directive, found kind directive → other kind directive) : IsOf other kind group :=
  ⟨isOf.keyword, isOf.grouping, fun member hmember ↦
    (isOf.members member hmember).imp_right (And.imp_right (h _))⟩

end Group

theorem TransformationKind.keyword_injective : Function.Injective TransformationKind.keyword := by
  intro kind other h
  revert h
  cases kind <;> cases other <;> decide

namespace Run

variable {kinds : List TransformationKind} {groups : List Group} {marker : String} {doc : Document}
  {state : List Group × Report}

/-! ### Finding the directives -/

/-- The directive of a pragma that a run takes up, with its kind. -/
def requestAt? (marker : String) (doc : Document) (pragma : NodeId) :
    Option (PlacedDirective × TransformationKind) :=
  match Directive.find? marker doc pragma with
  | .ok (some directive) =>
    if directive.isEnd then none
    else (TransformationKind.ofKeyword? directive.keyword).map fun kind ↦ (directive, kind)
  | _ => none

/-- Whether a pragma is reserved but no directive, or one with an unknown keyword. -/
def isFaulty (marker : String) (doc : Document) (pragma : NodeId) : Bool :=
  match Directive.find? marker doc pragma with
  | .error _ => true
  | .ok none => false
  | .ok (some directive) =>
    !directive.isEnd && (TransformationKind.ofKeyword? directive.keyword).isNone

/-- The directives below the root that a run takes up, in document order. -/
def requests (marker : String) (program : SourceUnit) :
    List (PlacedDirective × TransformationKind) :=
  (program.document.descendantsOf program.root .pragma).filterMap
    (requestAt? marker program.document)

def faults (marker : String) (program : SourceUnit) : Nat :=
  (program.document.descendantsOf program.root .pragma).countP (isFaulty marker program.document)

theorem find?_of_requestAt? {pragma : NodeId} {request : PlacedDirective × TransformationKind}
    (h : requestAt? marker doc pragma = some request) :
    Directive.find? marker doc pragma = .ok (some request.1) ∧ request.1.isEnd = false := by
  unfold requestAt? at h
  split at h
  · next directive hfind =>
    split at h
    · cases h
    · next hend =>
      obtain ⟨kind, -, rfl⟩ := Option.map_eq_some_iff.mp h
      exact ⟨hfind, eq_false_of_ne_true hend⟩
  · cases h

theorem discoverAt_cases (marker : String) (doc : Document) (state : List Group × Report)
    (pragma : NodeId) :
    (∃ directive kind, requestAt? marker doc pragma = some (directive, kind) ∧
      isFaulty marker doc pragma = false ∧
      discoverAt marker doc state pragma = (enlist { directive, kind } state.1, state.2)) ∨
    (requestAt? marker doc pragma = none ∧ isFaulty marker doc pragma ∧
      ∃ line message, discoverAt marker doc state pragma =
        (state.1, state.2.add line .warning message)) ∨
    (requestAt? marker doc pragma = none ∧ isFaulty marker doc pragma = false ∧
      discoverAt marker doc state pragma = state) := by
  unfold requestAt? isFaulty discoverAt
  cases Directive.find? marker doc pragma with
  | error cause => exact .inr (.inl ⟨rfl, rfl, _, _, rfl⟩)
  | ok directive? =>
    cases directive? with
    | none => exact .inr (.inr ⟨rfl, rfl, rfl⟩)
    | some directive =>
      dsimp only
      by_cases hend : directive.isEnd
      · simp [hend]
      · cases hkind : TransformationKind.ofKeyword? directive.keyword with
        | none =>
          refine .inr (.inl ⟨by simp [hend], by simp [hend], directive.line,
            "Unknown directive `" ++ directive.keyword ++ "`", by simp [hend]⟩)
        | some kind => simp [hend]

/-! ### The members of the groups in document order -/

def membersOf (kind : TransformationKind) (requests : List (PlacedDirective × TransformationKind)) :
    List Transformation :=
  (requests.filter (·.2 = kind)).map fun request ↦ { directive := request.1, kind := request.2 }

theorem membersOf_append (kind : TransformationKind)
    (first second : List (PlacedDirective × TransformationKind)) :
    membersOf kind (first ++ second) = membersOf kind first ++ membersOf kind second := by
  rw [membersOf, filter_append, map_append]
  rfl

/-- The group is the one of the kind, and has these requests of the kind as its members. -/
structure Gathers (requests : List (PlacedDirective × TransformationKind))
    (kind : TransformationKind) (group : Group) : Prop where
  keyword : group.keyword = kind.keyword
  grouping : group.grouping = kind.grouping
  members : group.members = membersOf kind requests

theorem forall₂_gathers_enlist (directive : PlacedDirective) (kind : TransformationKind)
    (h : List.Forall₂ (Gathers seen) kinds groups) :
    List.Forall₂ (Gathers (seen ++ [(directive, kind)])) kinds
      (enlist { directive, kind } groups) := by
  refine forall₂_map_right_iff.mpr (h.imp fun other group hgroup ↦ ?_)
  have hadded : membersOf other (seen ++ [(directive, kind)]) =
      group.members ++ membersOf other [(directive, kind)] := by
    rw [membersOf_append, hgroup.members]
  split
  · next hkeyword =>
    obtain rfl : kind = other :=
      TransformationKind.keyword_injective (hkeyword.symm.trans hgroup.keyword)
    exact ⟨hgroup.keyword, hgroup.grouping, by rw [hadded]; simp [membersOf]⟩
  · next hkeyword =>
    have hne : kind ≠ other := by
      rintro rfl
      exact hkeyword hgroup.keyword
    exact ⟨hgroup.keyword, hgroup.grouping, by rw [hadded]; simp [membersOf, hne]⟩

theorem forall₂_gathers_foldl (marker : String) (doc : Document) (pragmas : List NodeId)
    {state : List Group × Report} (h : List.Forall₂ (Gathers seen) TransformationKind.all state.1) :
    List.Forall₂ (Gathers (seen ++ pragmas.filterMap (requestAt? marker doc)))
      TransformationKind.all (pragmas.foldl (discoverAt marker doc) state).1 := by
  induction pragmas generalizing seen state with
  | nil => simpa using h
  | cons pragma rest ih =>
    rw [foldl_cons]
    rcases discoverAt_cases marker doc state pragma with
      ⟨directive, kind, hrequest, -, hstate⟩ | ⟨hrequest, -, line, message, hstate⟩ |
      ⟨hrequest, -, hstate⟩
    · rw [hstate, filterMap_cons_some hrequest, append_cons]
      exact ih (forall₂_gathers_enlist directive kind h)
    · rw [hstate, filterMap_cons_none hrequest]
      exact ih h
    · rw [hstate, filterMap_cons_none hrequest]
      exact ih h

theorem forall₂_gathers_discover (marker : String) (program : SourceUnit) :
    List.Forall₂ (Gathers (requests marker program)) TransformationKind.all
      (discover marker program).1 := by
  have hempty : List.Forall₂ (Gathers []) TransformationKind.all
      (emptyGroups, ({ file := program.name } : Report)).1 :=
    forall₂_map_right_iff.mpr (forall₂_same.mpr fun _ _ ↦ ⟨rfl, rfl, rfl⟩)
  exact forall₂_gathers_foldl marker program.document
    (program.document.descendantsOf program.root .pragma) hempty

/-- Each group holds new transformations for the requests of its kind. -/
theorem forall₂_discover (marker : String) (program : SourceUnit) :
    List.Forall₂ (Group.IsOf fun kind directive ↦ (directive, kind) ∈ requests marker program)
      TransformationKind.all (discover marker program).1 := by
  refine (forall₂_gathers_discover marker program).imp fun kind group hgroup ↦
    ⟨hgroup.keyword, hgroup.grouping, fun member hmember ↦ ?_⟩
  rw [hgroup.members] at hmember
  obtain ⟨request, hrequest, rfl⟩ := mem_map.mp hmember
  obtain ⟨hmem, hkind⟩ := mem_filter.mp hrequest
  cases of_decide_eq_true hkind
  exact ⟨rfl, rfl, hmem⟩

/-! ### Carrying out the groups -/

theorem applyGroups_append (context : Context) (first second : List Group) (progress : Progress) :
    applyGroups context (first ++ second) progress =
      applyGroups context second (applyGroups context first progress) :=
  foldl_append ..

end Run

end LoopDirectives
