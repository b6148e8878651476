import LoopDirectives.Proofs.Loop.Header
import LoopDirectives.Proofs.Pragma.Sweeping
import LoopDirectives.Transformation.Demotion
import LoopDirectives.Transformation.Fusion
import LoopDirectives.Transformation.Interchange
import LoopDirectives.Transformation.Removal
import LoopDirectives.Transformation.Rotation

/-!
# Transformations keep to a scope

Each transformation finds its targets from its pragma. When they are inside a scope, performing the
transformation keeps to the scope, whether it succeeds or fails on the way. A demotion and an
interchange are runs of small edits, and what each of these keeps is kept by the whole
(`Demotion.perform_induction`, `Interchange.perform_induction`).
-/

namespace LoopDirectives

open Document List

variable {scope : Scope} {doc after : Document} {pragma loop x : NodeId} {marker : String}
  {siblings : List NodeId}

/-! ### Targets -/

theorem Directive.isKind_of_find? {directive : PlacedDirective}
    (h : Directive.find? marker doc pragma = .ok (some directive)) :
    doc.isKind pragma .pragma := by
  by_contra hkind
  rw [Directive.find?, if_neg hkind] at h
  cases h

namespace Target

variable {keyword : String} {closing : NodeId}

theorem mem_of_nextStatement? (h : nextStatement? doc pragma = some loop) :
    loop ∈ doc.followingSiblings pragma :=
  mem_of_find?_eq_some h

theorem mem_of_nextLoop? (h : nextLoop? doc pragma = some loop) :
    loop ∈ doc.followingSiblings pragma :=
  mem_of_nextStatement? (Option.filter_eq_some_iff.mp h).1

theorem isKind_of_nextLoop? (h : nextLoop? doc pragma = some loop) :
    doc.isKind loop .doLoop :=
  (Option.filter_eq_some_iff.mp h).2

theorem mem_of_closing? (h : closing? doc marker keyword pragma = some closing) :
    closing ∈ doc.followingSiblings pragma :=
  mem_of_find?_eq_some h

theorem isKind_of_closing? (h : closing? doc marker keyword pragma = some closing) :
    doc.isKind closing .pragma := by
  have hcloses := find?_some h
  unfold closesRegion at hcloses
  split at hcloses
  · next hfind => exact Directive.isKind_of_find? hfind
  · cases hcloses

end Target

theorem Siblings.mem_of_mem_between {start finish : NodeId}
    (h : x ∈ Siblings.between doc start finish) : x ∈ doc.followingSiblings start :=
  takeWhile_subset _ h

theorem Outcome.state_ofExcept {State : Type} (holds : State → Prop) {before : State}
    {result : Except TransformError State} (hbefore : holds before)
    (hafter : ∀ after, result = .ok after → holds after) :
    holds (Outcome.ofExcept before result).state := by
  cases result with
  | ok after => exact hafter after rfl
  | error cause => exact hbefore

/-! ### Removal -/

namespace Removal

variable {marker : String} {directive : PlacedDirective} {removal : Removal}

theorem mem_of_plan? (h : plan? marker doc directive = some removal) :
    (∃ closing, removal = region closing ∧
        closing ∈ doc.followingSiblings directive.pragma) ∨
      ∃ statement, removal = single statement ∧
        statement ∈ doc.followingSiblings directive.pragma := by
  unfold plan? at h
  split at h
  · next closing hclosing =>
    cases h
    exact Or.inl ⟨closing, rfl, Target.mem_of_closing? hclosing⟩
  · obtain ⟨statement, hstatement, rfl⟩ := Option.map_eq_some_iff.mp h
    exact Or.inr ⟨statement, rfl, Target.mem_of_nextStatement? hstatement⟩

theorem steps_perform (h : plan? marker doc directive = some removal)
    (hinside : ∀ x ∈ doc.followingSiblings directive.pragma, scope.inside x) :
    scope.Steps doc (removal.perform doc directive.pragma) := by
  rcases mem_of_plan? h with ⟨closing, rfl, hclosing⟩ | ⟨statement, rfl, hstatement⟩
  · have hbetween : scope.Steps doc
        (Siblings.deleteBetween doc directive.pragma closing) :=
      Scope.steps_deleteAll doc fun x hx ↦ hinside x (Siblings.mem_of_mem_between hx)
    exact hbetween.tail (.delete _ closing (hinside closing hclosing))
  · exact .single (.delete doc statement (hinside statement hstatement))

end Removal

/-! ### Rotation -/

namespace Rotation

variable {rotation : Rotation}

theorem mem_of_plan? {directive : PlacedDirective} (h : plan? doc directive = some rotation) :
    ∃ statement ∈ doc.followingSiblings directive.pragma,
      rotation.expression ∈ doc.children statement := by
  obtain ⟨statement, hstatement, h⟩ := Option.bind_eq_some_iff.mp h
  obtain ⟨expression, hexpression, h⟩ := Option.bind_eq_some_iff.mp h
  cases h
  exact ⟨statement, Target.mem_of_nextStatement? (Option.filter_eq_some_iff.mp hstatement).1,
    mem_of_getElem? (Option.filter_eq_some_iff.mp hexpression).1⟩

theorem steps_perform (guards : scope.Guards doc)
    (hexpression : scope.inside rotation.expression) (h : rotation.perform doc = .ok after) :
    scope.Steps doc after := by
  unfold perform at h
  split at h
  · cases h
  · next first hfirst =>
    cases h
    exact .single (.append doc rotation.expression first
      (guards.inside_of_mem_children (Loop.mem_children_of_firstChild? hfirst) hexpression)
      (Or.inl hexpression))

end Rotation

/-! ### Demotion -/

namespace Reference

variable {reference : NodeId} {kept : List Nat}

theorem mem_of_mem_arraysBelow {array : String} {node : NodeId}
    (h : reference ∈ arraysBelow doc array node) :
    reference ∈ doc.descendants node ∧ doc.isKind reference .arrayReference :=
  mem_filter.mp (mem_of_mem_filter h)

theorem steps_toScalar? (guards : scope.Guards doc) {scalar : NodeId}
    (hreference : scope.inside reference)
    (h : toScalar? doc reference = some (after, scalar)) : scope.Steps doc after := by
  obtain ⟨var, -, h⟩ := Option.bind_eq_some_iff.mp h
  obtain ⟨⟨copied, copy⟩, hcopy, h⟩ := Option.bind_eq_some_iff.mp h
  cases h
  rw [guards.forest.copy?_eq] at hcopy
  have hnew : scope.size ≤ scalar.index := by
    rw [(copyFrom?_eq_some hcopy).2.2]
    exact guards.size_le
  exact ((Scope.steps_copyFrom? scope hcopy).tail
    (.insertBeside copied reference scalar 1 hreference hnew)).tail (.delete _ reference hreference)

theorem mem_children_of_mem_dropped {index : NodeId} (h : index ∈ dropped doc kept reference) :
    index ∈ doc.children reference := by
  obtain ⟨⟨found, position⟩, hentry, rfl⟩ := mem_map.mp h
  have hfound : found ∈ indices doc reference :=
    (mem_zipIdx_iff_getElem?.mp (mem_of_mem_filter hentry)) |> mem_of_getElem?
  exact mem_of_mem_filter hfound

theorem steps_keep (guards : scope.Guards doc) (hreference : scope.inside reference)
    (h : keep doc kept reference = .ok after) : scope.Steps doc after := by
  obtain ⟨_, -, h⟩ := exists_of_bind_eq_ok h
  cases h
  exact Scope.steps_deleteAll doc fun index hindex ↦
    guards.inside_of_mem_children (mem_children_of_mem_dropped hindex) hreference

end Reference

namespace Demotion

variable {demotion : Demotion} {references : List NodeId} {directive : PlacedDirective}

theorem closing?_of_plan? (h : plan? marker doc directive = some demotion) :
    Target.closing? doc marker keyword directive.pragma = some demotion.closing := by
  obtain ⟨array, -, h⟩ := Option.bind_eq_some_iff.mp h
  obtain ⟨kept, -, h⟩ := Option.bind_eq_some_iff.mp h
  obtain ⟨closing, hclosing, h⟩ := Option.bind_eq_some_iff.mp h
  cases h
  exact hclosing

theorem mem_of_plan? (h : plan? marker doc directive = some demotion) :
    demotion.closing ∈ doc.followingSiblings directive.pragma :=
  Target.mem_of_closing? (closing?_of_plan? h)

theorem exists_above_of_mem_references (forest : doc.Forest) {reference : NodeId}
    (h : reference ∈ demotion.references doc pragma) :
    ∃ sibling ∈ doc.followingSiblings pragma, sibling ≠ demotion.closing ∧
      doc.Above sibling reference := by
  obtain ⟨sibling, hsibling, hreference⟩ := mem_flatMap.mp h
  refine ⟨sibling, Siblings.mem_of_mem_between hsibling, ?_,
    forest.mem_descendants_iff.mp (Reference.mem_of_mem_arraysBelow hreference).1⟩
  simpa using all_eq_true.mp all_takeWhile sibling hsibling

section

variable (holds : Document → Prop) (hstart : holds doc)

include hstart

theorem toScalars_induction (hscalar : ∀ {before after : Document} {reference scalar : NodeId},
    holds before → reference ∈ references →
      Reference.toScalar? before reference = some (after, scalar) → holds after) :
    holds (toScalars doc references) := by
  refine List.foldlRecOn _ _ hstart fun before hbefore reference hreference ↦ ?_
  split
  · exact hbefore
  · next after scalar h => exact hscalar hbefore hreference h

theorem keepAll_induction {kept : List Nat}
    (hkeep : ∀ {before after : Document} {reference : NodeId}, holds before →
      reference ∈ references → Reference.keep before kept reference = .ok after → holds after) :
    holds (keepAll doc kept references).state := by
  induction references generalizing doc with
  | nil => exact hstart
  | cons reference rest ih =>
    unfold keepAll
    split
    · exact hstart
    · next reduced hreduced =>
      exact ih (hkeep hstart (mem_cons_self ..) hreduced) fun hbefore hmem ↦
        hkeep hbefore (mem_cons_of_mem _ hmem)

/-- What every change of a reference and the deletion of the closing directive keep is kept when the
references are demoted. -/
theorem perform_induction
    (hscalar : ∀ {before after : Document} {reference scalar : NodeId}, holds before →
      reference ∈ demotion.references doc pragma →
        Reference.toScalar? before reference = some (after, scalar) → holds after)
    (hkeep : ∀ {before after : Document} {reference : NodeId}, holds before →
      reference ∈ demotion.references doc pragma →
        Reference.keep before demotion.kept reference = .ok after → holds after)
    (hclose : ∀ {before : Document}, holds before → holds (before.delete demotion.closing)) :
    holds (demotion.perform doc pragma).state := by
  have hfinish {outcome : Outcome Document} (h : holds outcome.state) :
      holds (demotion.finish outcome).state := by
    unfold finish
    split
    · exact hclose h
    · exact h
  unfold perform
  dsimp only
  split
  · exact hstart
  · split
    · exact hstart
    · split
      · exact hfinish (toScalars_induction holds hstart hscalar)
      · exact hfinish (keepAll_induction holds hstart hkeep)

end

theorem steps_perform (guards : scope.Guards doc)
    (hinside : ∀ x ∈ doc.followingSiblings pragma, scope.inside x)
    (hclosing : demotion.closing ∈ doc.followingSiblings pragma) :
    scope.Steps doc (demotion.perform doc pragma).state := by
  have hreferences : ∀ reference ∈ demotion.references doc pragma,
      scope.inside reference := by
    intro reference hreference
    obtain ⟨sibling, hsibling, -, habove⟩ :=
      exists_above_of_mem_references guards.forest hreference
    exact guards.inside_of_above habove (hinside sibling hsibling)
  exact perform_induction (scope.Steps doc) .refl
    (fun hsteps hmem h ↦ hsteps.trans (Reference.steps_toScalar? (Scope.Steps.guards guards hsteps)
      (hreferences _ hmem) h))
    (fun hsteps hmem h ↦ hsteps.trans (Reference.steps_keep (Scope.Steps.guards guards hsteps)
      (hreferences _ hmem) h))
    fun hsteps ↦ hsteps.tail (.delete _ demotion.closing (hinside _ hclosing))

end Demotion

/-! ### Interchange -/

theorem Loop.inside_of_mem_levels (guards : scope.Guards doc) {depth : Nat} {outer : NodeId}
    (houter : scope.inside outer) (hloop : loop ∈ Loop.levels doc depth outer) :
    scope.inside loop := by
  induction depth generalizing outer with
  | zero => cases hloop
  | succ depth ih =>
    rw [Loop.levels, mem_cons] at hloop
    rcases hloop with rfl | hloop
    · exact houter
    · split at hloop
      · cases hloop
      · next inner hinner =>
        rw [path?_pair] at hinner
        obtain ⟨body, hbody, hinner⟩ := Option.bind_eq_some_iff.mp hinner
        have hbody := guards.inside_of_mem_children (mem_children_of_childOf? hbody) houter
        exact ih (guards.inside_of_mem_children (mem_children_of_childOf? hinner) hbody) hloop

namespace Interchange

variable {interchange : Interchange} {nest : List NodeId}

theorem nest_of_plan? {directive : PlacedDirective}
    (h : plan? doc directive = some interchange) :
    ∃ outer depth, Target.nextLoop? doc directive.pragma = some outer ∧
      interchange.nest = Loop.levels doc depth outer := by
  obtain ⟨depth, -, h⟩ := Option.bind_eq_some_iff.mp h
  obtain ⟨outer, houter, h⟩ := Option.bind_eq_some_iff.mp h
  obtain ⟨nest, hnest, h⟩ := Option.bind_eq_some_iff.mp h
  refine ⟨outer, depth, houter, ?_⟩
  have hlevels := (Option.filter_eq_some_iff.mp hnest).1
  unfold Loop.nest? at hlevels
  split at hlevels
  · dsimp only at h
    split at h
    · cases h
      exact (Option.some.inj hlevels).symm
    · cases h
  · cases hlevels

/-- What every exchange of the headers of two loops of the nest keeps is kept when the headers are
arranged. -/
theorem arrange_induction (holds : Document → Prop) (hstart : holds doc)
    (hexchange : ∀ {before after : Document} {left right : NodeId} {level current : Nat},
      holds before → current ≠ level → nest[level]? = some left → nest[current]? = some right →
        Loop.exchangeHeaders before left right = .ok after → holds after)
    (level : Nat) (order : List String) :
    holds (arrange doc nest level order).state := by
  induction order generalizing doc level with
  | nil => exact hstart
  | cons wanted rest ih =>
    unfold arrange
    split
    · exact hstart
    · next placed hplaced =>
      refine ih ?_ (level + 1)
      unfold place at hplaced
      split at hplaced
      · cases hplaced
      · split at hplaced
        · cases hplaced
          exact hstart
        · next hne =>
          split at hplaced
          · next left right hleft hright => exact hexchange hstart hne hleft hright hplaced
          · cases hplaced

/-- What every exchange of an interchange keeps, the interchange keeps, also if it fails. -/
theorem perform_induction (holds : Document → Prop) (hstart : holds doc)
    (hexchange : ∀ {before after : Document} {left right : NodeId} {level current : Nat},
      holds before → current ≠ level → interchange.nest[level]? = some left →
        interchange.nest[current]? = some right →
          Loop.exchangeHeaders before left right = .ok after → holds after) :
    holds (interchange.perform doc).state := by
  unfold perform
  split
  · split
    · next outer inner _ heq =>
      refine Outcome.state_ofExcept holds hstart fun after hafter ↦
        hexchange hstart Nat.one_ne_zero ?_ ?_ hafter
      · rw [heq]
        rfl
      · rw [heq]
        rfl
    · exact hstart
  · exact arrange_induction holds hstart hexchange 0 interchange.order

theorem steps_perform (guards : scope.Guards doc)
    (hnest : ∀ loop ∈ interchange.nest, scope.inside loop) :
    scope.Steps doc (interchange.perform doc).state :=
  perform_induction (scope.Steps doc) .refl fun hsteps _ hleft hright h ↦
    hsteps.trans (Loop.steps_exchangeHeaders (Scope.Steps.guards guards hsteps)
      (hnest _ (mem_of_getElem? hleft)) (hnest _ (mem_of_getElem? hright)) h)

end Interchange

/-! ### Fusion -/

theorem Pragma.cleanAround_eq_deleteAll (forest : doc.Forest) (marker : String)
    (loop : NodeId) (before after : List String) :
    ∃ doomed, Pragma.cleanAround doc marker loop before after = doc.deleteAll doomed ∧
      ∀ x ∈ doomed,
        x ∈ Pragma.foreignRun doc marker (doc.precedingSiblings loop).reverse ∧
          Pragma.mentions before (doc.text x) ∨
        x ∈ Pragma.foreignRun doc marker (doc.followingSiblings loop) ∧
          Pragma.mentions after (doc.text x) := by
  by_cases hloop : doc.isKind loop .doLoop
  · refine ⟨_, Pragma.cleanAround_eq forest hloop before after, fun x hx ↦ ?_⟩
    exact (mem_append.mp hx).imp mem_filter.mp mem_filter.mp
  · exact ⟨[], if_neg hloop, forall_mem_nil _⟩

theorem Pragma.steps_cleanAround (forest : doc.Forest) {words : List String}
    (hbefore : ∀ x ∈ Pragma.foreignRun doc marker (doc.precedingSiblings loop).reverse,
      scope.inside x)
    (hafter : ∀ x ∈ Pragma.foreignRun doc marker (doc.followingSiblings loop),
      scope.inside x) :
    scope.Steps doc (Pragma.cleanAround doc marker loop words words) := by
  obtain ⟨doomed, hclean, hdoomed⟩ :=
    Pragma.cleanAround_eq_deleteAll forest marker loop words words
  rw [hclean]
  refine Scope.steps_deleteAll doc fun x hx ↦ ?_
  exact (hdoomed x hx).elim (fun h ↦ hbefore x h.1) fun h ↦ hafter x h.1

namespace Fusion

variable {first second : Fusion} {marker : String} {body extra : NodeId}

theorem nextLoop?_of_plan? {directive : PlacedDirective}
    (h : plan? doc directive = some first) :
    Target.nextLoop? doc directive.pragma = some first.loop := by
  obtain ⟨loop, hloop, rfl⟩ := Option.map_eq_some_iff.mp h
  exact hloop

def merged (doc : Document) (body extra : NodeId) : Document :=
  doc.appendAll body (doc.children extra)

theorem perform_eq_ok (h : perform marker doc first second = .ok after) :
    ∃ body extra, doc.childOf? first.loop .body = some body ∧
      doc.childOf? second.loop .body = some extra ∧
      after = (Pragma.cleanAround (merged doc body extra) marker second.loop loopWords
        loopWords).delete second.loop := by
  unfold perform at h
  split at h
  · next body extra hbody hextra =>
    obtain ⟨merged, hmerged, h⟩ := exists_of_bind_eq_ok h
    cases h
    unfold Loop.appendBody at hmerged
    split at hmerged
    · cases hmerged
      exact ⟨body, extra, hbody, hextra, rfl⟩
    · cases hmerged
  · cases h

theorem steps_merged (guards : scope.Guards doc) (hbody : scope.inside body)
    (hextra : scope.inside extra) : scope.Steps doc (merged doc body extra) :=
  Scope.steps_appendAll doc (fun _ hx ↦ guards.inside_of_mem_children hx hextra)
    fun _ _ ↦ Or.inl hbody

theorem siblings_merged (forest : doc.Forest) {parent : NodeId}
    (hfirst : doc.parent? first.loop = some parent)
    (hsecond : doc.parent? second.loop = some parent)
    (hbody : doc.childOf? first.loop .body = some body)
    (hextra : doc.childOf? second.loop .body = some extra) :
    ((merged doc body extra).precedingSiblings second.loop =
        doc.precedingSiblings second.loop ∧
      (merged doc body extra).followingSiblings second.loop =
        doc.followingSiblings second.loop) ∧
    ∀ x, doc.parent? x = some parent →
      (merged doc body extra).label x = doc.label x := by
  have hbodyParent := forest.parent?_of_childOf? hbody
  have hextraParent := forest.parent?_of_childOf? hextra
  -- Only what is below the two bodies is touched.
  let inner := Scope.subtrees doc [body, extra] []
  have guards : inner.Guards doc := Scope.guards_subtrees forest _ _
  have hsteps : inner.Steps doc (merged doc body extra) :=
    steps_merged guards
      (Scope.inside_subtrees forest (by simp) (contains_of_parent? hbodyParent))
      (Scope.inside_subtrees forest (by simp) (contains_of_parent? hextraParent))
  obtain ⟨hafter, hspares⟩ := Scope.Steps.guards_and_spares guards hsteps
  have hsibling {x : NodeId} (hx : doc.parent? x = some parent) : ¬ inner.inside x := by
    intro hin
    obtain ⟨root, hroot, hmem⟩ := (Scope.inside_subtrees_iff (contains_of_parent? hx)).mp hin
    rcases mem_pair.mp hroot with rfl | rfl
    · exact forest.not_mem_subtree_of_child hx hfirst hbodyParent hmem
    · exact forest.not_mem_subtree_of_child hx hsecond hextraParent hmem
  have hlive := contains_of_parent? hsecond
  have hparentLive := forest.contains_parent hsecond
  have hparentOut : ¬ inner.inside parent := fun hin ↦
    hsibling hsecond (guards.below hsecond hin)
  have hholder : ¬ inner.holder parent := by
    intro hmem
    obtain ⟨root, hroot, hparent⟩ := mem_filterMap.mp hmem
    rcases mem_pair.mp hroot with rfl | rfl
    · exact forest.parent_ne hfirst (Option.some.inj (hparent.symm.trans hbodyParent))
    · exact forest.parent_ne hsecond (Option.some.inj (hparent.symm.trans hextraParent))
  refine ⟨siblings_congr (hspares.parent? _ hlive (hsibling hsecond)) fun upper hupper ↦ ?_,
    fun x hx ↦ hspares.label x (contains_of_parent? hx) (hsibling hx)⟩
  rw [hsecond, Option.some.injEq] at hupper
  subst hupper
  exact hspares.children_eq guards hafter hparentLive hparentOut hholder (not_mem_nil)

theorem steps_perform (guards : scope.Guards doc) {parent : NodeId}
    (hfirst : doc.parent? first.loop = some parent)
    (hsecond : doc.parent? second.loop = some parent) (hin : scope.inside first.loop)
    (hinSecond : scope.inside second.loop)
    (hbefore : ∀ x ∈ Pragma.foreignRun doc marker
      (doc.precedingSiblings second.loop).reverse, scope.inside x)
    (hafter : ∀ x ∈ Pragma.foreignRun doc marker
      (doc.followingSiblings second.loop), scope.inside x)
    (h : perform marker doc first second = .ok after) : scope.Steps doc after := by
  obtain ⟨body, extra, hbody, hextra, rfl⟩ := perform_eq_ok h
  obtain ⟨⟨hpreceding, hfollowing⟩, hlabel⟩ :=
    siblings_merged guards.forest hfirst hsecond hbody hextra
  have hmerged : scope.Steps doc (merged doc body extra) :=
    steps_merged guards (guards.inside_of_mem_children (mem_children_of_childOf? hbody) hin)
      (guards.inside_of_mem_children (mem_children_of_childOf? hextra) hinSecond)
  have hsame {siblings : List NodeId}
      (hsiblings : ∀ x ∈ siblings, doc.parent? x = some parent) :
      Pragma.foreignRun (merged doc body extra) marker siblings =
        Pragma.foreignRun doc marker siblings :=
    Pragma.foreignRun_congr marker fun x hx ↦ hlabel x (hsiblings x hx)
  have hforest := (Scope.Steps.guards guards hmerged).forest
  refine (hmerged.trans (Pragma.steps_cleanAround hforest ?_ ?_)).tail
    (.delete _ second.loop hinSecond)
  · rw [hpreceding, hsame fun x hx ↦ guards.forest.parent?_of_mem_siblings hsecond
      (mem_append_left _ (mem_reverse.mp hx))]
    exact hbefore
  · rw [hfollowing, hsame fun x hx ↦ guards.forest.parent?_of_mem_siblings hsecond
      (by simp [hx])]
    exact hafter

end Fusion

end LoopDirectives
