import Mathlib.Data.List.Induction
import LoopDirectives.Proofs.Sample
import LoopDirectives.Proofs.Transformation.Steps

/-!
# What a demotion that keeps dimensions does

Dropping the dimensions of a reference deletes indices of that reference only. The invariant of
going through the references is therefore an equation: what is left after some of them is the
document without their dropped indices. All references are looked at before the first index is
dropped, but one of them can go away with a dropped index of another. Document order has the outer
one before the inner one, so the inner one is then found gone: the demotion fails with the
references before it demoted (`perform_of_kept`).
-/

namespace LoopDirectives

open Document List

variable {doc after : Document} {kept : List Nat} {reference pragma : NodeId}

/-! ### One reference -/

namespace Reference

def InRank (doc : Document) (kept : List Nat) (reference : NodeId) : Prop :=
  doc.isKind reference .arrayReference = true ∧
    ∀ position ∈ kept, 1 ≤ position ∧ position ≤ (indices doc reference).length

def retained (doc : Document) (kept : List Nat) (reference : NodeId) : List NodeId :=
  ((indices doc reference).zipIdx.filter fun entry ↦ kept.contains (entry.2 + 1)).map
    Prod.fst

theorem checkKept_eq_ok_iff :
    checkKept doc kept reference = .ok () ↔ InRank doc kept reference := by
  unfold checkKept InRank
  split
  · next hkind =>
    dsimp only
    split
    · next hnone =>
      refine iff_of_true rfl ⟨hkind, fun position hposition ↦ ?_⟩
      have hfits := find?_eq_none.mp hnone position hposition
      simp only [Bool.or_eq_true, beq_iff_eq, decide_eq_true_eq, not_or] at hfits
      omega
    · next position hsome =>
      refine iff_of_false (by simp) fun h ↦ ?_
      have hfits := h.2 position (mem_of_find?_eq_some hsome)
      have hfails := find?_some hsome
      simp only [Bool.or_eq_true, beq_iff_eq, decide_eq_true_eq] at hfails
      omega
  · next hkind => exact iff_of_false (by simp) fun h ↦ hkind h.1

theorem keep_of_inRank (h : InRank doc kept reference) :
    keep doc kept reference =
      .ok (doc.deleteAll (dropped doc kept reference)) := by
  rw [keep, checkKept_eq_ok_iff.mpr h]
  rfl

theorem keep_of_stale (h : doc.contains reference = false) :
    keep doc kept reference = .error (.notAnArrayReference "") := by
  have hlabel : doc.label reference = Label.blank := by
    rw [label, contains_eq_false_iff.mp h]
    rfl
  have hkind : doc.isKind reference .arrayReference = false := by
    rw [isKind, kind, hlabel]
    decide
  have hcheck : checkKept doc kept reference = .error (.notAnArrayReference "") := by
    simp [checkKept, hkind, tag, hlabel, Label.blank]
  rw [keep, hcheck]
  rfl

theorem filter_notMem_dropped (forest : doc.Forest) (kept : List Nat) (reference : NodeId) :
    (indices doc reference).filter (· ∉ dropped doc kept reference) =
      retained doc kept reference := by
  have hnodup : (indices doc reference).Nodup := (forest.nodup_children reference).filter _
  unfold dropped retained
  generalize indices doc reference = indices at hnodup ⊢
  conv_lhs => rhs; rw [← zipIdx_map_fst 0 indices]
  rw [filter_map]
  congr 1
  refine filter_congr fun entry hentry ↦ ?_
  rw [Function.comp_apply, decide_not, ← Bool.not_not (kept.contains (entry.2 + 1))]
  congr 1
  rw [Bool.eq_iff_iff, decide_eq_true_eq, mem_map]
  constructor
  · rintro ⟨other, hother, heq⟩
    -- Without repetitions an index has one position only.
    obtain ⟨hmem, hdropped⟩ := mem_filter.mp hother
    have hposition : other.2 = entry.2 := by
      rw [mem_zipIdx_iff_getElem?] at hentry hmem
      exact (getElem?_inj (List.getElem?_eq_some_iff.mp hmem).1 hnodup).mp
        (hmem.trans (heq ▸ hentry.symm))
    rwa [hposition] at hdropped
  · exact fun hdropped ↦ ⟨entry, mem_filter.mpr ⟨hentry, hdropped⟩, rfl⟩

theorem indices_of_pruned {ids : List NodeId} (pruned : Pruned doc after ids)
    (hlive : after.contains reference) :
    indices after reference = (indices doc reference).filter (· ∉ ids) := by
  rw [indices, indices, childrenOf, childrenOf, pruned.children_eq reference hlive,
    filter_filter, filter_filter]
  refine filter_congr fun child hchild ↦ ?_
  by_cases hkept : child ∈ ids
  · simp [hkept]
  · have hchild : child ∈ after.children reference := by simp [pruned.children_eq, *]
    simp only [kind, pruned.label_eq child (pruned.forest.contains_child hchild), Bool.and_comm]

theorem mem_subtree_of_dropped (forest : doc.Forest) {index x : NodeId}
    (hindex : index ∈ dropped doc kept reference) (h : x ∈ doc.subtree index) :
    x ∈ doc.subtree reference :=
  forest.mem_subtree_trans h
    (forest.mem_subtree_of_mem_children (mem_children_of_mem_dropped hindex))

end Reference

/-! ### One reference after the other -/

namespace Demotion

open Reference

def drops (doc : Document) (kept : List Nat) (references : List NodeId) : List NodeId :=
  references.flatMap (dropped doc kept)

/-- The inner reference is inside of an index that the outer one is to lose. -/
def Loses (doc : Document) (kept : List Nat) (outer inner : NodeId) : Prop :=
  ∃ index ∈ dropped doc kept outer, inner ∈ doc.subtree index

theorem keepAll_append_singleton (doc : Document) (kept : List Nat) (done : List NodeId)
    (reference : NodeId) : keepAll doc kept (done ++ [reference]) =
      match keepAll doc kept done with
      | { state, result := .ok _ } => .ofExcept state (keep state kept reference)
      | failed => failed := by
  induction done generalizing doc with
  | nil =>
    simp only [nil_append, keepAll]
    cases keep doc kept reference <;> rfl
  | cons first rest ih =>
    rw [cons_append, keepAll, keepAll]
    cases keep doc kept first with
    | error cause => rfl
    | ok reduced => exact ih reduced

section Going

variable {done references : List NodeId} (forest : doc.Forest)
include forest

theorem contains_deleteAll_drops_iff (hlive : doc.contains reference) :
    (doc.deleteAll (drops doc kept done)).contains reference ↔
      ∀ outer ∈ done, ¬ Loses doc kept outer reference := by
  rw [(forest.pruned_deleteAll _).contains_iff, and_iff_right hlive]
  constructor
  · rintro h outer houter ⟨index, hindex, hmem⟩
    exact h index (mem_flatMap.mpr ⟨outer, houter, hindex⟩) hmem
  · intro h index hindex hmem
    obtain ⟨outer, houter, hdropped⟩ := mem_flatMap.mp hindex
    exact h outer houter ⟨index, hdropped, hmem⟩

theorem mem_drops_iff {index : NodeId} (hchild : index ∈ doc.children reference) :
    index ∈ drops doc kept done ↔
      reference ∈ done ∧ index ∈ dropped doc kept reference := by
  refine mem_flatMap.trans ⟨?_, fun h ↦ ⟨reference, h⟩⟩
  rintro ⟨owner, howner, hdropped⟩
  have hparent := forest.parent?_of_mem (mem_children_of_mem_dropped hdropped)
  cases (forest.parent?_of_mem hchild).symm.trans hparent
  exact ⟨howner, hdropped⟩

theorem indices_deleteAll_drops (hother : reference ∉ done)
    (hlive : (doc.deleteAll (drops doc kept done)).contains reference) :
    indices (doc.deleteAll (drops doc kept done)) reference =
      indices doc reference := by
  rw [indices_of_pruned (forest.pruned_deleteAll _) hlive, filter_eq_self]
  intro index hindex
  simp [mem_drops_iff forest (mem_of_mem_filter hindex), hother]

theorem keep_deleteAll_drops (hother : reference ∉ done)
    (hlive : doc.contains reference) (hrank : InRank doc kept reference)
    (hkept : ∀ outer ∈ done, ¬ Loses doc kept outer reference) :
    keep (doc.deleteAll (drops doc kept done)) kept reference =
      .ok (doc.deleteAll (drops doc kept (done ++ [reference]))) := by
  have hstill := (contains_deleteAll_drops_iff forest hlive).mpr hkept
  have hindices := indices_deleteAll_drops forest hother hstill
  have hkind : (doc.deleteAll (drops doc kept done)).isKind reference .arrayReference =
      doc.isKind reference .arrayReference := by
    rw [isKind, isKind, kind, kind, (forest.pruned_deleteAll _).label_eq reference hstill]
  have hdropped : dropped (doc.deleteAll (drops doc kept done)) kept reference =
      dropped doc kept reference := by
    rw [dropped, dropped, hindices]
  rw [keep_of_inRank ⟨hkind.trans hrank.1, hindices.symm ▸ hrank.2⟩, hdropped]
  rw [← deleteAll_append, drops, drops, flatMap_append, flatMap_singleton]

theorem keepAll_run (hlive : ∀ reference ∈ references, doc.contains reference)
    (hrank : ∀ reference ∈ references, InRank doc kept reference)
    (hnodup : references.Nodup) :
    (keepAll doc kept references =
        { state := doc.deleteAll (drops doc kept references) } ∧
      references.Pairwise (¬ Loses doc kept · ·)) ∨
    ∃ done stale later, references = done ++ stale :: later ∧
      (∃ outer ∈ done, Loses doc kept outer stale) ∧
      keepAll doc kept references =
        { state := doc.deleteAll (drops doc kept done)
          result := .error (.notAnArrayReference "") } := by
  induction references using List.reverseRecOn with
  | nil => exact Or.inl ⟨rfl, .nil⟩
  | append_singleton done reference ih =>
    obtain ⟨hlive, hreference⟩ := forall_mem_append.mp hlive
    obtain ⟨hrank, hlast⟩ := forall_mem_append.mp hrank
    obtain ⟨hnodup, -, hother⟩ := nodup_append.mp hnodup
    rw [keepAll_append_singleton]
    rcases ih hlive hrank hnodup with ⟨heq, hall⟩ | ⟨first, stale, later, rfl, hloses, heq⟩
    · rw [heq]
      by_cases hkept : ∀ outer ∈ done, ¬ Loses doc kept outer reference
      · have hkeep := keep_deleteAll_drops forest (fun hmem ↦ hother _ hmem _ (by simp) rfl)
          (hreference _ (by simp)) (hlast _ (by simp)) hkept
        exact Or.inl ⟨congrArg (Outcome.ofExcept _) hkeep,
          pairwise_append.mpr ⟨hall, pairwise_singleton .., by simpa using hkept⟩⟩
      · have hstale : (doc.deleteAll (drops doc kept done)).contains reference =
            false := by
          rwa [← Bool.not_eq_true, contains_deleteAll_drops_iff forest (hreference _ (by simp))]
        push Not at hkept
        exact Or.inr ⟨done, reference, [], rfl, hkept,
          congrArg (Outcome.ofExcept _) (keep_of_stale hstale)⟩
    · rw [heq]
      exact Or.inr ⟨first, stale, later ++ [reference], by simp, hloses, rfl⟩

end Going

/-! ### The region -/

variable {marker : String} {directive : PlacedDirective} {demotion : Demotion}

/-- Every kept position is a dimension of every reference, and there is a reference. -/
def Fits (doc : Document) (pragma : NodeId) (demotion : Demotion) : Prop :=
  demotion.references doc pragma ≠ [] ∧
    ∀ reference ∈ demotion.references doc pragma, ∀ position ∈ demotion.kept,
      position ≤ (indices doc reference).length

/-- One of the references is inside of an index that another one is to lose. -/
def Swallows (doc : Document) (pragma : NodeId) (demotion : Demotion) : Prop :=
  ∃ outer ∈ demotion.references doc pragma, ∃ inner ∈ demotion.references doc pragma,
    ∃ index ∈ dropped doc demotion.kept outer, inner ∈ doc.subtree index

/-- What a demotion leaves that succeeds: the references with their kept indices in their order, no
end of the region, and the rest as it was. -/
structure Reduced (demotion : Demotion) (pragma : NodeId) (before after : Document) : Prop where
  state_eq : after = before.deleteAll
    (drops before demotion.kept (demotion.references before pragma) ++ [demotion.closing])
  contains_closing : after.contains demotion.closing = false
  contains_reference : ∀ reference ∈ demotion.references before pragma,
    after.contains reference = true
  indices_eq : ∀ reference ∈ demotion.references before pragma,
    indices after reference = retained before demotion.kept reference

/-- What a demotion leaves that ends at a reference that went away with an index of another one:
the references before it have lost their indices, and the region is still closed. -/
structure Interrupted (demotion : Demotion) (pragma : NodeId) (before after : Document)
    (done : List NodeId) (stale : NodeId) : Prop where
  opening : done ++ [stale] <+: demotion.references before pragma
  state_eq : after = before.deleteAll (drops before demotion.kept done)
  contains_stale : before.contains stale = true ∧ after.contains stale = false
  contains_closing : after.contains demotion.closing = true

theorem one_le_of_mapM_position? {texts : List String} (h : texts.mapM position? = some kept) :
    ∀ position ∈ kept, 1 ≤ position := by
  induction texts generalizing kept with
  | nil =>
    cases h
    exact fun position hposition ↦ absurd hposition not_mem_nil
  | cons text texts ih =>
    rw [mapM_cons] at h
    obtain ⟨first, hfirst, h⟩ := Option.bind_eq_some_iff.mp h
    obtain ⟨rest, hrest, h⟩ := Option.bind_eq_some_iff.mp h
    cases h
    refine forall_mem_cons.mpr ⟨?_, ih hrest⟩
    simpa using (Option.filter_eq_some_iff.mp hfirst).2

theorem one_le_of_plan? (h : plan? marker doc directive = some demotion) :
    ∀ position ∈ demotion.kept, 1 ≤ position := by
  obtain ⟨array, -, h⟩ := Option.bind_eq_some_iff.mp h
  obtain ⟨kept, hkept, h⟩ := Option.bind_eq_some_iff.mp h
  obtain ⟨closing, -, h⟩ := Option.bind_eq_some_iff.mp h
  cases h
  exact one_le_of_mapM_position? hkept

theorem isKind_of_mem_references (h : reference ∈ demotion.references doc pragma) :
    doc.isKind reference .arrayReference := by
  obtain ⟨sibling, -, hreference⟩ := mem_flatMap.mp h
  exact (mem_of_mem_arraysBelow hreference).2

theorem fits_iff (hplan : plan? marker doc directive = some demotion) :
    demotion.Fits doc directive.pragma ↔
      demotion.references doc directive.pragma ≠ [] ∧
        ∀ reference ∈ demotion.references doc directive.pragma,
          InRank doc demotion.kept reference :=
  and_congr_right fun _ ↦ forall₂_congr fun _ hreference ↦
    ⟨fun h ↦ ⟨isKind_of_mem_references hreference, fun position hposition ↦
      ⟨one_le_of_plan? hplan position hposition, h position hposition⟩⟩,
    fun h position hposition ↦ (h.2 position hposition).2⟩

theorem checkAll_eq_ok_iff {references : List NodeId} :
    checkAll doc kept references = .ok () ↔
      ∀ reference ∈ references, InRank doc kept reference := by
  induction references with
  | nil => simp [checkAll]
  | cons reference rest ih =>
    rw [forall_mem_cons, ← checkKept_eq_ok_iff, ← ih, checkAll]
    cases checkKept doc kept reference with
    | error cause => exact iff_of_false nofun fun h ↦ nomatch h.1
    | ok _ => exact (and_iff_right rfl).symm

theorem perform_of_fits (hplan : plan? marker doc directive = some demotion)
    (hkept : demotion.kept ≠ []) (hfits : demotion.Fits doc directive.pragma) :
    demotion.perform doc directive.pragma = demotion.finish
      (keepAll doc demotion.kept (demotion.references doc directive.pragma)) := by
  obtain ⟨hsome, hrank⟩ := (fits_iff hplan).mp hfits
  simp [perform, hsome, checkAll_eq_ok_iff.mpr hrank, hkept]

theorem perform_of_not_fits (hplan : plan? marker doc directive = some demotion)
    (hfits : ¬ demotion.Fits doc directive.pragma) :
    ∃ cause, demotion.perform doc directive.pragma =
      { state := doc, result := .error cause } := by
  rw [fits_iff hplan, not_and] at hfits
  rw [perform]
  split
  · exact ⟨_, rfl⟩
  · next hsome =>
    split
    · exact ⟨_, rfl⟩
    · next hcheck =>
      exact absurd (checkAll_eq_ok_iff.mp hcheck) (hfits (by simpa using hsome))

section Region

variable {later : List NodeId} (forest : doc.Forest)
include forest

theorem pairwise_references (pragma : NodeId) (demotion : Demotion) :
    (demotion.references doc pragma).Pairwise fun first second ↦
      first ∉ doc.subtree second := by
  cases hparent : doc.parent? pragma with
  | none =>
    rw [references, Siblings.between, followingSiblings_of_parent?_eq_none hparent]
    exact List.Pairwise.nil
  | some parent =>
    have hsiblings : ∀ x ∈ Siblings.between doc pragma demotion.closing,
        doc.parent? x = some parent := fun x hx ↦
      forest.parent?_of_mem_siblings hparent (by simp [Siblings.mem_of_mem_between hx])
    refine forest.pairwise_flatMap_of_siblings hsiblings
      ((takeWhile_sublist _).nodup (forest.nodup_followingSiblings pragma))
      (fun x _ y hy ↦ (forest.descendants_sublist _).subset (mem_of_mem_arraysBelow hy).1)
      fun x _ ↦ ?_
    exact ((forest.pairwise_subtree x).sublist (forest.descendants_sublist _)).filter _ |>.filter _

section

variable (hclosing : demotion.closing ∈ doc.followingSiblings pragma)

include hclosing

theorem closing_apart (h : reference ∈ demotion.references doc pragma) :
    doc.Apart demotion.closing reference := by
  obtain ⟨sibling, hsibling, hne, habove⟩ := exists_above_of_mem_references forest h
  obtain ⟨parent, hparent, hclosingParent⟩ :=
    forest.exists_parent?_of_mem_siblings (Or.inr hclosing)
  have hsiblingParent := forest.parent?_of_mem_siblings hparent (y := sibling) (by simp [hsibling])
  have hbelow : reference ∈ doc.subtree sibling :=
    forest.mem_subtree_of_above habove
  exact (forest.apart_of_parent? hclosingParent hsiblingParent hne.symm).of_mem_subtree forest
    (forest.self_mem_subtree _) hbelow

theorem reduced_of_not_swallows (hswallows : ¬ demotion.Swallows doc pragma)
    (hafter : after = doc.deleteAll
      (drops doc demotion.kept (demotion.references doc pragma) ++
        [demotion.closing])) : demotion.Reduced pragma doc after := by
  have pruned : Pruned doc after _ := hafter ▸ forest.pruned_deleteAll _
  have hlive : ∀ reference ∈ demotion.references doc pragma,
      after.contains reference := by
    intro reference h
    obtain ⟨sibling, -, -, habove⟩ := exists_above_of_mem_references forest h
    refine (pruned.contains_iff reference).mpr ⟨habove.contains, fun id hid hmem ↦ ?_⟩
    rcases mem_append.mp hid with hdropped | hid
    · obtain ⟨outer, houter, hindex⟩ := mem_flatMap.mp hdropped
      exact hswallows ⟨outer, houter, reference, h, id, hindex, hmem⟩
    · cases mem_singleton.mp hid
      exact (closing_apart forest hclosing h).2 hmem
  refine ⟨hafter, pruned.not_contains forest (by simp), hlive, fun reference h ↦ ?_⟩
  rw [indices_of_pruned pruned (hlive reference h), ← filter_notMem_dropped forest]
  refine filter_congr fun index hindex ↦ ?_
  have hchild : index ∈ doc.children reference := mem_of_mem_filter hindex
  have hne : index ≠ demotion.closing := by
    rintro rfl
    exact (closing_apart forest hclosing h).1 (forest.mem_subtree_of_mem_children hchild)
  rw [decide_eq_decide, not_iff_not, mem_append, mem_singleton, or_iff_left hne,
    mem_drops_iff forest hchild, and_iff_right h]

theorem interrupted_of_stale {done : List NodeId} {stale : NodeId}
    (hsplit : demotion.references doc pragma = done ++ stale :: later)
    (hloses : ∃ outer ∈ done, Loses doc demotion.kept outer stale) :
    demotion.Interrupted pragma doc
      (doc.deleteAll (drops doc demotion.kept done)) done stale := by
  have hmem {x : NodeId} (hx : x ∈ done ++ [stale]) :
      x ∈ demotion.references doc pragma := by
    rw [hsplit]
    exact (append_sublist_append_left done).mpr (by simp) |>.subset hx
  obtain ⟨sibling, -, -, habove⟩ :=
    exists_above_of_mem_references forest (hmem (mem_append_right _ mem_cons_self))
  refine ⟨⟨later, by simp [hsplit]⟩, rfl, ⟨habove.contains, ?_⟩, ?_⟩
  · rw [← Bool.not_eq_true, contains_deleteAll_drops_iff forest habove.contains]
    push Not
    exact hloses
  · obtain ⟨parent, -, hparent⟩ := forest.exists_parent?_of_mem_siblings (Or.inr hclosing)
    rw [contains_deleteAll_drops_iff forest (contains_of_parent? hparent)]
    rintro outer houter ⟨index, hindex, hbelow⟩
    exact (closing_apart forest hclosing (hmem (mem_append_left _ houter))).1
      (mem_subtree_of_dropped forest hindex hbelow)

end

/-- A demotion that keeps dimensions and whose plan fits demotes all references or those before
the first one that went away with an index of another. -/
theorem keepAll_references (hplan : plan? marker doc directive = some demotion)
    (hfits : demotion.Fits doc directive.pragma) :
    (¬ demotion.Swallows doc directive.pragma ∧
      keepAll doc demotion.kept (demotion.references doc directive.pragma) =
        { state := doc.deleteAll
            (drops doc demotion.kept (demotion.references doc directive.pragma)) }) ∨
    (demotion.Swallows doc directive.pragma ∧ ∃ done stale later,
      demotion.references doc directive.pragma = done ++ stale :: later ∧
      (∃ outer ∈ done, Loses doc demotion.kept outer stale) ∧
      keepAll doc demotion.kept (demotion.references doc directive.pragma) =
        { state := doc.deleteAll (drops doc demotion.kept done)
          result := .error (.notAnArrayReference "") }) := by
  have hlive : ∀ reference ∈ demotion.references doc directive.pragma,
      doc.contains reference := fun reference hreference ↦ by
    obtain ⟨sibling, -, -, habove⟩ := exists_above_of_mem_references forest hreference
    exact habove.contains
  have horder := pairwise_references forest directive.pragma demotion
  have hnodup : (demotion.references doc directive.pragma).Nodup := by
    refine horder.imp ?_
    rintro first _ hbelow rfl
    exact hbelow (forest.self_mem_subtree first)
  rcases keepAll_run forest hlive ((fits_iff hplan).mp hfits).2 hnodup with
    ⟨heq, hkept⟩ | ⟨done, stale, later, hsplit, hloses, heq⟩
  · refine Or.inl ⟨?_, heq⟩
    rintro ⟨outer, houter, inner, hinner, index, hindex, hmem⟩
    -- None of the references is inside of itself or of one that comes after it.
    refine (hkept.forall_of_forall_of_flip (fun reference _ ↦ ?_) (horder.imp ?_)) houter hinner
      ⟨index, hindex, hmem⟩
    · rintro ⟨index, hindex, hmem⟩
      exact forest.not_mem_subtree_of_parent?
        (forest.parent?_of_mem (mem_children_of_mem_dropped hindex)) hmem
    · rintro first second hbelow ⟨index, hindex, hmem⟩
      exact hbelow (mem_subtree_of_dropped forest hindex hmem)
  · refine Or.inr ⟨?_, done, stale, later, hsplit, hloses, heq⟩
    obtain ⟨outer, houter, hinside⟩ := hloses
    rw [Swallows, hsplit]
    exact ⟨outer, mem_append_left _ houter, stale, by simp, hinside⟩

end Region

/-- A demotion that keeps dimensions succeeds if there are references, every kept position is a
dimension of each of them, and none of them is inside of an index that another one is to lose. If it
fails the document is as before, unless only the last of these conditions is not met: then the
references before the first one that went away have been demoted. -/
theorem perform_of_kept (forest : doc.Forest)
    (hplan : plan? marker doc directive = some demotion) (hkept : demotion.kept ≠ [])
    {outcome : Outcome Document}
    (hperform : demotion.perform doc directive.pragma = outcome) :
    (outcome.isOk = true ↔ demotion.Fits doc directive.pragma ∧
      ¬ demotion.Swallows doc directive.pragma) ∧
    (outcome.isOk = true → demotion.Reduced directive.pragma doc outcome.state) ∧
    (outcome.isOk = false →
      (outcome.state ≠ doc ↔ demotion.Fits doc directive.pragma) ∧
      (outcome.state ≠ doc → ∃ done stale,
        demotion.Interrupted directive.pragma doc outcome.state done stale)) := by
  have hclosing := mem_of_plan? hplan
  by_cases hfits : demotion.Fits doc directive.pragma
  swap
  · obtain ⟨cause, hfails⟩ := perform_of_not_fits hplan hfits
    rw [hfails] at hperform
    subst hperform
    exact ⟨iff_of_false nofun fun h ↦ hfits h.1, nofun,
      fun _ ↦ ⟨iff_of_false (not_not.mpr rfl) hfits, fun h ↦ absurd rfl h⟩⟩
  rw [perform_of_fits hplan hkept hfits] at hperform
  rcases keepAll_references forest hplan hfits with
    ⟨hswallows, heq⟩ | ⟨hswallows, done, stale, later, hsplit, hinside, heq⟩
  · rw [heq] at hperform
    subst hperform
    refine ⟨iff_of_true rfl ⟨hfits, hswallows⟩, fun _ ↦ ?_, nofun⟩
    exact reduced_of_not_swallows forest hclosing hswallows
      (deleteAll_append doc _ [demotion.closing]).symm
  · rw [heq] at hperform
    subst hperform
    have interrupted := interrupted_of_stale forest hclosing hsplit hinside
    refine ⟨iff_of_false nofun fun h ↦ h.2 hswallows, nofun,
      fun _ ↦ ⟨iff_of_true (fun hstate ↦ ?_) hfits, fun _ ↦ ⟨done, stale, interrupted⟩⟩⟩
    have hstale := interrupted.contains_stale
    rw [show doc.deleteAll (drops doc demotion.kept done) = doc from hstate,
      hstale.1] at hstale
    cases hstale.2

/-- The statement `t(t(i, 1), j) = 1` in a region in which `t` is demoted. -/
def nestedReferences : Document :=
  let reference (first second : Element) : Element :=
    .arrayRef "t" [.branch "arrayIndex" [first], .branch "arrayIndex" [second]]
  (ofElement (.branch "body"
    [.pragma "lsm demote",
     .branch "FassignStatement" [reference (reference (.var "i") (.int "1")) (.var "j"), .int "1"],
     .pragma "lsm end demote"])).1

def nestedReferencesDirective (position : String) : PlacedDirective :=
  { keyword := "demote", clauses := [{ name := "array", arguments := ["t"] },
      { name := "keep", arguments := [position] }], pragma := ⟨1⟩, line := 2 }

def nestedReferencesPlan (position : Nat) : Demotion :=
  { array := "t", kept := [position], closing := ⟨17⟩ }

/-- Keeping the first dimension keeps the inner reference too, keeping the second one does not. -/
theorem perform_of_kept_nestedReferences :
    (nestedReferencesPlan 1).Reduced ⟨1⟩ nestedReferences
        ((nestedReferencesPlan 1).perform nestedReferences ⟨1⟩).state ∧
      ((nestedReferencesPlan 2).perform nestedReferences ⟨1⟩).isOk = false ∧
      ∃ done stale, (nestedReferencesPlan 2).Interrupted ⟨1⟩ nestedReferences
        ((nestedReferencesPlan 2).perform nestedReferences ⟨1⟩).state done stale := by
  have forest : nestedReferences.Forest := forest_ofElement _
  have hfirst : plan? "lsm" nestedReferences (nestedReferencesDirective "1") =
      some (nestedReferencesPlan 1) := by decide +kernel
  have hsecond : plan? "lsm" nestedReferences (nestedReferencesDirective "2") =
      some (nestedReferencesPlan 2) := by decide +kernel
  have hfails : ((nestedReferencesPlan 2).perform nestedReferences ⟨1⟩).isOk = false := by
    decide +kernel
  have hfits : (nestedReferencesPlan 2).Fits nestedReferences ⟨1⟩ := by
    unfold Fits
    decide +kernel
  obtain ⟨hchanged, hinterrupted⟩ :=
    (perform_of_kept forest hsecond (List.cons_ne_nil _ _) rfl).2.2 hfails
  exact ⟨(perform_of_kept forest hfirst (List.cons_ne_nil _ _) rfl).2.1 (by decide +kernel),
    hfails, hinterrupted (hchanged.mpr hfits)⟩

end Demotion

end LoopDirectives
