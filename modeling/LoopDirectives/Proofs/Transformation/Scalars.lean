import LoopDirectives.Proofs.Reference
import LoopDirectives.Proofs.Transformation.Demotion

/-!
# What a demotion to bare variables does

References inside of one that is replaced go away with it. Document order has the outer one before
the inner one, so the inner one is then passed over, and going through all references replaces the
outermost ones and nothing else (`Demotion.grafted_toScalars`). The invariant is that the nodes
replaced so far are apart and that each reference met so far is below one of them.
-/

namespace LoopDirectives

open Document List

variable {doc before after : Document} {reference parent var pragma x : NodeId}

/-! ### One reference after the other -/

namespace Demotion

open Reference

variable {demotion : Demotion} {done references : List NodeId} {pairs : List (NodeId × NodeId)}
  {rename : NodeId → NodeId}

/-- What a document shows after going through references: some of them have been replaced by their
variables, and the others were below these. -/
structure Grafted (before after : Document) (done : List NodeId) (pairs : List (NodeId × NodeId))
    (rename : NodeId → NodeId) : Prop extends Substituted before after pairs rename where
  hung : before.Hung (pairs.map Prod.fst)
  mem_done : ∀ pair ∈ pairs, pair.1 ∈ done
  source : ∀ pair ∈ pairs, varOf? before pair.1 = some pair.2
  covered : ∀ reference ∈ done, ∃ pair ∈ pairs, reference ∈ before.subtree pair.1

theorem toScalars_append_singleton (doc : Document) (done : List NodeId)
    (reference : NodeId) : toScalars doc (done ++ [reference]) =
      ((toScalar? (toScalars doc done) reference).map Prod.fst).getD
        (toScalars doc done) := by
  rw [toScalars, foldl_append, foldl_cons, foldl_nil, ← toScalars]
  cases toScalar? (toScalars doc done) reference <;> rfl

theorem Grafted.step (grafted : Grafted doc (toScalars doc done) done pairs rename)
    (forest : doc.Forest) (hparent : doc.parent? reference = some parent)
    (hvar : varOf? doc reference = some var)
    (horder : ∀ earlier ∈ done, earlier ∉ doc.subtree reference) :
    ∃ pairs rename, Grafted doc (toScalars doc (done ++ [reference]))
      (done ++ [reference]) pairs rename := by
  have hlive := contains_of_parent? hparent
  rw [toScalars_append_singleton]
  by_cases hbelow : ∃ pair ∈ pairs, reference ∈ doc.subtree pair.1
  · -- The reference went away with one around it.
    have hstale : (toScalars doc done).contains reference = false := by
      rw [Bool.eq_false_iff]
      intro hcontains
      obtain ⟨pair, hpair, hmem⟩ := hbelow
      exact (grafted.clear reference (index_lt_size hlive) hcontains).2 pair.1
        (mem_map_of_mem hpair) hmem
    have hnone : toScalar? (toScalars doc done) reference = none := by
      simp [toScalar?, varOf?_of_stale hstale]
    rw [hnone]
    exact ⟨pairs, rename, grafted.toSubstituted, grafted.hung,
      fun pair hpair ↦ mem_append_left _ (grafted.mem_done pair hpair), grafted.source,
      forall_mem_append.mpr ⟨grafted.covered, by simpa using hbelow⟩⟩
  · have hapart : ∀ part ∈ pairs.map Prod.fst, doc.Apart reference part := by
      intro part hpart
      obtain ⟨pair, hpair, rfl⟩ := mem_map.mp hpart
      exact ⟨fun hmem ↦ hbelow ⟨pair, hpair, hmem⟩, horder _ (grafted.mem_done pair hpair)⟩
    have hhung := hung_singleton hparent
    have hclear : doc.Clear (pairs.map Prod.fst) reference :=
      ⟨hlive, fun part hpart ↦ (hapart part hpart).1⟩
    obtain ⟨after, hafter, substituted⟩ := substituted_toScalar? grafted.forest
      (varOf?_of_recast forest hvar grafted.toRecast hlive hapart)
      ((grafted.parent? reference hclear).trans hparent)
    rw [hafter]
    refine ⟨pairs ++ [(reference, var)], _, grafted.toSubstituted.trans substituted forest
      grafted.hung hhung (by simpa using hapart) ?_, ?_,
      forall_mem_append.mpr ⟨fun pair hpair ↦ ?_, by simp⟩,
      forall_mem_append.mpr ⟨grafted.source, by simpa using hvar⟩,
      forall_mem_append.mpr ⟨fun earlier hearlier ↦ ?_, ?_⟩⟩
    · obtain ⟨hvarLive, hmem⟩ := mem_subtree_of_varOf? forest hvar
      intro other hother
      cases mem_singleton.mp hother
      exact ⟨hvarLive, fun part hpart ↦
        (hapart part hpart).of_mem_subtree forest hmem (forest.self_mem_subtree part)⟩
    · rw [map_append]
      exact hung_append_iff.mpr ⟨grafted.hung, hhung, by simpa using hapart⟩
    · exact mem_append_left _ (grafted.mem_done pair hpair)
    · obtain ⟨pair, hpair, hmem⟩ := grafted.covered earlier hearlier
      exact ⟨pair, mem_append_left _ hpair, hmem⟩
    · simpa using Or.inr (forest.self_mem_subtree reference)

/-- Assumes: hanging references to variables, in document order. All become scalars. -/
theorem grafted_toScalars (forest : doc.Forest)
    (horder : references.Pairwise fun first second ↦ first ∉ doc.subtree second)
    (hvars : ∀ reference ∈ references, ∃ parent var,
      doc.parent? reference = some parent ∧ varOf? doc reference = some var) :
    ∃ pairs rename,
      Grafted doc (toScalars doc references) references pairs rename := by
  induction references using List.reverseRecOn with
  | nil => exact ⟨[], id, ⟨forest.recast_nil, fun x _ hx ↦ ⟨hx, by simp⟩, by simp⟩,
      ⟨by simp, List.Pairwise.nil⟩, by simp, by simp, by simp⟩
  | append_singleton done reference ih =>
    obtain ⟨hdone, -, hlast⟩ := pairwise_append.mp horder
    obtain ⟨parent, var, hparent, hvar⟩ := hvars reference (by simp)
    obtain ⟨pairs, rename, grafted⟩ := ih hdone fun earlier hearlier ↦
      hvars earlier (mem_append_left _ hearlier)
    exact grafted.step forest hparent hvar fun earlier hearlier ↦
      hlast earlier hearlier reference (mem_singleton_self _)

/-! ### The region -/

def InRegion (doc : Document) (pragma : NodeId) (demotion : Demotion) (x : NodeId) : Prop :=
  isTo doc demotion.array x = true ∧
    ∃ statement ∈ Siblings.between doc pragma demotion.closing, doc.Above statement x

def Outermost (doc : Document) (pragma : NodeId) (demotion : Demotion) (x : NodeId) : Prop :=
  demotion.InRegion doc pragma x ∧
    ∀ upper, demotion.InRegion doc pragma upper → ¬ doc.Above upper x

/-- What a demotion to bare variables leaves. The nodes that are neither in the end of the region
nor in an outermost reference are kept as they were. In the place of each outermost reference stands
a copy of its variable, and nothing else is new. -/
structure Bared (demotion : Demotion) (pragma : NodeId) (before after : Document)
    (rename : NodeId → NodeId) : Prop where
  contains_iff : ∀ x, x.index < before.slots.size → (after.contains x = true ↔
    before.contains x = true ∧ x ∉ before.subtree demotion.closing ∧
      ∀ reference, demotion.Outermost before pragma reference → x ∉ before.subtree reference)
  kept : ∀ x, x.index < before.slots.size → after.contains x = true →
    after.label x = before.label x ∧ after.parent? x = before.parent? x ∧
      after.children x = ((before.children x).filter (· ≠ demotion.closing)).map rename
  rename_of_not : ∀ x, ¬ demotion.Outermost before pragma x → rename x = x
  bare : ∀ reference, demotion.Outermost before pragma reference →
    before.slots.size ≤ (rename reference).index ∧
      ∃ var, varOf? before reference = some var ∧
        after.element (rename reference) = before.element var
  new_below : ∀ x, before.slots.size ≤ x.index → after.contains x = true →
    ∃ reference, demotion.Outermost before pragma reference ∧
      x ∈ after.subtree (rename reference)
  indices_eq : ∀ x, x.index < before.slots.size → after.contains x = true →
    indices after x = indices before x

theorem exists_varOf?_of_isTo {array : String} (h : isTo doc array x) :
    doc.isKind x .arrayReference ∧ ∃ var, varOf? doc x = some var := by
  obtain ⟨name, hname, -⟩ := (Option.any_eq_true _ _).mp h
  rw [arrayName?] at hname
  split at hname
  · next hkind =>
    obtain ⟨var, hvar, -⟩ := Option.map_eq_some_iff.mp hname
    exact ⟨hkind, var, hvar⟩
  · cases hname

theorem mem_references_iff (forest : doc.Forest) :
    x ∈ demotion.references doc pragma ↔ demotion.InRegion doc pragma x := by
  have hbelow (statement : NodeId) : x ∈ arraysBelow doc demotion.array statement ↔
      doc.Above statement x ∧ isTo doc demotion.array x := by
    rw [arraysBelow, mem_filter, descendantsOf, mem_filter]
    constructor
    · rintro ⟨⟨hmem, -⟩, hto⟩
      exact ⟨forest.mem_descendants_iff.mp hmem, hto⟩
    · rintro ⟨habove, hto⟩
      exact ⟨⟨forest.mem_descendants_iff.mpr habove, (exists_varOf?_of_isTo hto).1⟩, hto⟩
  rw [references, arraysBelowAll, mem_flatMap]
  constructor
  · rintro ⟨statement, hstatement, hx⟩
    exact ⟨((hbelow statement).mp hx).2, statement, hstatement, ((hbelow statement).mp hx).1⟩
  · rintro ⟨hto, statement, hstatement, habove⟩
    exact ⟨statement, hstatement, (hbelow statement).mpr ⟨habove, hto⟩⟩

theorem Grafted.mem_iff_outermost (forest : doc.Forest)
    (grafted : Grafted doc after (demotion.references doc pragma) pairs rename) :
    x ∈ pairs.map Prod.fst ↔ demotion.Outermost doc pragma x := by
  constructor
  · intro hx
    obtain ⟨pair, hpair, rfl⟩ := mem_map.mp hx
    refine ⟨(mem_references_iff forest).mp (grafted.mem_done pair hpair),
      fun upper hupper habove ↦ ?_⟩
    obtain ⟨other, hother, hmem⟩ := grafted.covered upper ((mem_references_iff forest).mpr hupper)
    have hbelow : pair.1 ∈ doc.subtree upper :=
      forest.mem_subtree_of_above habove
    by_cases heq : pair.1 = other.1
    · rcases (forest.mem_subtree_iff _ _).mp (heq ▸ hmem) with rfl | hcycle
      · exact forest.acyclic _ habove
      · exact forest.acyclic _ (habove.trans hcycle)
    · exact (grafted.hung.apart hx (mem_map_of_mem hother) heq).1
        (forest.mem_subtree_trans hbelow hmem)
  · rintro ⟨hregion, hout⟩
    obtain ⟨pair, hpair, hmem⟩ := grafted.covered x ((mem_references_iff forest).mpr hregion)
    rcases (forest.mem_subtree_iff _ _).mp hmem with rfl | habove
    · exact mem_map_of_mem hpair
    · exact absurd habove (hout pair.1
        ((mem_references_iff forest).mp (grafted.mem_done pair hpair)))

section Closing

variable (forest : doc.Forest)
  (grafted : Grafted doc after (demotion.references doc pragma) pairs rename)
  (hclosing : demotion.closing ∈ doc.followingSiblings pragma)

include forest grafted hclosing

theorem Grafted.clear_closing :
    doc.Clear (pairs.map Prod.fst) demotion.closing ∧
      ∀ part ∈ pairs.map Prod.fst, part ∉ doc.subtree demotion.closing := by
  have hapart : ∀ part ∈ pairs.map Prod.fst, doc.Apart demotion.closing part := by
    intro part hpart
    obtain ⟨pair, hpair, rfl⟩ := mem_map.mp hpart
    exact closing_apart forest hclosing (grafted.mem_done pair hpair)
  obtain ⟨_, -, hparent⟩ := forest.exists_parent?_of_mem_siblings (Or.inr hclosing)
  exact ⟨⟨contains_of_parent? hparent, fun part hpart ↦ (hapart part hpart).1⟩,
    fun part hpart ↦ (hapart part hpart).2⟩

theorem Grafted.kept_delete (hx : doc.Clear (pairs.map Prod.fst) x)
    (hlive : (after.delete demotion.closing).contains x) :
    (after.delete demotion.closing).label x = doc.label x ∧
      (after.delete demotion.closing).parent? x = doc.parent? x ∧
      (after.delete demotion.closing).children x =
        ((doc.children x).filter (· ≠ demotion.closing)).map rename := by
  have pruned : Pruned after (after.delete demotion.closing) [demotion.closing] :=
    grafted.forest.pruned_deleteAll [demotion.closing]
  refine ⟨(pruned.label_eq x hlive).trans (grafted.label x hx),
    (pruned.parent?_eq x hlive).trans (grafted.parent? x hx), ?_⟩
  rw [pruned.children_eq x hlive, grafted.children x hx, filter_map]
  refine congrArg (List.map rename) (filter_congr fun child _ ↦ decide_eq_decide.mpr ?_)
  rw [mem_singleton]
  -- What has come in the place of a reference is new, and the end of the region is old.
  have hclear := (grafted.clear_closing forest hclosing).1
  by_cases hchild : child ∈ pairs.map Prod.fst
  · refine iff_of_true (fun heq ↦ ?_) fun heq ↦ ?_
    · exact grafted.not_clear_rename hchild (heq ▸ hclear)
    · exact hclear.notMem forest (heq ▸ hchild)
  · rw [grafted.rename_of_notMem child hchild]

theorem Grafted.element_delete {pair : NodeId × NodeId} (hpair : pair ∈ pairs) :
    (after.delete demotion.closing).element (rename pair.1) = doc.element pair.2 := by
  have pruned : Pruned after (after.delete demotion.closing) [demotion.closing] :=
    grafted.forest.pruned_deleteAll [demotion.closing]
  have hpart := mem_map_of_mem (f := Prod.fst) hpair
  obtain ⟨hclear, hbelow⟩ := grafted.clear_closing forest hclosing
  rw [pruned.element_of_apart grafted.forest (grafted.contains_rename forest grafted.hung hpart),
    grafted.element pair hpair]
  simpa using grafted.apart_rename forest grafted.hung hpart hclear (hbelow _ hpart)

/-- The dimensions of a reference that is still there are what they were: neither the references
nor what comes in their places nor the end of the region are indices. -/
theorem Grafted.indices_delete (hkind : doc.isKind demotion.closing .pragma)
    (hx : doc.Clear (pairs.map Prod.fst) x)
    (hlive : (after.delete demotion.closing).contains x) :
    indices (after.delete demotion.closing) x = indices doc x := by
  have hforest := grafted.forest.delete demotion.closing
  have hchildren := (grafted.kept_delete forest hclosing hx hlive).2.2
  have hreference {child : NodeId} (hchild : child ∈ pairs.map Prod.fst) :
      [Kind.arrayIndex, .indexRange].contains (doc.kind child) = false := by
    obtain ⟨pair, hpair, rfl⟩ := mem_map.mp hchild
    rw [beq_iff_eq.mp (isKind_of_mem_references (grafted.mem_done pair hpair))]
    rfl
  have hsame : ∀ child ∈ doc.children x,
      ([Kind.arrayIndex, .indexRange].contains
          ((after.delete demotion.closing).kind (rename child)) &&
        decide (child ≠ demotion.closing)) =
      [Kind.arrayIndex, .indexRange].contains (doc.kind child) := by
    intro child hmem
    by_cases heq : child = demotion.closing
    · rw [heq, beq_iff_eq.mp hkind]
      simp
    rw [decide_eq_true heq, Bool.and_true]
    by_cases hchild : child ∈ pairs.map Prod.fst
    · rw [hreference hchild]
      obtain ⟨pair, hpair, rfl⟩ := mem_map.mp hchild
      obtain ⟨_, -, -, hvar⟩ := mem_children_of_varOf? (grafted.source pair hpair)
      rw [Document.kind, forest.label_eq_of_element_eq hforest
        (grafted.element_delete forest hclosing hpair), ← Document.kind, hvar]
      rfl
    · have hrename := grafted.rename_of_notMem child hchild
      have hkept : child ∈ (after.delete demotion.closing).children x := by
        rw [hchildren, ← hrename]
        exact mem_map_of_mem (mem_filter.mpr ⟨hmem, decide_eq_true heq⟩)
      rw [hrename, kind, kind, (grafted.kept_delete forest hclosing (hx.child forest hmem hchild)
        (hforest.contains_child hkept)).1]
  rw [indices, indices, childrenOf, childrenOf, hchildren, filter_map, filter_filter]
  refine (congrArg (List.map rename) (filter_congr hsame)).trans ?_
  refine (map_congr_left fun child hmem ↦ grafted.rename_of_notMem child fun hchild ↦ ?_).trans
    (map_id _)
  exact Bool.false_ne_true ((hreference hchild).symm.trans (mem_filter.mp hmem).2)

theorem Grafted.bared (hkind : doc.isKind demotion.closing .pragma) :
    demotion.Bared pragma doc (after.delete demotion.closing) rename := by
  have pruned : Pruned after (after.delete demotion.closing) [demotion.closing] :=
    grafted.forest.pruned_deleteAll [demotion.closing]
  have hold {x : NodeId} (hx : x.index < doc.slots.size)
      (hlive : (after.delete demotion.closing).contains x) :
      doc.Clear (pairs.map Prod.fst) x :=
    grafted.clear x hx ((pruned.contains_iff x).mp hlive).1
  have hparts {x : NodeId} := grafted.mem_iff_outermost forest (x := x)
  refine ⟨fun x hx ↦ ?_, fun x hx hlive ↦ grafted.kept_delete forest hclosing (hold hx hlive) hlive,
    fun x hx ↦ grafted.rename_of_notMem x (mt hparts.mp hx), fun reference hreference ↦ ?_,
    fun x hx hlive ↦ ?_, fun x hx hlive ↦
      grafted.indices_delete forest hclosing hkind (hold hx hlive) hlive⟩
  · constructor
    · intro hlive
      have hclear := hold hx hlive
      refine ⟨hclear.1, ?_, fun reference hreference ↦ hclear.2 _ (hparts.mpr hreference)⟩
      rw [← grafted.mem_subtree_iff forest hclear]
      exact ((pruned.contains_iff x).mp hlive).2 _ (by simp)
    · rintro ⟨hlive, hout, hreferences⟩
      have hclear : doc.Clear (pairs.map Prod.fst) x :=
        ⟨hlive, fun part hpart ↦ hreferences part (hparts.mp hpart)⟩
      refine (pruned.contains_iff x).mpr ⟨grafted.contains x hclear, ?_⟩
      simpa [grafted.mem_subtree_iff forest hclear] using hout
  · have hpart := hparts.mpr hreference
    obtain ⟨pair, hpair, rfl⟩ := mem_map.mp hpart
    exact ⟨grafted.rename_new _ hpart, pair.2, grafted.source pair hpair,
      grafted.element_delete forest hclosing hpair⟩
  · rcases grafted.cover x ((pruned.contains_iff x).mp hlive).1 with hclear | ⟨part, hpart, hmem⟩
    · exact absurd (index_lt_size hclear.1) (Nat.not_lt.mpr hx)
    · exact ⟨part, hparts.mp hpart, (pruned.mem_subtree_iff grafted.forest hlive).mpr hmem⟩

end Closing

theorem grafted_references (forest : doc.Forest) (pragma : NodeId) (demotion : Demotion) :
    ∃ pairs rename, Grafted doc (toScalars doc (demotion.references doc pragma))
      (demotion.references doc pragma) pairs rename := by
  refine grafted_toScalars forest (pairwise_references forest pragma demotion)
    fun reference hreference ↦ ?_
  obtain ⟨hto, _, -, habove⟩ := (mem_references_iff forest).mp hreference
  obtain ⟨parent, hparent⟩ := habove.exists_parent?
  obtain ⟨-, var, hvar⟩ := exists_varOf?_of_isTo hto
  exact ⟨parent, var, hparent, hvar⟩

theorem perform_of_kept_eq_nil (hkept : demotion.kept = [])
    (hsome : demotion.references doc pragma ≠ []) :
    demotion.perform doc pragma =
      { state := (toScalars doc (demotion.references doc pragma)).delete
          demotion.closing } := by
  have hcheck : checkAll doc [] (demotion.references doc pragma) = .ok () :=
    checkAll_eq_ok_iff.mpr fun reference hreference ↦
      ⟨isKind_of_mem_references hreference, by simp⟩
  simp [perform, hsome, hkept, hcheck, finish, Outcome.isOk, Except.toBool]

/-- A demotion that keeps no dimensions succeeds just in case there is a reference in the region,
and replaces the outermost ones by their variables. If it fails the document is as before. -/
theorem perform_to_scalars (forest : doc.Forest) {marker : String}
    {directive : PlacedDirective} (hplan : plan? marker doc directive = some demotion)
    (hkept : demotion.kept = []) {outcome : Outcome Document}
    (hperform : demotion.perform doc directive.pragma = outcome) :
    (outcome.isOk = true ↔ ∃ x, demotion.InRegion doc directive.pragma x) ∧
    (outcome.isOk = true →
      ∃ rename, demotion.Bared directive.pragma doc outcome.state rename) ∧
    (outcome.isOk = false → outcome.state = doc) := by
  subst hperform
  by_cases hsome : demotion.references doc directive.pragma = []
  · have hnone : ¬ ∃ x, demotion.InRegion doc directive.pragma x := by
      rintro ⟨x, hx⟩
      simpa [hsome] using (mem_references_iff forest).mpr hx
    simp [perform, hsome, Outcome.isOk, Except.toBool, hnone]
  · obtain ⟨x, hx⟩ := List.exists_mem_of_ne_nil _ hsome
    rw [perform_of_kept_eq_nil hkept hsome]
    refine ⟨iff_of_true rfl ⟨x, (mem_references_iff forest).mp hx⟩, fun _ ↦ ?_, fun h ↦ by cases h⟩
    obtain ⟨pairs, rename, grafted⟩ := grafted_references forest directive.pragma demotion
    have hclosing := closing?_of_plan? hplan
    exact ⟨rename, grafted.bared forest (Target.mem_of_closing? hclosing)
      (Target.isKind_of_closing? hclosing)⟩

def nestedReferencesBare : PlacedDirective :=
  { keyword := "demote", clauses := [{ name := "array", arguments := ["t"] }], pragma := ⟨1⟩,
    line := 2 }

/-- The outer one of two nested references is replaced. -/
theorem perform_to_scalars_nestedReferences :
    ∃ demotion rename, plan? "lsm" nestedReferences nestedReferencesBare = some demotion ∧
      demotion.Bared ⟨1⟩ nestedReferences (demotion.perform nestedReferences ⟨1⟩).state rename := by
  have hplan : plan? "lsm" nestedReferences nestedReferencesBare =
      some { array := "t", kept := [], closing := ⟨17⟩ } := by decide +kernel
  have hforest : nestedReferences.Forest := forest_ofElement _
  obtain ⟨-, hok, -⟩ := perform_to_scalars hforest hplan rfl rfl
  obtain ⟨rename, bared⟩ := hok (by decide +kernel)
  exact ⟨_, rename, hplan, bared⟩

end Demotion

end LoopDirectives
