import Mathlib.Data.List.Basic
import LoopDirectives.Proofs.Document.Rooted

/-!
# Moving and deleting several nodes

`Gathered` says what a document shows after nodes have moved one after the other behind the children
of a node (`Forest.gathered_appendAll`), and `Pruned` what it shows after nodes have been deleted
one after the other (`Forest.pruned_deleteAll`). `Rearranged` is about a move followed by a
deletion.
-/

namespace LoopDirectives.Document

open List

variable {doc before after : Document} {ids : List NodeId} {id parent x upper : NodeId}

/-! ### Moving -/

/-- What a document shows after nodes have moved, in order, behind the children of `parent`. -/
structure Gathered (before after : Document) (ids : List NodeId) (parent : NodeId) : Prop where
  forest : after.Forest
  contains_eq : ∀ x, after.contains x = before.contains x
  label_eq : ∀ x, after.label x = before.label x
  parent?_eq : ∀ x, after.parent? x = if x ∈ ids then some parent else before.parent? x
  children_of_ne : ∀ x, x ≠ parent → after.children x = (before.children x).filter (· ∉ ids)
  children_parent : after.children parent = (before.children parent).filter (· ∉ ids) ++ ids

theorem filter_ne_filter_notMem (children : List NodeId) (first : NodeId) (rest : List NodeId) :
    (children.filter (· ≠ first)).filter (· ∉ rest) = children.filter (· ∉ first :: rest) := by
  rw [filter_filter]
  refine filter_congr fun child _ ↦ ?_
  simp [Bool.and_comm]

/-- Assumes: distinct live nodes, none of them the parent or above it. All are moved below it. -/
theorem Forest.gathered_appendAll (forest : doc.Forest)
    (hparent : doc.contains parent) (hnodup : ids.Nodup)
    (hids : ∀ id ∈ ids, doc.contains id ∧ id ≠ parent ∧ ¬ doc.Above id parent) :
    Gathered doc (doc.appendAll parent ids) ids parent := by
  induction ids generalizing doc with
  | nil =>
    change Gathered doc doc [] parent
    exact ⟨forest, fun _ ↦ rfl, fun _ ↦ rfl, by simp, by simp, by simp⟩
  | cons first rest ih =>
    rw [nodup_cons] at hnodup
    obtain ⟨hlive, hne, habove⟩ := hids first (mem_cons_self ..)
    have hmoved := forest.moved_append (forest.canAttach_of_not_above hlive hparent hne habove)
    have hchildren : (doc.append parent first).children parent =
        (doc.children parent).filter (· ≠ first) ++ [first] := by
      rw [hmoved.children_parent, take_length, drop_length]
    have hrest : Gathered (doc.append parent first)
        ((doc.append parent first).appendAll parent rest) rest parent := by
      refine ih (forest.append parent first) ((hmoved.contains_eq parent).trans hparent) hnodup.2
        fun id hid ↦ ?_
      obtain ⟨hlater, hneLater, haboveLater⟩ := hids id (mem_cons_of_mem _ hid)
      exact ⟨(hmoved.contains_eq id).trans hlater, hneLater,
        hmoved.not_above_parent habove haboveLater⟩
    change Gathered doc ((doc.append parent first).appendAll parent rest) _ parent
    refine ⟨hrest.forest, fun x ↦ (hrest.contains_eq x).trans (hmoved.contains_eq x),
      fun x ↦ (hrest.label_eq x).trans (hmoved.label_eq x), fun x ↦ ?_, fun x hx ↦ ?_, ?_⟩
    · rw [hrest.parent?_eq, hmoved.parent?_eq]
      by_cases hfirst : x = first
      · simp [hfirst]
      · simp [hfirst]
    · rw [hrest.children_of_ne x hx, hmoved.children_of_ne x hx, filter_ne_filter_notMem]
    · have hfirst : [first].filter (· ∉ rest) = [first] := by
        simpa using hnodup.1
      rw [hrest.children_parent, hchildren, filter_append, filter_ne_filter_notMem, hfirst,
        append_assoc]
      rfl

/-! ### Deleting -/

/-- What a document shows after nodes have been deleted with everything below them. -/
structure Pruned (before after : Document) (ids : List NodeId) : Prop where
  forest : after.Forest
  contains_iff : ∀ x, after.contains x = true ↔
    before.contains x = true ∧ ∀ id ∈ ids, x ∉ before.subtree id
  label_eq : ∀ x, after.contains x = true → after.label x = before.label x
  parent?_eq : ∀ x, after.contains x = true → after.parent? x = before.parent? x
  children_eq : ∀ x, after.contains x = true →
    after.children x = (before.children x).filter (· ∉ ids)

theorem Forest.above_delete_iff (forest : doc.Forest) (h : x ∉ doc.subtree id) :
    (doc.delete id).Above upper x ↔ doc.Above upper x :=
  above_iff_of_parent?_eq (fun _ ↦ forest.parent?_delete) (fun _ _ h hparent hmem ↦
    h ((forest.mem_subtree_of_parent? hparent).mpr (Or.inr hmem))) h

theorem Forest.mem_subtree_delete_iff (forest : doc.Forest) (h : x ∉ doc.subtree id) :
    x ∈ (doc.delete id).subtree upper ↔ x ∈ doc.subtree upper := by
  rw [(forest.delete id).mem_subtree_iff, forest.mem_subtree_iff, forest.above_delete_iff h]

/-- Deleting nodes one by one deletes them and what is below them, in any order. -/
theorem Forest.pruned_deleteAll (forest : doc.Forest) (ids : List NodeId) :
    Pruned doc (doc.deleteAll ids) ids := by
  induction ids generalizing doc with
  | nil =>
    change Pruned doc doc []
    exact ⟨forest, by simp, fun _ _ ↦ rfl, fun _ _ ↦ rfl, by simp⟩
  | cons first rest ih =>
    have hrest := ih (forest.delete first)
    have hkept {x : NodeId} (hx : (doc.deleteAll (first :: rest)).contains x) :
        x ∉ doc.subtree first :=
      (forest.contains_delete_iff.mp ((hrest.contains_iff x).mp hx).1).2
    refine ⟨hrest.forest, fun x ↦ ?_, fun x hx ↦ ?_, fun x hx ↦ ?_, fun x hx ↦ ?_⟩
    · rw [forall_mem_cons, ← and_assoc, ← forest.contains_delete_iff]
      refine (hrest.contains_iff x).trans (and_congr_right fun hx ↦ forall₂_congr fun id _ ↦ ?_)
      rw [forest.mem_subtree_delete_iff (forest.contains_delete_iff.mp hx).2]
    · exact (hrest.label_eq x hx).trans (forest.label_delete (hkept hx))
    · exact (hrest.parent?_eq x hx).trans (forest.parent?_delete (hkept hx))
    · exact (hrest.children_eq x hx).trans (by
        rw [forest.children_delete (hkept hx), filter_ne_filter_notMem])

theorem deleteAll_append (doc : Document) (ids others : List NodeId) :
    doc.deleteAll (ids ++ others) = (doc.deleteAll ids).deleteAll others :=
  foldl_append

theorem Pruned.mem_subtree_iff (pruned : Pruned before after ids) (forest : before.Forest)
    (hx : after.contains x) : x ∈ after.subtree id ↔ x ∈ before.subtree id := by
  rw [pruned.forest.mem_subtree_iff, forest.mem_subtree_iff,
    above_iff_of_parent?_eq pruned.parent?_eq (fun y parent hy hparent ↦ ?_) hx]
  rw [← pruned.parent?_eq y hy] at hparent
  exact pruned.forest.contains_parent hparent

theorem Pruned.not_contains (pruned : Pruned before after ids) (forest : before.Forest)
    (h : x ∈ ids) : after.contains x = false :=
  eq_false_of_ne_true fun hx ↦
    ((pruned.contains_iff x).mp hx).2 x h (forest.self_mem_subtree x)

theorem Pruned.siblings_eq (pruned : Pruned before after ids) (forest : before.Forest)
    (hx : after.contains x) :
    after.precedingSiblings x = (before.precedingSiblings x).filter (· ∉ ids) ∧
      after.followingSiblings x = (before.followingSiblings x).filter (· ∉ ids) := by
  have hsame := pruned.parent?_eq x hx
  cases hparent : before.parent? x with
  | none =>
    rw [hparent] at hsame
    simp [precedingSiblings_of_parent?_eq_none, followingSiblings_of_parent?_eq_none, hparent,
      hsame]
  | some parent =>
    rw [hparent] at hsame
    have hkept : x ∉ ids := fun hmem ↦
      ((pruned.contains_iff x).mp hx).2 x hmem (forest.self_mem_subtree x)
    have hchildren := pruned.children_eq parent (pruned.forest.contains_parent hsame)
    rw [forest.children_eq_siblings hparent, filter_append,
      filter_cons_of_pos (by simpa using hkept)] at hchildren
    exact pruned.forest.siblings_of_children_eq hsame hchildren

theorem Pruned.node?_eq (pruned : Pruned before after ids) (forest : before.Forest)
    (hx : after.contains x) (hids : ∀ id ∈ ids, before.parent? id ≠ some x) :
    after.node? x = before.node? x := by
  refine node?_congr (hx.trans ((pruned.contains_iff x).mp hx).1.symm)
    (pruned.label_eq x hx) (pruned.parent?_eq x hx) ((pruned.children_eq x hx).trans ?_)
  refine filter_eq_self.mpr fun child hchild ↦ decide_eq_true fun hid ↦ ?_
  exact hids child hid (forest.parent?_of_mem hchild)

/-! ### Moving and then deleting -/

/-- What a document shows after some nodes have moved below `target` and others were deleted. -/
structure Rearranged (before after : Document) (moved : List NodeId) (target : NodeId)
    (doomed : List NodeId) : Prop where
  forest : after.Forest
  contains : ∀ x, after.contains x = true → before.contains x = true
  label_eq : ∀ x, after.contains x = true → after.label x = before.label x
  parent?_eq : ∀ x, after.contains x = true →
    after.parent? x = if x ∈ moved then some target else before.parent? x
  children_of_ne : ∀ x, after.contains x = true → x ≠ target →
    after.children x = ((before.children x).filter (· ∉ moved)).filter (· ∉ doomed)

theorem Gathered.rearranged {middle : Document} {doomed : List NodeId}
    (gathered : Gathered before middle ids parent) (pruned : Pruned middle after doomed) :
    Rearranged before after ids parent doomed := by
  have hlive {x : NodeId} (hx : after.contains x) : middle.contains x :=
    ((pruned.contains_iff x).mp hx).1
  refine ⟨pruned.forest, fun x hx ↦ (gathered.contains_eq x).symm.trans (hlive hx),
    fun x hx ↦ (pruned.label_eq x hx).trans (gathered.label_eq x),
    fun x hx ↦ (pruned.parent?_eq x hx).trans (gathered.parent?_eq x), fun x hx hne ↦ ?_⟩
  rw [pruned.children_eq x hx, gathered.children_of_ne x hne]

theorem Pruned.rearranged (pruned : Pruned before after ids) (target : NodeId) :
    Rearranged before after [] target ids :=
  ⟨pruned.forest, fun x hx ↦ ((pruned.contains_iff x).mp hx).1, pruned.label_eq,
    fun x hx ↦ by simpa using pruned.parent?_eq x hx,
    fun x hx _ ↦ by simpa using pruned.children_eq x hx⟩

namespace Rearranged

variable {moved doomed : List NodeId} {target : NodeId}
  (rearranged : Rearranged before after moved target doomed)

include rearranged

theorem kind_eq (hx : after.contains x) : after.kind x = before.kind x := by
  rw [kind, rearranged.label_eq x hx, ← kind]

theorem mem_children_of_ne (hne : x ≠ target) {child : NodeId}
    (h : child ∈ after.children x) : child ∈ before.children x := by
  rw [rearranged.children_of_ne x (contains_of_mem_children h) hne] at h
  exact mem_of_mem_filter (mem_of_mem_filter h)

theorem above_cases {lower : NodeId} (h : after.Above upper lower) :
    before.Above upper lower ∨ (upper = target ∨ before.Above upper target) ∧
      ∃ id ∈ moved, lower = id ∨ before.Above id lower := by
  refine above_cases_of_parent?_eq (fun x parent hstep ↦ ?_) h
  rw [rearranged.parent?_eq _ (contains_of_parent? hstep)] at hstep
  split at hstep
  · next hx => exact Or.inr ⟨hx, (Option.some.inj hstep).symm⟩
  · exact Or.inl hstep

end Rearranged

theorem Gathered.above_cases (gathered : Gathered before after ids parent) {lower : NodeId}
    (h : after.Above upper lower) :
    before.Above upper lower ∨ (upper = parent ∨ before.Above upper parent) ∧
      ∃ id ∈ ids, lower = id ∨ before.Above id lower :=
  (gathered.rearranged (gathered.forest.pruned_deleteAll [])).above_cases h

end LoopDirectives.Document
