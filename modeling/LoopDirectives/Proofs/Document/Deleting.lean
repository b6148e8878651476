import LoopDirectives.Proofs.Document.Order

/-!
# Deleting nodes from a forest

Deleting a node empties the slots of its subtree and nothing else; the only list of children that
changes is the one that had the node. What is left is a forest (`Forest.delete`).
-/

namespace LoopDirectives.Document

open List

variable {doc : Document} {id x : NodeId}

@[simp] theorem size_freeAll (bound : Nat) (stack : List NodeId) (doc : Document) :
    (freeAll bound stack doc).slots.size = doc.slots.size := by
  fun_induction freeAll <;> simp_all

theorem contains_of_freeAll {bound : Nat} {stack : List NodeId}
    (h : (freeAll bound stack doc).contains x) : doc.contains x := by
  fun_induction freeAll with
  | case1 bound current stack doc node hnode ih =>
    have hfreed := ih h
    rw [contains, node?_free] at hfreed
    split at hfreed
    · cases hfreed
    · exact hfreed
  | case2 bound current stack doc hnode ih => exact ih h
  | case3 => exact h

theorem contains_of_delete (h : (doc.delete id).contains x) : doc.contains x :=
  (contains_detach doc id x).symm.trans (contains_of_freeAll h)

/-- What is to be freed has the children that it has in the forest. The bound is spent on the nodes
one by one, so the induction is on it. -/
theorem Forest.node?_freeAll (forest : doc.Forest) {current : Document} {bound : Nat}
    {stack : List NodeId} (hsame : ∀ x ∈ stack.flatMap doc.subtree,
      current.contains x = doc.contains x ∧ current.children x = doc.children x)
    (hnodup : (stack.flatMap doc.subtree).Nodup)
    (hbound : (stack.flatMap doc.subtree).length ≤ bound) (x : NodeId) :
    (freeAll bound stack current).node? x =
      if x ∈ stack.flatMap doc.subtree then none else current.node? x := by
  induction bound generalizing stack current with
  | zero =>
    rw [eq_nil_of_length_eq_zero (Nat.le_zero.mp hbound)]
    rfl
  | succ bound ih =>
    cases stack with
    | nil => rfl
    | cons first rest =>
      rw [flatMap_cons, forest.subtree_eq, cons_append] at hsame hnodup hbound ⊢
      obtain ⟨⟨hlive, hchildren⟩, hsame⟩ := forall_mem_cons.mp hsame
      obtain ⟨hfirst, hnodup⟩ := nodup_cons.mp hnodup
      replace hbound := Nat.le_of_succ_le_succ hbound
      rw [freeAll]
      cases hnode : current.node? first with
      | none =>
        rw [contains_eq_false_iff.mpr hnode] at hlive
        rw [children_of_stale hlive.symm] at hsame hfirst hnodup hbound ⊢
        rw [ih hsame hnodup hbound]
        grind
      | some node =>
        have hbelow : node.children = doc.children first := by
          rw [← hchildren, children, hnode]
          rfl
        -- The children go onto the stack in the other order, so what is ahead is only permuted.
        have hperm : ((node.children.reverse ++ rest).flatMap doc.subtree).Perm
            ((doc.children first).flatMap doc.subtree ++ rest.flatMap doc.subtree) := by
          rw [flatMap_append, hbelow]
          exact ((reverse_perm _).flatMap_right _).append_right _
        dsimp only
        rw [ih (fun y hy ↦ ?_) (hperm.nodup_iff.mpr hnodup) (hperm.length_eq ▸ hbound),
          node?_free]
        · grind
        · have hmem := hperm.mem_iff.mp hy
          have hne : y ≠ first := fun heq ↦ hfirst (heq ▸ hmem)
          obtain ⟨hcontains, -, -, hkept⟩ := readings_eq
            ((node?_free current first y).trans (if_neg hne))
          exact ⟨hcontains.trans (hsame y hmem).1, hkept.trans (hsame y hmem).2⟩

theorem delete_of_stale (h : doc.contains id = false) : doc.delete id = doc := by
  rw [delete, detach_of_stale _ _ h]
  cases doc.slots.size with
  | zero => rfl
  | succ bound =>
    rw [freeAll, contains_eq_false_iff.mp h]
    cases bound <;> rfl

theorem subtree_of_stale (h : doc.contains id = false) : doc.subtree id = [id] := by
  cases hsize : doc.slots.size <;>
    simp [subtree, shape, hsize, shapeWithin, children_of_stale h, Tree.preorder, Tree.preorderAll]

/-- A deletion frees the nodes that are below the node when it starts. -/
theorem Forest.delete_eq_foldl_free (forest : doc.Forest) (id : NodeId) :
    doc.delete id = (doc.subtree id).foldl free (doc.detach id) := by
  refine ext_node? (by rw [delete, size_freeAll, size_foldl_free]) fun x ↦ ?_
  rw [node?_foldl_free]
  by_cases hlive : doc.contains id
  · have hflat : [id].flatMap doc.subtree = doc.subtree id := flatMap_singleton ..
    rw [delete, forest.node?_freeAll (fun y hy ↦ ?_), hflat]
    · exact hflat ▸ forest.nodup_subtree id
    · exact hflat ▸ forest.length_subtree_le hlive
    · rw [hflat] at hy
      rw [contains_detach, forest.children_detach]
      refine ⟨rfl, filter_eq_self.mpr fun child hchild ↦ decide_eq_true fun heq ↦ ?_⟩
      exact forest.not_mem_subtree_of_parent? (forest.parent?_of_mem (heq ▸ hchild)) hy
  · replace hlive := eq_false_of_ne_true hlive
    rw [delete_of_stale hlive, subtree_of_stale hlive, detach_of_stale _ _ hlive]
    grind [contains_eq_false_iff]

theorem Forest.node?_delete (forest : doc.Forest) (id x : NodeId) :
    (doc.delete id).node? x =
      if x ∈ doc.subtree id then none else (doc.detach id).node? x := by
  rw [forest.delete_eq_foldl_free, node?_foldl_free]

@[simp] theorem size_delete (doc : Document) (id : NodeId) :
    (doc.delete id).slots.size = doc.slots.size := by
  rw [delete, size_freeAll, size_detach]

@[simp] theorem size_deleteAll (doc : Document) (ids : List NodeId) :
    (doc.deleteAll ids).slots.size = doc.slots.size := by
  induction ids generalizing doc with
  | nil => rfl
  | cons first rest ih => exact (ih (doc.delete first)).trans (size_delete doc first)

namespace Forest

variable (forest : doc.Forest)

include forest

theorem contains_delete (id x : NodeId) :
    (doc.delete id).contains x = (doc.contains x && x ∉ doc.subtree id) := by
  by_cases h : x ∈ doc.subtree id
  · simp [contains, forest.node?_delete, h]
  · rw [contains, forest.node?_delete, if_neg h, ← contains, contains_detach]
    simp [h]

theorem contains_delete_iff : (doc.delete id).contains x ↔
    doc.contains x ∧ x ∉ doc.subtree id := by
  simp [forest.contains_delete]

theorem label_delete (h : x ∉ doc.subtree id) :
    (doc.delete id).label x = doc.label x := by
  rw [label, forest.node?_delete, if_neg h, ← label, label_detach]

theorem parent?_delete (h : x ∉ doc.subtree id) :
    (doc.delete id).parent? x = doc.parent? x := by
  have hne : x ≠ id := fun heq ↦ h ((forest.mem_subtree_iff id x).mpr (Or.inl heq))
  rw [parent?, forest.node?_delete, if_neg h, ← parent?, parent?_detach, if_neg hne]

theorem children_delete (h : x ∉ doc.subtree id) :
    (doc.delete id).children x = (doc.children x).filter (· ≠ id) := by
  rw [children, forest.node?_delete, if_neg h, ← children, forest.children_detach]

theorem parent?_delete_eq_some_iff {child parent : NodeId} :
    (doc.delete id).parent? child = some parent ↔
      doc.parent? child = some parent ∧ child ∉ doc.subtree id := by
  by_cases h : child ∈ doc.subtree id
  · simp [parent?, forest.node?_delete, h]
  · rw [forest.parent?_delete h]
    simp [h]

/-- Deleting a node of a forest, or one that is not there, leaves a forest. -/
theorem delete (id : NodeId) : (doc.delete id).Forest where
  mem_children_iff parent child := by
    rw [forest.parent?_delete_eq_some_iff]
    by_cases hparent : parent ∈ doc.subtree id
    · have hnone : (doc.delete id).children parent = [] := by
        simp [children, forest.node?_delete, hparent]
      rw [hnone]
      refine iff_of_false List.not_mem_nil fun hkept ↦ hkept.2 ?_
      exact (forest.mem_subtree_of_parent? hkept.1).mpr (Or.inr hparent)
    · rw [forest.children_delete hparent, List.mem_filter, forest.mem_children_iff,
        decide_eq_true_eq]
      refine and_congr_right fun hchild ↦ ?_
      rw [forest.mem_subtree_of_parent? hchild]
      simp [hparent]
  nodup_children parent := by
    by_cases hparent : parent ∈ doc.subtree id
    · simp [children, forest.node?_delete, hparent]
    · rw [forest.children_delete hparent]
      exact (forest.nodup_children parent).filter _
  acyclic y hy := by
    refine forest.acyclic y (hy.mono fun child parent hstep ↦ ?_)
    exact (forest.parent?_delete_eq_some_iff.mp hstep).1

theorem deleteAll (ids : List NodeId) : (doc.deleteAll ids).Forest := by
  induction ids generalizing doc with
  | nil => exact forest
  | cons first rest ih => exact ih (forest.delete first)

end Forest

end LoopDirectives.Document
