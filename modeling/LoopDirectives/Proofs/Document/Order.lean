import LoopDirectives.Proofs.Document.Siblings

/-!
# Document order

A walk downwards meets a node before everything below it (`Forest.pairwise_subtree`), and siblings
in their order (`Forest.filter_descendants_parent?`).
-/

namespace LoopDirectives.Document

open List

variable {doc : Document} {id parent x : NodeId}

/-- The search ends with the first node of the kind in the whole walk. -/
theorem descendantOf?_eq_find? (doc : Document) (id : NodeId) (kind : Kind) :
    doc.descendantOf? id kind = (doc.descendants id).find? (doc.isKind · kind) := by
  suffices hsearch : ∀ bound stack, doc.search kind bound stack =
      (doc.walk bound stack).find? (doc.isKind · kind) from hsearch ..
  intro bound
  induction bound with
  | zero => exact fun _ ↦ rfl
  | succ bound ih =>
    rintro (_ | ⟨current, stack⟩)
    · rfl
    · rw [search, walk, find?_cons, ih]
      split <;> simp_all

namespace Forest

variable (forest : doc.Forest)
include forest

theorem nodup_followingSiblings (id : NodeId) : (doc.followingSiblings id).Nodup := by
  cases hparent : doc.parent? id with
  | none =>
    rw [followingSiblings_of_parent?_eq_none hparent]
    exact nodup_nil
  | some parent =>
    have hnodup := forest.nodup_children parent
    rw [forest.children_eq_siblings hparent] at hnodup
    exact (nodup_cons.mp (nodup_append.mp hnodup).2.1).2

theorem pairwise_flatMap_of_siblings {below : NodeId → List NodeId} {siblings : List NodeId}
    (hsiblings : ∀ x ∈ siblings, doc.parent? x = some parent) (hnodup : siblings.Nodup)
    (hbelow : ∀ x ∈ siblings, ∀ y ∈ below x, y ∈ doc.subtree x)
    (hordered : ∀ x ∈ siblings, (below x).Pairwise fun first second ↦
      first ∉ doc.subtree second) :
    (siblings.flatMap below).Pairwise fun first second ↦ first ∉ doc.subtree second := by
  rw [pairwise_flatMap]
  refine ⟨hordered, hnodup.pairwise_of_forall_ne fun left hleft right hright hne ↦ ?_⟩
  intro first hfirst second hsecond hmem
  have hapart := forest.apart_of_parent? (hsiblings left hleft) (hsiblings right hright) hne
  exact hapart.disjoint forest (hbelow left hleft first hfirst)
    (forest.mem_subtree_trans hmem (hbelow right hright second hsecond))

/-- In a subtree no node comes after one that is below it. -/
theorem pairwise_subtree (id : NodeId) :
    (doc.subtree id).Pairwise fun first second ↦ first ∉ doc.subtree second := by
  suffices hwithin : ∀ bound id, (doc.shapeWithin bound id).preorder.Pairwise
      fun first second ↦ first ∉ doc.subtree second from hwithin _ id
  intro bound
  induction bound with
  | zero => exact fun id ↦ pairwise_singleton _ id
  | succ bound ih =>
    intro id
    rw [shapeWithin, Tree.preorder, Tree.preorderAll_eq_flatMap, flatMap_map,
      pairwise_cons]
    refine ⟨fun lower hlower hmem ↦ ?_, forest.pairwise_flatMap_of_siblings
      (fun child hchild ↦ forest.parent?_of_mem hchild) (forest.nodup_children id)
      (fun child _ y hy ↦ forest.mem_subtree_of_mem_shapeWithin hy) fun child _ ↦ ih child⟩
    obtain ⟨child, hchild, hbelow⟩ := mem_flatMap.mp hlower
    exact forest.not_mem_subtree_of_parent? (forest.parent?_of_mem hchild)
      (forest.mem_subtree_trans hmem (forest.mem_subtree_of_mem_shapeWithin hbelow))

theorem nodup_subtree (id : NodeId) : (doc.subtree id).Nodup := by
  refine (forest.pairwise_subtree id).imp fun hnot heq ↦ hnot ?_
  rw [heq]
  exact forest.self_mem_subtree _

/-! ### Walking with a stack -/

theorem walk_eq_take (bound : Nat) (stack : List NodeId) :
    doc.walk bound stack = (stack.flatMap doc.subtree).take bound := by
  induction bound generalizing stack with
  | zero => simp [walk]
  | succ bound ih =>
    cases stack with
    | nil => simp [walk]
    | cons current stack =>
      rw [walk, ih, flatMap_append, flatMap_cons, forest.subtree_eq current, cons_append,
        take_succ_cons]

theorem length_subtree_le (h : doc.contains id) :
    (doc.subtree id).length ≤ doc.slots.size :=
  length_le_size (forest.nodup_subtree id) fun _ hx ↦ forest.contains_of_mem_subtree h hx

/-- The walk meets the nodes below a node in document order, and its bound leaves none of them
out. -/
theorem cons_descendants (id : NodeId) : id :: doc.descendants id = doc.subtree id := by
  rw [descendants, forest.walk_eq_take, forest.subtree_eq, take_of_length_le]
  by_cases hlive : doc.contains id
  · have hlength := forest.length_subtree_le hlive
    rw [forest.subtree_eq, length_cons] at hlength
    omega
  · simp [children_of_stale (eq_false_of_ne_true hlive)]

theorem descendants_sublist (id : NodeId) :
    (doc.descendants id).Sublist (doc.subtree id) :=
  forest.cons_descendants id ▸ sublist_cons_self ..

theorem mem_descendants_iff : x ∈ doc.descendants id ↔ doc.Above id x := by
  have hmem := forest.mem_subtree_iff id x
  rw [← forest.cons_descendants, mem_cons] at hmem
  have hnodup := forest.nodup_subtree id
  rw [← forest.cons_descendants, nodup_cons] at hnodup
  constructor
  · intro h
    exact (hmem.mp (Or.inr h)).resolve_left fun heq ↦ hnodup.1 (heq ▸ h)
  · intro h
    exact (hmem.mpr (Or.inr h)).resolve_left (forest.ne_of_above h).symm

/-! ### Siblings in document order -/

theorem sublist_subtree_of_parent? (h : doc.parent? x = some parent) :
    (doc.subtree x).Sublist (doc.subtree parent) := by
  obtain ⟨first, rest, hchildren⟩ := append_of_mem (forest.mem_children h)
  rw [forest.subtree_eq parent, hchildren, flatMap_append, flatMap_cons]
  exact ((sublist_append_left ..).trans (sublist_append_right ..)).cons _

theorem sublist_subtree (h : x ∈ doc.subtree id) :
    (doc.subtree x).Sublist (doc.subtree id) := by
  rcases (forest.mem_subtree_iff id x).mp h with rfl | habove
  · exact .refl _
  · induction habove with
    | single hparent => exact forest.sublist_subtree_of_parent? hparent
    | tail habove hparent ih =>
      exact (forest.sublist_subtree_of_parent? hparent).trans
        (ih (forest.mem_subtree_of_above habove))

theorem sublist_flatMap_subtree (ids : List NodeId) :
    ids.Sublist (ids.flatMap doc.subtree) := by
  induction ids with
  | nil => exact .refl _
  | cons first rest ih =>
    rw [flatMap_cons, forest.subtree_eq first, cons_append]
    exact (ih.trans (sublist_append_right ..)).cons_cons _

theorem sublist_children_subtree (id : NodeId) :
    (doc.children id).Sublist (doc.subtree id) := by
  rw [forest.subtree_eq]
  exact .cons _ (forest.sublist_flatMap_subtree _)

/-- The descendants that hang below one node of a subtree are its children, in order. -/
theorem filter_descendants_parent? (h : parent ∈ doc.subtree id) :
    (doc.descendants id).filter (doc.parent? · = some parent) =
      doc.children parent := by
  have hself : doc.parent? id ≠ some parent := fun hparent ↦
    forest.not_mem_subtree_of_parent? hparent h
  have hsublist : (doc.children parent).Sublist
      ((doc.subtree id).filter (doc.parent? · = some parent)) := by
    have hfiltered := ((forest.sublist_children_subtree parent).trans
      (forest.sublist_subtree h)).filter (doc.parent? · = some parent)
    rwa [filter_eq_self.mpr fun child hchild ↦
      decide_eq_true (forest.parent?_of_mem hchild)] at hfiltered
  have hsubset : (doc.subtree id).filter (doc.parent? · = some parent) ⊆
      doc.children parent := fun x hx ↦
    forest.mem_children (of_decide_eq_true (mem_filter.mp hx).2)
  have hlength := (((forest.nodup_subtree id).filter _).subperm hsubset).length_le
  rw [hsublist.eq_of_length_le hlength, ← forest.cons_descendants,
    filter_cons_of_neg (by simpa using hself)]

end Forest

end LoopDirectives.Document
