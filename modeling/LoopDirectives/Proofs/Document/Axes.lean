import LoopDirectives.Proofs.Document.Rooted

/-!
# Document order around a node

Seen from a node, document order is what precedes it, the node with all that is below it, and what
follows (`Forest.subtree_topmost`). The induction goes down from the topmost node: what is below a
node falls into the subtrees of the siblings before a child, of the child, and of those after it.
-/

namespace LoopDirectives.Document

open List

variable {doc : Document} {id parent root x : NodeId}

/-- The last of the nodes above the node, or the node itself if there are none. -/
def topmost (doc : Document) (id : NodeId) : NodeId :=
  (doc.ancestors id).getLast?.getD id

/-- The nodes before the node in document order: those above it, from the topmost one on, each with
the subtrees of the siblings before the next one. -/
def preceding (doc : Document) (id : NodeId) : List NodeId :=
  (id :: doc.ancestors id).reverse.flatMap fun node ↦
    (doc.parent? node).toList ++ (doc.precedingSiblings node).flatMap doc.subtree

/-- The second node comes after the first in document order and is not below it. -/
def ComesAfter (doc : Document) (start x : NodeId) : Prop :=
  ∃ first rest, doc.subtree (doc.topmost start) = first ++ start :: rest ∧
    x ∈ rest ∧ x ∉ doc.subtree start

theorem ancestorsWithin_succ_eq {bound : Nat} (id : NodeId)
    (h : doc.climb (bound + 1) id = none) :
    doc.ancestorsWithin (bound + 1) id = doc.ancestorsWithin bound id := by
  induction bound generalizing id with
  | zero =>
    cases hparent : doc.parent? id with
    | none => simp [ancestorsWithin, hparent]
    | some parent => simp [climb, hparent] at h
  | succ bound ih =>
    cases hparent : doc.parent? id with
    | none => simp [ancestorsWithin, hparent]
    | some parent =>
      rw [climb_succ_of_parent? hparent] at h
      rw [ancestorsWithin, ancestorsWithin, hparent]
      exact congrArg _ (ih parent h)

theorem ancestors_of_parent?_eq_none (h : doc.parent? id = none) :
    doc.ancestors id = [] := by
  rw [ancestors]
  cases doc.slots.size <;> simp [ancestorsWithin, h]

namespace Forest

variable (forest : doc.Forest)

include forest

theorem ancestors_of_parent? (h : doc.parent? id = some parent) :
    doc.ancestors id = parent :: doc.ancestors parent := by
  have hlive := forest.contains_parent h
  rw [ancestors, ancestors]
  cases hsize : doc.slots.size with
  | zero => exact absurd (index_lt_size hlive) (by omega)
  | succ bound =>
    have hend : doc.climb (bound + 1) parent = none := by
      by_contra hclimb
      obtain ⟨upper, hupper⟩ := Option.ne_none_iff_exists'.mp hclimb
      exact absurd (forest.climb_lt_size hlive hupper) (by omega)
    rw [ancestorsWithin_succ_eq parent hend, ancestorsWithin, h]

theorem topmost_of_parent? (h : doc.parent? id = some parent) :
    doc.topmost id = doc.topmost parent := by
  rw [topmost, forest.ancestors_of_parent? h, getLast?_cons, Option.getD_some, topmost]

theorem preceding_of_parent? (h : doc.parent? id = some parent) :
    doc.preceding id = doc.preceding parent ++
      parent :: (doc.precedingSiblings id).flatMap doc.subtree := by
  simp [preceding, forest.ancestors_of_parent? h, h]

theorem around_of_parent? (h : doc.parent? id = some parent) :
    doc.preceding id ++ doc.subtree id ++ doc.following id =
      doc.preceding parent ++ doc.subtree parent ++ doc.following parent := by
  have hfollowing : doc.following id =
      (doc.followingSiblings id).flatMap doc.subtree ++ doc.following parent := by
    simp [following, forest.ancestors_of_parent? h]
  rw [forest.preceding_of_parent? h, hfollowing, forest.subtree_eq parent,
    forest.children_eq_siblings h]
  simp

/-- The tree of a node, in document order: what precedes it, the node, what follows it. -/
theorem subtree_topmost (id : NodeId) : doc.parent? (doc.topmost id) = none ∧
    doc.subtree (doc.topmost id) =
      doc.preceding id ++ doc.subtree id ++ doc.following id := by
  have hroot {root : NodeId} (hnone : doc.parent? root = none) :
      doc.parent? (doc.topmost root) = none ∧
        doc.subtree (doc.topmost root) =
          doc.preceding root ++ doc.subtree root ++ doc.following root := by
    simp [topmost, preceding, following, ancestors_of_parent?_eq_none hnone, hnone,
      precedingSiblings_of_parent?_eq_none hnone, followingSiblings_of_parent?_eq_none hnone]
  cases hparent : doc.parent? id with
  | none => exact hroot hparent
  | some parent =>
    obtain ⟨root, -, hnone, rfl | habove⟩ := forest.exists_root (contains_of_parent? hparent)
    · exact hroot hnone
    · clear hparent
      induction habove with
      | single hstep =>
        rw [forest.topmost_of_parent? hstep, forest.around_of_parent? hstep]
        exact hroot hnone
      | tail _ hstep ih =>
        rw [forest.topmost_of_parent? hstep, forest.around_of_parent? hstep]
        exact ih

theorem mem_preceding_of_above (h : doc.Above x id) : x ∈ doc.preceding id := by
  induction h with
  | single hstep => simp [forest.preceding_of_parent? hstep]
  | tail _ hstep ih => exact forest.preceding_of_parent? hstep ▸ mem_append_left _ ih

theorem subtree_topmost_eq_append_cons (id : NodeId) : doc.subtree (doc.topmost id) =
    doc.preceding id ++ id :: (doc.descendants id ++ doc.following id) := by
  rw [(forest.subtree_topmost id).2, ← forest.cons_descendants id]
  simp

/-- The document falls into what precedes a node, the node, what is below it and what follows.
Nothing is met twice, and all that is above the node precedes it. The first node below it of a kind
is the first of all these. -/
theorem descendants_topmost (id : NodeId) :
    doc.parent? (doc.topmost id) = none ∧
    (doc.topmost id :: doc.descendants (doc.topmost id)).Nodup ∧
    doc.topmost id :: doc.descendants (doc.topmost id) =
      doc.preceding id ++ [id] ++ doc.descendants id ++ doc.following id ∧
    (∀ x ∈ doc.ancestors id, x ∈ doc.preceding id) ∧
    ∀ kind, doc.descendantOf? id kind = (doc.descendantsOf id kind).head? := by
  rw [forest.cons_descendants]
  refine ⟨(forest.subtree_topmost id).1, forest.nodup_subtree _, ?_, fun x hx ↦ ?_, fun kind ↦ ?_⟩
  · rw [forest.subtree_topmost_eq_append_cons]
    simp
  · exact forest.mem_preceding_of_above ((forest.mem_ancestors_iff id x).mp hx)
  · rw [descendantOf?_eq_find?, descendantsOf, List.head?_filter]

theorem mem_following_iff : x ∈ doc.following id ↔ doc.ComesAfter id x := by
  have hsplit := forest.subtree_topmost_eq_append_cons id
  obtain ⟨-, hrest, hpreceding⟩ :=
    nodup_append.mp (hsplit ▸ forest.nodup_subtree (doc.topmost id))
  rw [ComesAfter, ← forest.cons_descendants id, hsplit]
  constructor
  · intro hx
    rw [← cons_append] at hrest
    exact ⟨_, _, rfl, mem_append_right _ hx, fun hmem ↦
      (nodup_append.mp hrest).2.2 x hmem x hx rfl⟩
  · rintro ⟨first, rest, heq, hx, hout⟩
    obtain ⟨-, -, rfl⟩ := (append_cons_inj_of_notMem
      (fun hmem ↦ hpreceding id hmem id (mem_cons_self ..) rfl)
      (nodup_cons.mp hrest).1).mp heq
    exact (mem_append.mp hx).resolve_left fun hmem ↦ hout (mem_cons_of_mem _ hmem)

end Forest

/-- A loop over `i` around one over `j`, between two pragmas. -/
def nestBetweenPragmas : Document :=
  let loop (line name : String) (inner : List Element) : Element :=
    .node { tag := "FdoStatement", attributes := [("lineno", line)] }
      [.node { tag := "Var", text? := some name } [], .node { tag := "body" } inner]
  let pragma (line : String) : Element :=
    .node { tag := "FpragmaStatement", attributes := [("lineno", line)] } []
  (ofElement (.node { tag := "body" }
    [pragma "1", loop "2" "i" [loop "3" "j" []], pragma "4"])).1

/-- The inner loop is preceded by five nodes, two are below it, and the second pragma follows. -/
theorem descendants_topmost_nestBetweenPragmas :
    ⟨0⟩ :: nestBetweenPragmas.descendants ⟨0⟩ = [⟨0⟩, ⟨1⟩, ⟨2⟩, ⟨3⟩, ⟨4⟩] ++ [⟨5⟩] ++
      nestBetweenPragmas.descendants ⟨5⟩ ++ nestBetweenPragmas.following ⟨5⟩ := by
  have htop : nestBetweenPragmas.topmost ⟨5⟩ = ⟨0⟩ := by decide +kernel
  have hpreceding : nestBetweenPragmas.preceding ⟨5⟩ = [⟨0⟩, ⟨1⟩, ⟨2⟩, ⟨3⟩, ⟨4⟩] := by
    decide +kernel
  have forest : nestBetweenPragmas.Forest := forest_ofElement _
  obtain ⟨-, -, hsplit, -⟩ := forest.descendants_topmost ⟨5⟩
  rwa [htop, hpreceding] at hsplit

end LoopDirectives.Document
