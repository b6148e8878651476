import Mathlib.Data.List.Nodup
import Mathlib.Data.List.Perm.Subperm
import Mathlib.Logic.Relation
import LoopDirectives.Proofs.Document.View

/-!
# Documents that are forests

A document records its shape twice, in the parents and in the lists of children. It is a forest when
the two agree and no node is above itself (`Forest`). In a forest the bounded walks of a document
are exact: `isAncestor` decides `Above` (`isAncestor_iff`), `subtree` lists a node and what is below
it (`mem_subtree_iff`), and the shape of a node is made of the shapes of its children (`shape_eq`).
-/

namespace LoopDirectives.Document

open List

/-- The first node is above the second: it is reached by one or more steps to the parent. -/
def Above (doc : Document) : NodeId → NodeId → Prop :=
  Relation.TransGen fun upper lower ↦ doc.parent? lower = some upper

/-- The parents and the lists of children record the same relation, and no node is above itself. -/
structure Forest (doc : Document) : Prop where
  mem_children_iff : ∀ parent child : NodeId,
    child ∈ doc.children parent ↔ doc.parent? child = some parent
  nodup_children : ∀ parent : NodeId, (doc.children parent).Nodup
  acyclic : ∀ id : NodeId, ¬ doc.Above id id

variable {doc other : Document} {id parent child ancestor upper lower : NodeId} {steps : Nat}

/-! ### Parents, children and the nodes above -/

theorem above_of_parent? (h : doc.parent? child = some parent) :
    doc.Above parent child :=
  Relation.TransGen.single h

theorem Above.trans {middle : NodeId} (hupper : doc.Above upper middle)
    (hlower : doc.Above middle lower) : doc.Above upper lower :=
  Relation.TransGen.trans hupper hlower

theorem Above.mono (h : doc.Above upper lower)
    (hparent : ∀ child parent, doc.parent? child = some parent →
      other.parent? child = some parent) : other.Above upper lower := by
  induction h with
  | single hstep => exact above_of_parent? (hparent _ _ hstep)
  | tail _ hstep ih => exact ih.trans (above_of_parent? (hparent _ _ hstep))

theorem above_iff_of_parent? (h : doc.parent? child = some parent) :
    doc.Above ancestor child ↔ ancestor = parent ∨ doc.Above ancestor parent := by
  constructor
  · intro habove
    rcases Relation.TransGen.tail'_iff.mp habove with ⟨middle, hpath, hstep⟩
    rw [h, Option.some.injEq] at hstep
    subst hstep
    rcases Relation.reflTransGen_iff_eq_or_transGen.mp hpath with heq | hgen
    · exact Or.inl heq.symm
    · exact Or.inr hgen
  · rintro (rfl | habove)
    · exact above_of_parent? h
    · exact habove.trans (above_of_parent? h)

theorem above_iff_of_parent?_eq {property : NodeId → Prop}
    (hparent : ∀ x, property x → other.parent? x = doc.parent? x)
    (hupper : ∀ x parent, property x → doc.parent? x = some parent → property parent)
    (hlower : property lower) : other.Above upper lower ↔ doc.Above upper lower := by
  constructor
  · intro habove
    induction habove with
    | single hstep => exact above_of_parent? ((hparent _ hlower).symm.trans hstep)
    | tail _ hstep ih =>
      rw [hparent _ hlower] at hstep
      exact (ih (hupper _ _ hlower hstep)).trans (above_of_parent? hstep)
  · intro habove
    induction habove with
    | single hstep => exact above_of_parent? ((hparent _ hlower).trans hstep)
    | tail _ hstep ih =>
      exact (ih (hupper _ _ hlower hstep)).trans
        (above_of_parent? ((hparent _ hlower).trans hstep))

/-- When some nodes have got a new parent, what is above a node was above it before, or the chain
goes through one of them. -/
theorem above_cases_of_parent?_eq {moved : List NodeId} {target : NodeId}
    (hparent : ∀ x parent, other.parent? x = some parent →
      doc.parent? x = some parent ∨ x ∈ moved ∧ parent = target)
    (h : other.Above upper lower) :
    doc.Above upper lower ∨ (upper = target ∨ doc.Above upper target) ∧
      ∃ id ∈ moved, lower = id ∨ doc.Above id lower := by
  induction h with
  | single hstep =>
    rcases hparent _ _ hstep with hstep | ⟨hmoved, rfl⟩
    · exact Or.inl (above_of_parent? hstep)
    · exact Or.inr ⟨Or.inl rfl, _, hmoved, Or.inl rfl⟩
  | tail _ hstep ih =>
    rcases hparent _ _ hstep with hstep | ⟨hmoved, rfl⟩
    · rcases ih with habove | ⟨hupper, id, hid, rfl | hbelow⟩
      · exact Or.inl (habove.trans (above_of_parent? hstep))
      · exact Or.inr ⟨hupper, _, hid, Or.inr (above_of_parent? hstep)⟩
      · exact Or.inr ⟨hupper, id, hid, Or.inr (hbelow.trans (above_of_parent? hstep))⟩
    · exact Or.inr ⟨ih.elim Or.inr And.left, _, hmoved, Or.inl rfl⟩

theorem not_above_of_parent?_eq_none (h : doc.parent? child = none) :
    ¬ doc.Above ancestor child := by
  intro habove
  obtain ⟨middle, -, hstep⟩ := Relation.TransGen.tail'_iff.mp habove
  simp [h] at hstep

theorem Above.exists_parent? (h : doc.Above ancestor id) :
    ∃ parent, doc.parent? id = some parent := by
  obtain ⟨parent, -, hparent⟩ := Relation.TransGen.tail'_iff.mp h
  exact ⟨parent, hparent⟩

/-- Different live nodes have slots of their own. -/
theorem length_le_size {ids : List NodeId} (hnodup : ids.Nodup)
    (hlive : ∀ id ∈ ids, doc.contains id) : ids.length ≤ doc.slots.size := by
  have hnodup : (ids.map NodeId.index).Nodup := hnodup.map fun first second heq ↦ by
    cases first
    cases second
    exact congrArg NodeId.mk heq
  have hsubset : ids.map NodeId.index ⊆ List.range doc.slots.size := by
    intro index hindex
    obtain ⟨node, hnode, rfl⟩ := mem_map.mp hindex
    exact mem_range.mpr (index_lt_size (hlive node hnode))
  simpa using (hnodup.subperm hsubset).length_le

theorem Above.contains (h : doc.Above ancestor id) : doc.contains id := by
  obtain ⟨parent, hparent⟩ := h.exists_parent?
  exact contains_of_parent? hparent

namespace Forest

variable (forest : doc.Forest)

include forest

theorem parent?_of_mem (h : child ∈ doc.children parent) :
    doc.parent? child = some parent :=
  (forest.mem_children_iff parent child).mp h

theorem mem_children (h : doc.parent? child = some parent) :
    child ∈ doc.children parent :=
  (forest.mem_children_iff parent child).mpr h

theorem contains_parent (h : doc.parent? child = some parent) :
    doc.contains parent :=
  contains_of_mem_children (forest.mem_children h)

theorem contains_child (h : child ∈ doc.children parent) : doc.contains child :=
  contains_of_parent? (forest.parent?_of_mem h)

theorem contains_above (h : doc.Above ancestor id) : doc.contains ancestor := by
  induction h with
  | single hstep => exact forest.contains_parent hstep
  | tail _ _ ih => exact ih

theorem parent_ne (h : doc.parent? child = some parent) : parent ≠ child := by
  rintro rfl
  exact forest.acyclic parent (above_of_parent? h)

theorem not_above_symm (h : doc.Above ancestor id) : ¬ doc.Above id ancestor :=
  fun hback ↦ forest.acyclic id (hback.trans h)

theorem ne_of_above (h : doc.Above ancestor id) : ancestor ≠ id := by
  rintro rfl
  exact forest.acyclic ancestor h

end Forest

/-! ### Climbing

`climb n id` is the node `n` steps above `id`. The walks of a document are described by it, and in a
forest a climb is shorter than the number of slots. -/

def climb (doc : Document) : Nat → NodeId → Option NodeId
  | 0, id => some id
  | steps + 1, id => (doc.parent? id).bind (climb doc steps)

theorem climb_succ_of_parent? (h : doc.parent? id = some parent) (steps : Nat) :
    doc.climb (steps + 1) id = doc.climb steps parent := by
  simp [climb, h]

theorem climb_succ_eq_some_iff (steps : Nat) (id upper : NodeId) :
    doc.climb (steps + 1) id = some upper ↔
      ∃ lower, doc.climb steps id = some lower ∧ doc.parent? lower = some upper := by
  induction steps generalizing id with
  | zero =>
    cases hparent : doc.parent? id with
    | none => simp [climb, hparent]
    | some parent => simp [climb, hparent]
  | succ steps ih =>
    cases hparent : doc.parent? id with
    | none => simp [climb, hparent]
    | some parent =>
      rw [climb_succ_of_parent? hparent, ih, climb_succ_of_parent? hparent]

theorem above_iff_exists_climb :
    doc.Above ancestor id ↔ ∃ steps, doc.climb (steps + 1) id = some ancestor := by
  constructor
  · intro h
    induction h with
    | single hstep => exact ⟨0, by simp [climb, hstep]⟩
    | tail _ hstep ih =>
      obtain ⟨steps, hsteps⟩ := ih
      exact ⟨steps + 1, by rw [climb_succ_of_parent? hstep, hsteps]⟩
  · rintro ⟨steps, hsteps⟩
    induction steps generalizing ancestor with
    | zero =>
      obtain ⟨parent, hparent, heq⟩ := Option.bind_eq_some_iff.mp hsteps
      simp only [climb, Option.some.injEq] at heq
      exact heq ▸ above_of_parent? hparent
    | succ steps ih =>
      obtain ⟨lower, hlower, hupper⟩ := (climb_succ_eq_some_iff _ _ _).mp hsteps
      exact (above_of_parent? hupper).trans (ih hlower)

def climbed (doc : Document) : Nat → NodeId → List NodeId
  | 0, id => [id]
  | steps + 1, id => id :: ((doc.parent? id).map (climbed doc steps)).getD []

theorem length_climbed (h : doc.climb steps id = some ancestor) :
    (doc.climbed steps id).length = steps + 1 := by
  induction steps generalizing id with
  | zero => rfl
  | succ steps ih =>
    obtain ⟨parent, hparent, hrest⟩ := Option.bind_eq_some_iff.mp h
    simp [climbed, hparent, ih hrest]

theorem mem_climbed (h : ancestor ∈ doc.climbed steps id) :
    ancestor = id ∨ doc.Above ancestor id := by
  induction steps generalizing id with
  | zero => exact Or.inl (mem_singleton.mp h)
  | succ steps ih =>
    rcases mem_cons.mp h with heq | hrest
    · exact Or.inl heq
    · cases hparent : doc.parent? id with
      | none => simp [hparent] at hrest
      | some parent =>
        rw [hparent, Option.map_some, Option.getD_some] at hrest
        exact Or.inr ((above_iff_of_parent? hparent).mpr (ih hrest))

namespace Forest

variable (forest : doc.Forest)

include forest

theorem nodup_climbed (steps : Nat) (id : NodeId) : (doc.climbed steps id).Nodup := by
  induction steps generalizing id with
  | zero => exact nodup_singleton id
  | succ steps ih =>
    cases hparent : doc.parent? id with
    | none => simp [climbed, hparent]
    | some parent =>
      simp only [climbed, hparent, Option.map_some, Option.getD_some, nodup_cons]
      refine ⟨fun hmem ↦ ?_, ih parent⟩
      exact forest.acyclic id ((above_iff_of_parent? hparent).mpr (mem_climbed hmem))

/-- All nodes that a climb passes are different and alive, so there are no more than slots. -/
theorem climb_lt_size (hlive : doc.contains id) (h : doc.climb steps id = some ancestor) :
    steps < doc.slots.size := by
  have hpassed : ∀ node ∈ doc.climbed steps id, doc.contains node := by
    intro node hnode
    rcases mem_climbed hnode with rfl | habove
    · exact hlive
    · exact forest.contains_above habove
  have hlength := length_le_size (forest.nodup_climbed steps id) hpassed
  rw [length_climbed h] at hlength
  omega

end Forest

/-! ### The walks of a document -/

theorem mem_ancestorsWithin_iff (bound : Nat) (id ancestor : NodeId) :
    ancestor ∈ doc.ancestorsWithin bound id ↔
      ∃ steps < bound, doc.climb (steps + 1) id = some ancestor := by
  induction bound generalizing id with
  | zero => simp [ancestorsWithin]
  | succ bound ih =>
    cases hparent : doc.parent? id with
    | none => simp [ancestorsWithin, climb, hparent]
    | some parent =>
      simp only [ancestorsWithin, hparent, mem_cons, ih, climb_succ_of_parent? hparent]
      constructor
      · rintro (rfl | ⟨steps, hlt, hsteps⟩)
        · exact ⟨0, Nat.succ_pos bound, rfl⟩
        · exact ⟨steps + 1, Nat.succ_lt_succ hlt, hsteps⟩
      · rintro ⟨steps, hlt, hsteps⟩
        cases steps with
        | zero =>
          simp only [climb, Option.some.injEq] at hsteps
          exact Or.inl hsteps.symm
        | succ steps => exact Or.inr ⟨steps, Nat.lt_of_succ_lt_succ hlt, hsteps⟩

section

variable (hchildren : ∀ parent child : NodeId,
  child ∈ doc.children parent ↔ doc.parent? child = some parent)

include hchildren

theorem mem_preorder_shapeWithin_iff (bound : Nat) (id lower : NodeId) :
    lower ∈ (doc.shapeWithin bound id).preorder ↔
      ∃ steps ≤ bound, doc.climb steps lower = some id := by
  induction bound generalizing id with
  | zero =>
    simp only [shapeWithin, Tree.preorder, Tree.preorderAll, mem_singleton,
      Nat.le_zero, exists_eq_left, climb, Option.some.injEq]
  | succ bound ih =>
    simp only [shapeWithin, Tree.preorder, Tree.preorderAll_eq_flatMap, mem_cons,
      mem_flatMap, mem_map, exists_exists_and_eq_and, ih, hchildren]
    constructor
    · rintro (rfl | ⟨child, hchild, steps, hle, hsteps⟩)
      · exact ⟨0, Nat.zero_le _, rfl⟩
      · exact ⟨steps + 1, Nat.succ_le_succ hle,
          (climb_succ_eq_some_iff _ _ _).mpr ⟨child, hsteps, hchild⟩⟩
    · rintro ⟨steps, hle, hsteps⟩
      cases steps with
      | zero =>
        simp only [climb, Option.some.injEq] at hsteps
        exact Or.inl hsteps
      | succ steps =>
        obtain ⟨child, hlower, hchild⟩ := (climb_succ_eq_some_iff _ _ _).mp hsteps
        exact Or.inr ⟨child, hchild, steps, Nat.le_of_succ_le_succ hle, hlower⟩

theorem shapeWithin_succ_eq {bound : Nat} (id : NodeId)
    (hshallow : ∀ lower, doc.climb (bound + 1) lower ≠ some id) :
    doc.shapeWithin (bound + 1) id = doc.shapeWithin bound id := by
  induction bound generalizing id with
  | zero =>
    have hnone : doc.children id = [] := by
      refine eq_nil_iff_forall_not_mem.mpr fun child hchild ↦ hshallow child ?_
      simp [climb, (hchildren id child).mp hchild]
    simp [shapeWithin, hnone]
  | succ bound ih =>
    rw [shapeWithin, shapeWithin]
    refine congrArg (Tree.node id) (map_congr_left fun child hchild ↦ ih child ?_)
    intro lower hlower
    exact hshallow lower ((climb_succ_eq_some_iff _ _ _).mpr
      ⟨child, hlower, (hchildren id child).mp hchild⟩)

end

namespace Forest

variable {lower : NodeId} (forest : doc.Forest)

include forest

theorem mem_ancestors_iff (id ancestor : NodeId) :
    ancestor ∈ doc.ancestors id ↔ doc.Above ancestor id := by
  rw [ancestors, mem_ancestorsWithin_iff, above_iff_exists_climb]
  constructor
  · rintro ⟨steps, -, hsteps⟩
    exact ⟨steps, hsteps⟩
  · rintro ⟨steps, hsteps⟩
    have hlive := (above_iff_exists_climb.mpr ⟨steps, hsteps⟩).contains
    exact ⟨steps, Nat.lt_of_succ_lt (forest.climb_lt_size hlive hsteps), hsteps⟩

/-- The bounded walk to the root meets exactly the nodes above. -/
theorem isAncestor_iff (ancestor id : NodeId) :
    doc.isAncestor ancestor id ↔ doc.Above ancestor id := by
  rw [isAncestor, contains_iff_mem, forest.mem_ancestors_iff]

/-- A subtree holds its node and what that is above of. -/
theorem mem_subtree_iff (id lower : NodeId) :
    lower ∈ doc.subtree id ↔ lower = id ∨ doc.Above id lower := by
  rw [subtree, shape, mem_preorder_shapeWithin_iff forest.mem_children_iff, above_iff_exists_climb]
  constructor
  · rintro ⟨steps, -, hsteps⟩
    cases steps with
    | zero =>
      simp only [climb, Option.some.injEq] at hsteps
      exact Or.inl hsteps
    | succ steps => exact Or.inr ⟨steps, hsteps⟩
  · rintro (rfl | ⟨steps, hsteps⟩)
    · exact ⟨0, Nat.zero_le _, rfl⟩
    · have hlive := (above_iff_exists_climb.mpr ⟨steps, hsteps⟩).contains
      exact ⟨steps + 1, Nat.le_of_lt (forest.climb_lt_size hlive hsteps), hsteps⟩

theorem mem_subtree_of_parent? {child parent : NodeId} (h : doc.parent? child = some parent) :
    child ∈ doc.subtree id ↔ child = id ∨ parent ∈ doc.subtree id := by
  rw [forest.mem_subtree_iff, forest.mem_subtree_iff, above_iff_of_parent? h, eq_comm (a := id)]

theorem mem_subtree_of_above (h : doc.Above id lower) : lower ∈ doc.subtree id :=
  (forest.mem_subtree_iff id lower).mpr (Or.inr h)

theorem contains_of_mem_subtree (hid : doc.contains id) (h : lower ∈ doc.subtree id) :
    doc.contains lower := by
  rcases (forest.mem_subtree_iff id lower).mp h with rfl | habove
  · exact hid
  · exact habove.contains

theorem self_mem_subtree (id : NodeId) : id ∈ doc.subtree id :=
  (forest.mem_subtree_iff id id).mpr (Or.inl rfl)

/-- In a forest the shape unfolds without a bound. -/
theorem shape_eq (id : NodeId) :
    doc.shape id = .node id ((doc.children id).map doc.shape) := by
  have hshallow : ∀ lower, doc.climb (doc.slots.size + 1) lower ≠ some id := by
    intro lower hlower
    have hlive := (above_iff_exists_climb.mpr ⟨_, hlower⟩).contains
    exact absurd (forest.climb_lt_size hlive hlower) (by omega)
  rw [shape, ← shapeWithin_succ_eq forest.mem_children_iff id hshallow, shapeWithin]
  rfl

theorem subtree_eq (id : NodeId) :
    doc.subtree id = id :: (doc.children id).flatMap doc.subtree := by
  rw [subtree, forest.shape_eq, Tree.preorder, Tree.preorderAll_eq_flatMap, flatMap_map]
  rfl

theorem mem_subtree_trans {x y : NodeId} (hid : id ∈ doc.subtree y) (hy : y ∈ doc.subtree x) :
    id ∈ doc.subtree x := by
  rw [forest.mem_subtree_iff] at *
  rcases hid with rfl | hid
  · exact hy
  · rcases hy with rfl | hy
    · exact Or.inr hid
    · exact Or.inr (hy.trans hid)

theorem mem_subtree_of_mem_children {x : NodeId} (h : x ∈ doc.children id) :
    x ∈ doc.subtree id :=
  forest.mem_subtree_of_above (above_of_parent? (forest.parent?_of_mem h))

theorem element_eq (id : NodeId) :
    doc.element id =
      .node (doc.label id) ((doc.children id).map doc.element) := by
  rw [element, forest.shape_eq, Tree.map, Tree.mapAll_eq_map, map_map]
  rfl

theorem value_element (id : NodeId) : (doc.element id).value = doc.label id := by
  rw [forest.element_eq]
  rfl

theorem label_eq_of_element_eq {other : Document} (hother : other.Forest) {x y : NodeId}
    (h : other.element x = doc.element y) : other.label x = doc.label y := by
  rw [← hother.value_element, h, forest.value_element]

theorem shapeWithin_of_le {bound : Nat} (hsize : doc.slots.size ≤ bound) (id : NodeId) :
    doc.shapeWithin bound id = doc.shape id := by
  induction hsize with
  | refl => rfl
  | @step bound hle ih =>
    have hsize : doc.slots.size ≤ bound := hle
    rw [shapeWithin_succ_eq forest.mem_children_iff id, ih]
    intro lower hlower
    have hlive := (above_iff_exists_climb.mpr ⟨_, hlower⟩).contains
    exact absurd (forest.climb_lt_size hlive hlower) (by omega)

theorem element_congr {other : Document} (hother : other.Forest)
    (hsame : ∀ x ∈ doc.subtree id,
      other.label x = doc.label x ∧ other.children x = doc.children x) :
    other.element id = doc.element id := by
  have hwithin : ∀ (bound : Nat) (x : NodeId), x ∈ doc.subtree id →
      (other.shapeWithin bound x).map other.label =
        (doc.shapeWithin bound x).map doc.label := by
    intro bound
    induction bound with
    | zero =>
      intro x hx
      simp [shapeWithin, Tree.map, Tree.mapAll, (hsame x hx).1]
    | succ bound ih =>
      intro x hx
      simp only [shapeWithin, Tree.map, Tree.mapAll_eq_map, map_map, (hsame x hx).1,
        (hsame x hx).2]
      refine congrArg (Tree.node _) (map_congr_left fun child hchild ↦ ih child ?_)
      have hbelow := above_of_parent? (forest.parent?_of_mem hchild)
      refine forest.mem_subtree_of_above ?_
      rcases (forest.mem_subtree_iff id x).mp hx with rfl | habove
      · exact hbelow
      · exact habove.trans hbelow
  have hboth := hwithin (doc.slots.size + other.slots.size) id (forest.self_mem_subtree id)
  rwa [hother.shapeWithin_of_le (Nat.le_add_left _ _),
    forest.shapeWithin_of_le (Nat.le_add_right _ _)] at hboth

end Forest

end LoopDirectives.Document
