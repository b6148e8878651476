import Mathlib.Data.List.Find
import LoopDirectives.Proofs.Document.Moving

/-!
# Siblings and lines of descent

In a forest the children of a node are the siblings before a child, the child and the siblings
after it (`Forest.children_eq_siblings`), and nothing is below two different siblings
(`Forest.apart_of_parent?`), so that what is below one is apart from what is below the
other (`Apart.of_mem_subtree`).
-/

namespace LoopDirectives.Document

open List

variable {doc before after : Document} {id parent x y lower : NodeId}

theorem followingSiblings_of_parent?_eq_none (h : doc.parent? x = none) :
    doc.followingSiblings x = [] := by
  simp [followingSiblings, h]

theorem precedingSiblings_of_parent?_eq_none (h : doc.parent? x = none) :
    doc.precedingSiblings x = [] := by
  simp [precedingSiblings, h]

theorem siblings_congr (hparent : after.parent? x = before.parent? x)
    (hchildren : ∀ parent, before.parent? x = some parent →
      after.children parent = before.children parent) :
    after.precedingSiblings x = before.precedingSiblings x ∧
      after.followingSiblings x = before.followingSiblings x := by
  cases h : before.parent? x with
  | none =>
    rw [h] at hparent
    simp [precedingSiblings, followingSiblings, h, hparent]
  | some parent =>
    rw [h] at hparent
    have hposition : after.position? x = before.position? x := by
      simp [position?, h, hparent, hchildren parent h]
    cases hat : before.position? x <;>
      simp [precedingSiblings, followingSiblings, h, hparent, hposition, hat, hchildren parent h]

theorem above_comparable {first second : NodeId} (hfirst : doc.Above first lower)
    (hsecond : doc.Above second lower) :
    first = second ∨ doc.Above first second ∨ doc.Above second first := by
  induction hfirst with
  | single hstep =>
    rcases (above_iff_of_parent? hstep).mp hsecond with rfl | habove
    · exact Or.inl rfl
    · exact Or.inr (Or.inr habove)
  | tail hpath hstep ih =>
    rcases (above_iff_of_parent? hstep).mp hsecond with rfl | habove
    · exact Or.inr (Or.inl hpath)
    · exact ih habove

theorem Above.exists_child {upper : NodeId} (h : doc.Above upper lower) :
    ∃ child, doc.parent? child = some upper ∧
      (lower = child ∨ doc.Above child lower) := by
  obtain ⟨child, hstep, hpath⟩ := Relation.TransGen.head'_iff.mp h
  refine ⟨child, hstep, ?_⟩
  exact (Relation.reflTransGen_iff_eq_or_transGen.mp hpath)

/-! ### Children by kind -/

theorem mem_children_of_childOf? {kind : Kind} (h : doc.childOf? id kind = some x) :
    x ∈ doc.children id :=
  mem_of_find?_eq_some h

theorem kind_of_childOf? {kind : Kind} (h : doc.childOf? id kind = some x) :
    doc.kind x = kind := by
  have hkind := find?_some h
  exact of_decide_eq_true hkind

theorem childOf?_congr (hchildren : after.children x = before.children x)
    (hlabel : ∀ child ∈ before.children x, after.label child = before.label child) (kind : Kind) :
    after.childOf? x kind = before.childOf? x kind := by
  rw [childOf?, childOf?, hchildren]
  refine find?_congr fun child hchild ↦ ?_
  rw [isKind, isKind, Document.kind, Document.kind, hlabel child hchild]

theorem path?_pair {first second : Kind} :
    doc.path? id [first, second] =
      (doc.childOf? id first).bind (doc.childOf? · second) := by
  simp [path?, List.foldlM]

namespace Forest

variable (forest : doc.Forest)

include forest

theorem parent?_of_childOf? {kind : Kind} (h : doc.childOf? id kind = some x) :
    doc.parent? x = some id :=
  forest.parent?_of_mem (mem_children_of_childOf? h)

/-! ### The siblings of a node -/

/-- A child divides the children of its parent into those before and those after it. -/
theorem children_eq_siblings (h : doc.parent? x = some parent) :
    doc.children parent =
      doc.precedingSiblings x ++ x :: doc.followingSiblings x := by
  obtain ⟨position, hposition⟩ := exists_idxOf?_of_mem (forest.mem_children h)
  have hsome : doc.position? x = some position := by
    simp [position?, h, hposition]
  obtain ⟨hlt, hget, -⟩ := idxOf?_eq_some_iff.mp hposition
  have hdrop : (doc.children parent).drop position =
      x :: (doc.children parent).drop (position + 1) := by
    rw [drop_eq_getElem_cons hlt, hget]
  simp only [precedingSiblings, followingSiblings, h, hsome]
  rw [← hdrop, take_append_drop]

theorem parent?_of_mem_siblings (hparent : doc.parent? x = some parent)
    (h : y ∈ doc.precedingSiblings x ++ x :: doc.followingSiblings x) :
    doc.parent? y = some parent :=
  forest.parent?_of_mem (forest.children_eq_siblings hparent ▸ h)

theorem exists_parent?_of_mem_siblings
    (h : y ∈ doc.precedingSiblings x ∨ y ∈ doc.followingSiblings x) :
    ∃ parent, doc.parent? x = some parent ∧ doc.parent? y = some parent := by
  cases hparent : doc.parent? x with
  | none =>
    simp [precedingSiblings_of_parent?_eq_none, followingSiblings_of_parent?_eq_none, hparent] at h
  | some parent =>
    have hmem := mem_append.mpr (h.imp_right (mem_cons_of_mem x))
    exact ⟨parent, rfl, forest.parent?_of_mem_siblings hparent hmem⟩

theorem siblings_of_children_eq (h : doc.parent? x = some parent) {first rest : List NodeId}
    (hchildren : doc.children parent = first ++ x :: rest) :
    doc.precedingSiblings x = first ∧ doc.followingSiblings x = rest := by
  have hnodup := forest.nodup_children parent
  have hsplit := forest.children_eq_siblings h
  have hnotMem {before after : List NodeId} (hnodup : (before ++ x :: after).Nodup) :
      x ∉ before ∧ x ∉ after := by
    rw [nodup_append, nodup_cons] at hnodup
    exact ⟨fun hmem ↦ hnodup.2.2 x hmem x (mem_cons_self ..) rfl, hnodup.2.1.1⟩
  obtain ⟨hbefore, hafter⟩ := hnotMem (hsplit ▸ hnodup)
  rw [hchildren] at hsplit
  obtain ⟨hfirst, -, hrest⟩ := (append_cons_inj_of_notMem hbefore hafter).mp hsplit.symm
  exact ⟨hfirst, hrest⟩

end Forest

/-! ### Nodes apart from one another -/

/-- Neither node is below the other. -/
def Apart (doc : Document) (x y : NodeId) : Prop :=
  x ∉ doc.subtree y ∧ y ∉ doc.subtree x

theorem Apart.symm (h : doc.Apart x y) : doc.Apart y x :=
  ⟨h.2, h.1⟩

theorem Apart.disjoint (h : doc.Apart x y) (forest : doc.Forest)
    (hx : id ∈ doc.subtree x) : id ∉ doc.subtree y := by
  intro hy
  rcases (forest.mem_subtree_iff x id).mp hx with rfl | habove
  · exact h.1 hy
  · rcases (forest.mem_subtree_iff y id).mp hy with rfl | hother
    · exact h.2 hx
    · rcases above_comparable habove hother with heq | hbelow | hbelow
      · exact h.1 ((forest.mem_subtree_iff y x).mpr (Or.inl heq))
      · exact h.2 (forest.mem_subtree_of_above hbelow)
      · exact h.1 (forest.mem_subtree_of_above hbelow)

/-- Below nodes that are apart, any two nodes are. -/
theorem Apart.of_mem_subtree {upper lower : NodeId} (h : doc.Apart upper lower)
    (forest : doc.Forest) (hx : x ∈ doc.subtree upper)
    (hy : y ∈ doc.subtree lower) : doc.Apart x y :=
  ⟨fun hmem ↦ h.disjoint forest hx (forest.mem_subtree_trans hmem hy),
    fun hmem ↦ h.symm.disjoint forest hy (forest.mem_subtree_trans hmem hx)⟩

namespace Forest

variable (forest : doc.Forest)

include forest

/-! ### Subtrees of siblings -/

theorem not_above_sibling (hx : doc.parent? x = some parent)
    (hy : doc.parent? y = some parent) : ¬ doc.Above x y := by
  intro habove
  rcases (above_iff_of_parent? hy).mp habove with rfl | hupper
  · exact forest.parent_ne hx rfl
  · exact forest.not_above_symm hupper (above_of_parent? hx)

theorem not_mem_subtree_of_parent? (h : doc.parent? x = some parent) :
    parent ∉ doc.subtree x := by
  intro hmem
  rcases (forest.mem_subtree_iff x parent).mp hmem with heq | habove
  · exact forest.parent_ne h heq
  · exact forest.not_above_symm habove (above_of_parent? h)

/-- Different children of one node are apart. -/
theorem apart_of_parent? (hx : doc.parent? x = some parent)
    (hy : doc.parent? y = some parent) (hne : x ≠ y) : doc.Apart x y :=
  ⟨fun hmem ↦ ((forest.mem_subtree_of_parent? hx).mp hmem).elim hne
      (forest.not_mem_subtree_of_parent? hy),
    fun hmem ↦ ((forest.mem_subtree_of_parent? hy).mp hmem).elim hne.symm
      (forest.not_mem_subtree_of_parent? hx)⟩

theorem apart_of_siblings {left right : NodeId} (hleft : doc.parent? left = some parent)
    (hright : doc.parent? right = some parent)
    (hkind : doc.kind left ≠ doc.kind right) (hx : x ∈ doc.subtree left)
    (hy : y ∈ doc.subtree right) : doc.Apart x y :=
  (forest.apart_of_parent? hleft hright fun heq ↦
    hkind (congrArg doc.kind heq)).of_mem_subtree forest hx hy

theorem not_mem_subtree_of_child {child : NodeId} (hx : doc.parent? x = some parent)
    (hy : doc.parent? y = some parent) (hchild : doc.parent? child = some y) :
    x ∉ doc.subtree child := by
  intro hmem
  by_cases heq : x = y
  · exact forest.not_mem_subtree_of_parent? hchild (heq ▸ hmem)
  · have hbelow := forest.mem_subtree_trans hmem
      (forest.mem_subtree_of_mem_children (forest.mem_children hchild))
    exact (forest.apart_of_parent? hx hy heq).1 hbelow

theorem mem_subtree_of_mem_shapeWithin {bound : Nat}
    (h : x ∈ (doc.shapeWithin bound id).preorder) : x ∈ doc.subtree id := by
  obtain ⟨steps, -, hsteps⟩ := (mem_preorder_shapeWithin_iff forest.mem_children_iff _ _ _).mp h
  rw [forest.mem_subtree_iff]
  cases steps with
  | zero => exact Or.inl (Option.some.inj hsteps)
  | succ steps => exact Or.inr (above_iff_exists_climb.mpr ⟨steps, hsteps⟩)

end Forest

end LoopDirectives.Document
