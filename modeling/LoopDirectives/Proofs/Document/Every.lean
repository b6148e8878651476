import LoopDirectives.Proofs.Document.Planting

/-!
# What holds at every place of an element

`Element.Every` says that every label of an element satisfies a condition, which may depend on
whether something is below the label. For the element of a node this is a condition on the nodes
below it (`Document.Forest.every_element_iff`). `Document.AllLabels` says that all labels of a
document pass a test.
-/

namespace LoopDirectives

open List

/-- The condition holds of every label, given whether the label has nothing below it. -/
inductive Element.Every (condition : Label → Bool → Prop) : Element → Prop
  | node (label : Label) (branches : List Element) (hlabel : condition label branches.isEmpty)
    (hbranches : ∀ branch ∈ branches, Element.Every condition branch) :
    Element.Every condition (.node label branches)

namespace Document

variable {doc : Document} {condition : Label → Bool → Prop}

def Holds (doc : Document) (condition : Label → Bool → Prop) (x : NodeId) : Prop :=
  condition (doc.label x) (doc.children x).isEmpty

def AllLabels (doc : Document) (test : Label → Bool) : Prop :=
  ∀ x, doc.contains x = true → test (doc.label x) = true

instance (doc : Document) (test : Label → Bool) : Decidable (doc.AllLabels test) :=
  decidable_of_iff (∀ index < doc.slots.size, doc.contains ⟨index⟩ = true →
      test (doc.label ⟨index⟩) = true)
    ⟨fun h x hx ↦ h x.index (index_lt_size hx) hx, fun h index _ hx ↦ h ⟨index⟩ hx⟩

namespace Forest

variable {x : NodeId} (forest : doc.Forest)

include forest

theorem every_element_cons_iff : (doc.element x).Every condition ↔
    doc.Holds condition x ∧
      ∀ child ∈ doc.children x, (doc.element child).Every condition := by
  rw [forest.element_eq, Holds]
  constructor
  · rintro (⟨_, _, hlabel, hbranches⟩)
    rw [isEmpty_map] at hlabel
    exact ⟨hlabel, fun child hchild ↦ hbranches _ (mem_map_of_mem hchild)⟩
  · rintro ⟨hlabel, hchildren⟩
    rw [← isEmpty_map (f := doc.element)] at hlabel
    refine .node _ _ hlabel fun branch hbranch ↦ ?_
    obtain ⟨child, hchild, rfl⟩ := mem_map.mp hbranch
    exact hchildren child hchild

theorem every_element_of_above {upper lower : NodeId} (habove : doc.Above upper lower)
    (h : (doc.element upper).Every condition) :
    (doc.element lower).Every condition := by
  have hstep {parent child : NodeId} (hparent : doc.parent? child = some parent)
      (h : (doc.element parent).Every condition) : (doc.element child).Every condition :=
    (forest.every_element_cons_iff.mp h).2 child (forest.mem_children hparent)
  induction habove with
  | single hparent => exact hstep hparent h
  | tail _ hparent ih => exact hstep hparent ih

theorem every_element_of_forall (element : Element) {x : NodeId}
    (helement : doc.element x = element)
    (h : ∀ y ∈ doc.subtree x, doc.Holds condition y) :
    (doc.element x).Every condition := by
  refine forest.every_element_cons_iff.mpr
    ⟨h x (forest.self_mem_subtree x), fun child hchild ↦ ?_⟩
  have hsize : sizeOf (doc.element child) < sizeOf element := by
    rw [← helement, forest.element_eq x, Tree.node.sizeOf_spec]
    have hmem := sizeOf_lt_of_mem (mem_map_of_mem (f := doc.element) hchild)
    omega
  exact every_element_of_forall (doc.element child) rfl fun y hy ↦
    h y (forest.mem_subtree_trans hy (forest.mem_subtree_of_mem_children hchild))
termination_by sizeOf element

/-- A condition on the element of a node is one on each node of the subtree. -/
theorem every_element_iff : (doc.element x).Every condition ↔
    ∀ y ∈ doc.subtree x, doc.Holds condition y := by
  refine ⟨fun h y hy ↦ ?_, forest.every_element_of_forall _ rfl⟩
  rcases (forest.mem_subtree_iff x y).mp hy with rfl | habove
  · exact (forest.every_element_cons_iff.mp h).1
  · exact (forest.every_element_cons_iff.mp (forest.every_element_of_above habove h)).1

theorem holds_plant {element : Element} (helement : element.Every condition)
    (hx : doc.slots.size ≤ x.index)
    (hlive : (doc.plant none element).1.contains x) :
    (doc.plant none element).1.Holds condition x := by
  rw [← forest.element_plant element] at helement
  exact (forest.plant element).every_element_iff.mp helement x (forest.mem_subtree_fresh hx hlive)

end Forest

end Document

end LoopDirectives
