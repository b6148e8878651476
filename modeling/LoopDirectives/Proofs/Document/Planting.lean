import LoopDirectives.Proofs.Document.Duplicating

/-!
# Planting elements into a forest

Planting an element adds a block of new nodes at the end of the slots and touches nothing else
(`Planted`). Within the block every node but the roots hangs below an earlier one, which is why no
cycle can arise. The element of a planted root is the element that was planted
(`element_plant`).
-/

namespace LoopDirectives.Document

open List

variable {doc before after source copied : Document} {parent? : Option NodeId}
  {roots : List NodeId} {node : Node} {id copy : NodeId}

/-- All parents that a document records have been handed out. -/
def ParentsBounded (doc : Document) : Prop :=
  ∀ child parent, doc.parent? child = some parent → parent.index < doc.slots.size

/-- What a document shows after new nodes have been added below new roots, whose parent is
`parent?`. -/
structure Planted (before after : Document) (roots : List NodeId) (parent? : Option NodeId) :
    Prop where
  size_le : before.slots.size ≤ after.slots.size
  node?_old : ∀ x : NodeId, x.index < before.slots.size → after.node? x = before.node? x
  contains_new : ∀ x : NodeId, before.slots.size ≤ x.index → x.index < after.slots.size →
    after.contains x = true
  root_new : ∀ root ∈ roots, before.slots.size ≤ root.index ∧ root.index < after.slots.size
  nodup_roots : roots.Nodup
  parent?_root : ∀ root ∈ roots, after.parent? root = parent?
  parent?_new : ∀ x : NodeId, before.slots.size ≤ x.index → x.index < after.slots.size →
    x ∉ roots → ∃ parent, before.slots.size ≤ parent.index ∧ parent.index < x.index ∧
      after.parent? x = some parent
  mem_children_iff : ∀ parent child : NodeId, before.slots.size ≤ parent.index →
    (child ∈ after.children parent ↔ after.parent? child = some parent)
  nodup_children : ∀ parent : NodeId, before.slots.size ≤ parent.index →
    (after.children parent).Nodup

namespace Planted

variable (planted : Planted before after roots parent?)

include planted

theorem readings_old {x : NodeId} (h : x.index < before.slots.size) :
    after.contains x = before.contains x ∧ after.label x = before.label x ∧
      after.parent? x = before.parent? x ∧ after.children x = before.children x :=
  readings_eq (planted.node?_old x h)

theorem contains_root {root : NodeId} (hroot : root ∈ roots) : after.contains root :=
  planted.contains_new root (planted.root_new root hroot).1 (planted.root_new root hroot).2

theorem parent?_cases {child parent : NodeId} (h : after.parent? child = some parent) :
    child.index < before.slots.size ∧ before.parent? child = some parent ∨
      child ∈ roots ∧ parent? = some parent ∨
      before.slots.size ≤ parent.index ∧ parent.index < child.index := by
  by_cases hold : child.index < before.slots.size
  · rw [(planted.readings_old hold).2.2.1] at h
    exact Or.inl ⟨hold, h⟩
  · by_cases hroot : child ∈ roots
    · rw [planted.parent?_root child hroot] at h
      exact Or.inr (Or.inl ⟨hroot, h⟩)
    · obtain ⟨upper, hnew, hlt, hupper⟩ := planted.parent?_new child (Nat.not_lt.mp hold)
        (index_lt_size (contains_of_parent? h)) hroot
      rw [hupper, Option.some.injEq] at h
      subst h
      exact Or.inr (Or.inr ⟨hnew, hlt⟩)

theorem parentsBounded (hbefore : before.ParentsBounded)
    (hparent : ∀ parent, parent? = some parent → parent.index < before.slots.size) :
    after.ParentsBounded := by
  intro child parent h
  rcases planted.parent?_cases h with ⟨-, hold⟩ | ⟨-, hroot⟩ | ⟨-, hlt⟩
  · exact Nat.lt_of_lt_of_le (hbefore child parent hold) planted.size_le
  · exact Nat.lt_of_lt_of_le (hparent parent hroot) planted.size_le
  · exact Nat.lt_trans hlt (index_lt_size (contains_of_parent? h))

end Planted

/-! ### Planting gives a planted block -/

theorem planted_nil (doc : Document) (parent : NodeId)
    (hbounded : doc.ParentsBounded) : Planted doc doc [] (some parent) where
  size_le := Nat.le_refl _
  node?_old _ _ := rfl
  contains_new x hnew hlt := absurd hlt (Nat.not_lt.mpr hnew)
  root_new := by simp
  nodup_roots := nodup_nil
  parent?_root := by simp
  parent?_new x hnew hlt := absurd hlt (Nat.not_lt.mpr hnew)
  mem_children_iff holder child hnew := by
    rw [children_of_stale (contains_eq_false_of_size_le hnew)]
    exact iff_of_false not_mem_nil fun h ↦
      absurd (hbounded child holder h) (Nat.not_lt.mpr hnew)
  nodup_children holder hnew := by
    rw [children_of_stale (contains_eq_false_of_size_le hnew)]
    exact nodup_nil

theorem Planted.append {middle : Document} {root : NodeId} {others : List NodeId}
    (hparent : ∀ parent, parent? = some parent → parent.index < before.slots.size)
    (first : Planted before middle [root] parent?) (rest : Planted middle after others parent?) :
    Planted before after (root :: others) parent? := by
  have hroot := first.root_new root (mem_singleton.mpr rfl)
  have hlater : ∀ x ∈ others, before.slots.size ≤ x.index := fun x hx ↦
    Nat.le_trans first.size_le (rest.root_new x hx).1
  refine ⟨Nat.le_trans first.size_le rest.size_le, fun x hx ↦ ?_, fun x hnew hlt ↦ ?_,
    fun x hx ↦ ?_, ?_, fun x hx ↦ ?_, fun x hnew hlt hx ↦ ?_, fun holder child hnew ↦ ?_,
    fun holder hnew ↦ ?_⟩
  · rw [rest.node?_old x (Nat.lt_of_lt_of_le hx first.size_le), first.node?_old x hx]
  · by_cases hmiddle : x.index < middle.slots.size
    · rw [(rest.readings_old hmiddle).1]
      exact first.contains_new x hnew hmiddle
    · exact rest.contains_new x (Nat.not_lt.mp hmiddle) hlt
  · rcases mem_cons.mp hx with rfl | hx
    · exact ⟨hroot.1, Nat.lt_of_lt_of_le hroot.2 rest.size_le⟩
    · exact ⟨hlater x hx, (rest.root_new x hx).2⟩
  · refine nodup_cons.mpr ⟨fun hmem ↦ ?_, rest.nodup_roots⟩
    exact absurd hroot.2 (Nat.not_lt.mpr (rest.root_new root hmem).1)
  · rcases mem_cons.mp hx with rfl | hx
    · rw [(rest.readings_old hroot.2).2.2.1]
      exact first.parent?_root x (mem_singleton.mpr rfl)
    · exact rest.parent?_root x hx
  · obtain ⟨hne, hothers⟩ := not_or.mp (mt mem_cons.mpr hx)
    by_cases hmiddle : x.index < middle.slots.size
    · rw [(rest.readings_old hmiddle).2.2.1]
      exact first.parent?_new x hnew hmiddle (mt mem_singleton.mp hne)
    · obtain ⟨upper, hupper, hearlier, hstep⟩ :=
        rest.parent?_new x (Nat.not_lt.mp hmiddle) hlt hothers
      exact ⟨upper, Nat.le_trans first.size_le hupper, hearlier, hstep⟩
  · by_cases hmiddle : holder.index < middle.slots.size
    · -- Later nodes hang below later ones or where the roots do, which is at none of the new nodes.
      rw [(rest.readings_old hmiddle).2.2.2, first.mem_children_iff holder child hnew]
      constructor
      · intro h
        rwa [(rest.readings_old (index_lt_size (contains_of_parent? h))).2.2.1]
      · intro h
        rcases rest.parent?_cases h with ⟨-, hold⟩ | ⟨-, heq⟩ | ⟨hlarge, -⟩
        · exact hold
        · exact absurd (hparent holder heq) (Nat.not_lt.mpr hnew)
        · exact absurd hmiddle (Nat.not_lt.mpr hlarge)
    · exact rest.mem_children_iff holder child (Nat.not_lt.mp hmiddle)
  · by_cases hmiddle : holder.index < middle.slots.size
    · rw [(rest.readings_old hmiddle).2.2.2]
      exact first.nodup_children holder hnew
    · exact rest.nodup_children holder (Nat.not_lt.mp hmiddle)

theorem size_push_le_index {x : NodeId} (hne : x ≠ before.fresh)
    (hle : before.slots.size ≤ x.index) : (before.push node).slots.size ≤ x.index := by
  rw [size_push]
  exact Nat.lt_of_le_of_ne hle fun heq ↦ hne (congrArg NodeId.mk heq.symm)

section

variable (hbounded : before.ParentsBounded)
  (hparent : ∀ parent, node.parent? = some parent → parent.index < before.slots.size)

include hbounded hparent

theorem parent?_push_ne_fresh (child : NodeId) :
    (before.push node).parent? child ≠ some before.fresh := by
  intro h
  rw [parent?, node?_push] at h
  split at h
  · exact absurd (hparent _ h) (Nat.lt_irrefl _)
  · exact absurd (hbounded child _ h) (Nat.lt_irrefl _)

theorem Planted.wrap {ids : List NodeId}
    (below : Planted (before.push node) after ids (some before.fresh)) :
    Planted before (after.modify before.fresh fun node ↦ { node with children := ids })
      [before.fresh] node.parent? := by
  have hsize : before.slots.size + 1 ≤ after.slots.size := by
    simpa using below.size_le
  have hfresh : after.node? before.fresh = some node := by
    rw [below.node?_old before.fresh (by simp [fresh]), node?_push, if_pos rfl]
  have hother : ∀ x, x ≠ before.fresh → (after.modify before.fresh fun node ↦
      { node with children := ids }).children x = after.children x := fun x hx ↦
    children_modify_of_ne _ _ _ hx
  have hids : (after.modify before.fresh fun node ↦ { node with children := ids }).children
      before.fresh = ids := by
    simp [children, node?_modify, hfresh]
  refine ⟨?_, fun x hx ↦ ?_, fun x hle hlt ↦ ?_, fun x hx ↦ ?_, nodup_singleton _,
    fun x hx ↦ ?_, fun x hle hlt hx ↦ ?_, fun holder child hle ↦ ?_, fun holder hle ↦ ?_⟩
  · rw [size_modify]
    omega
  · have hne : x ≠ before.fresh := by
      rintro rfl
      exact absurd hx (Nat.lt_irrefl _)
    rw [node?_modify, if_neg hne, below.node?_old x (by rw [size_push]; omega), node?_push,
      if_neg hne]
  · rw [contains_modify]
    by_cases hne : x = before.fresh
    · exact contains_iff.mpr ⟨node, hne ▸ hfresh⟩
    · exact below.contains_new x (size_push_le_index hne hle) (by simpa using hlt)
  · rw [mem_singleton.mp hx, size_modify]
    exact ⟨Nat.le_refl _, hsize⟩
  · rw [mem_singleton.mp hx, parent?_modify_children, parent?, hfresh]
    rfl
  · rw [parent?_modify_children]
    have hne := mt mem_singleton.mpr hx
    rw [size_modify] at hlt
    by_cases hroot : x ∈ ids
    · have hlater := (below.root_new x hroot).1
      rw [size_push] at hlater
      exact ⟨before.fresh, Nat.le_refl _, hlater, below.parent?_root x hroot⟩
    · obtain ⟨upper, hupper, hearlier, hstep⟩ :=
        below.parent?_new x (size_push_le_index hne hle) hlt hroot
      rw [size_push] at hupper
      exact ⟨upper, by omega, hearlier, hstep⟩
  · rw [parent?_modify_children]
    by_cases hholder : holder = before.fresh
    · subst hholder
      rw [hids]
      refine ⟨below.parent?_root child, fun h ↦ ?_⟩
      rcases below.parent?_cases h with ⟨-, hold⟩ | ⟨hroot, -⟩ | ⟨hlarge, -⟩
      · exact absurd hold (parent?_push_ne_fresh hbounded hparent child)
      · exact hroot
      · exact absurd hlarge (by simp [fresh])
    · rw [hother holder hholder]
      exact below.mem_children_iff holder child (size_push_le_index hholder hle)
  · by_cases hholder : holder = before.fresh
    · rw [hholder, hids]
      exact below.nodup_roots
    · rw [hother holder hholder]
      exact below.nodup_children holder (size_push_le_index hholder hle)

end

theorem parentsBounded_push (node : Node) (hbounded : doc.ParentsBounded)
    (hparent : ∀ parent, node.parent? = some parent → parent.index < doc.slots.size) :
    (doc.push node).ParentsBounded := by
  intro child parent h
  rw [size_push]
  rw [Document.parent?, node?_push] at h
  split at h
  · exact Nat.lt_succ_of_lt (hparent parent h)
  · exact Nat.lt_succ_of_lt (hbounded child parent h)

mutual

theorem planted_plant (doc : Document) (hbounded : doc.ParentsBounded)
    (parent? : Option NodeId)
    (hparent : ∀ parent, parent? = some parent → parent.index < doc.slots.size) :
    ∀ element : Element, (doc.plant parent? element).2 = doc.fresh ∧
      Planted doc (doc.plant parent? element).1 [doc.fresh] parent?
  | .node label branches => by
    refine ⟨rfl, ?_⟩
    have hpushed := parentsBounded_push { label, parent? } hbounded hparent
    have hbelow := planted_plantAll (doc.push { label, parent? }) hpushed doc.fresh
      (by simp [fresh]) branches
    exact hbelow.wrap hbounded hparent

theorem planted_plantAll (doc : Document) (hbounded : doc.ParentsBounded)
    (parent : NodeId) (hparent : parent.index < doc.slots.size) :
    ∀ elements : List Element, Planted doc (doc.plantAll parent elements).1
      (doc.plantAll parent elements).2 (some parent)
  | [] => planted_nil doc parent hbounded
  | element :: rest => by
    have hsome : ∀ holder, some parent = some holder → holder.index < doc.slots.size := by
      intro holder hholder
      rwa [← Option.some.inj hholder]
    obtain ⟨hroot, hfirst⟩ := planted_plant doc hbounded (some parent) hsome element
    have hrest := planted_plantAll (doc.plant (some parent) element).1
      (hfirst.parentsBounded hbounded hsome) parent
      (Nat.lt_of_lt_of_le hparent hfirst.size_le) rest
    rw [← hroot] at hfirst
    exact hfirst.append hsome hrest

end

/-! ### A planted block in a forest -/

theorem Forest.parentsBounded (forest : doc.Forest) : doc.ParentsBounded :=
  fun _ _ h ↦ index_lt_size (forest.contains_parent h)

namespace Planted

variable (forest : before.Forest) (planted : Planted before after roots none)

include forest planted

theorem above_cases {upper lower : NodeId} (h : after.Above upper lower) :
    (lower.index < before.slots.size → before.Above upper lower) ∧
      (before.slots.size ≤ lower.index →
        before.slots.size ≤ upper.index ∧ upper.index < lower.index) := by
  have hstep : ∀ child parent, after.parent? child = some parent →
      (child.index < before.slots.size → before.parent? child = some parent) ∧
        (before.slots.size ≤ child.index →
          before.slots.size ≤ parent.index ∧ parent.index < child.index) := by
    intro child parent hparent
    rcases planted.parent?_cases hparent with ⟨hlt, hold⟩ | ⟨-, hroot⟩ | hnew
    · exact ⟨fun _ ↦ hold, fun hle ↦ absurd hlt (Nat.not_lt.mpr hle)⟩
    · cases hroot
    · exact ⟨fun hlt ↦ absurd (Nat.lt_trans hnew.2 hlt) (Nat.not_lt.mpr hnew.1), fun _ ↦ hnew⟩
  induction h with
  | single hparent =>
    exact ⟨fun hlt ↦ above_of_parent? ((hstep _ _ hparent).1 hlt), (hstep _ _ hparent).2⟩
  | tail _ hparent ih =>
    refine ⟨fun hlt ↦ ?_, fun hle ↦ ?_⟩
    · have hold := (hstep _ _ hparent).1 hlt
      have hmiddle := index_lt_size (forest.contains_parent hold)
      exact (ih.1 hmiddle).trans (above_of_parent? hold)
    · obtain ⟨hmiddle, hlt⟩ := (hstep _ _ hparent).2 hle
      obtain ⟨hupper, hearlier⟩ := ih.2 hmiddle
      exact ⟨hupper, Nat.lt_trans hearlier hlt⟩

theorem forest_of_forest : after.Forest where
  mem_children_iff parent child := by
    by_cases hparent : parent.index < before.slots.size
    · rw [(planted.readings_old hparent).2.2.2, forest.mem_children_iff]
      constructor
      · intro h
        rwa [(planted.readings_old (index_lt_size (contains_of_parent? h))).2.2.1]
      · intro h
        rcases planted.parent?_cases h with ⟨-, hold⟩ | ⟨-, hroot⟩ | ⟨hlarge, -⟩
        · exact hold
        · cases hroot
        · exact absurd hparent (Nat.not_lt.mpr hlarge)
    · exact planted.mem_children_iff parent child (Nat.not_lt.mp hparent)
  nodup_children parent := by
    by_cases hparent : parent.index < before.slots.size
    · rw [(planted.readings_old hparent).2.2.2]
      exact forest.nodup_children parent
    · exact planted.nodup_children parent (Nat.not_lt.mp hparent)
  acyclic x h := by
    obtain ⟨hold, hnew⟩ := planted.above_cases forest h
    by_cases hx : x.index < before.slots.size
    · exact forest.acyclic x (hold hx)
    · exact Nat.lt_irrefl _ (hnew (Nat.not_lt.mp hx)).2

theorem element_old {x : NodeId} (hx : before.contains x) :
    after.element x = before.element x := by
  refine forest.element_congr (planted.forest_of_forest forest) fun y hy ↦ ?_
  have hold := planted.readings_old (index_lt_size (forest.contains_of_mem_subtree hx hy))
  exact ⟨hold.2.1, hold.2.2.2⟩

end Planted

/-! ### The element of a planted root -/

mutual

/-- A forest that has the nodes of a planted element has the element at its root. The forest may go
on from what planting left behind. -/
theorem element_of_plant (doc : Document) (hbounded : doc.ParentsBounded)
    (parent? : Option NodeId)
    (hparent : ∀ parent, parent? = some parent → parent.index < doc.slots.size)
    {later : Document} (forest : later.Forest) :
    ∀ element : Element,
      (∀ x : NodeId, doc.slots.size ≤ x.index →
        x.index < (doc.plant parent? element).1.slots.size →
        later.node? x = (doc.plant parent? element).1.node? x) →
      later.element doc.fresh = element
  | .node label branches, hagree => by
    have hpushed := parentsBounded_push { label, parent? } hbounded hparent
    have hfresh : doc.fresh.index < (doc.push { label, parent? }).slots.size := by
      simp [fresh]
    have hblock := planted_plantAll _ hpushed doc.fresh hfresh branches
    have hbelow := elements_of_plantAll _ hpushed doc.fresh hfresh forest branches
    set planted := (doc.push { label, parent? }).plantAll doc.fresh branches
      with hplanted
    have hresult : (doc.plant parent? (.node label branches)).1 =
        planted.1.modify doc.fresh fun node ↦ { node with children := planted.2 } := rfl
    rw [hresult] at hagree
    have hroot : later.node? doc.fresh =
        some { label, parent?, children := planted.2 } := by
      have hle := hblock.size_le
      rw [size_push] at hle
      rw [hagree doc.fresh (Nat.le_refl _) (by rw [size_modify]; exact hle), node?_modify,
        if_pos rfl, hblock.node?_old doc.fresh hfresh, node?_push, if_pos rfl]
      rfl
    have hchildren : planted.2.map later.element = branches := by
      refine hbelow fun x hle hlt ↦ ?_
      rw [size_push] at hle
      have hne : x ≠ doc.fresh := by
        rintro rfl
        exact absurd hle (Nat.not_succ_le_self _)
      rw [hagree x (by omega) (by rw [size_modify]; exact hlt), node?_modify, if_neg hne]
    rw [forest.element_eq]
    simp only [Document.label, Document.children, hroot, Option.map_some, Option.getD_some,
      hchildren]

theorem elements_of_plantAll (doc : Document) (hbounded : doc.ParentsBounded)
    (parent : NodeId) (hparent : parent.index < doc.slots.size)
    {later : Document} (forest : later.Forest) :
    ∀ elements : List Element,
      (∀ x : NodeId, doc.slots.size ≤ x.index →
        x.index < (doc.plantAll parent elements).1.slots.size →
        later.node? x = (doc.plantAll parent elements).1.node? x) →
      (doc.plantAll parent elements).2.map later.element = elements
  | [], _ => rfl
  | element :: rest, hagree => by
    have hsome : ∀ holder, some parent = some holder → holder.index < doc.slots.size := by
      intro holder hholder
      rwa [← Option.some.inj hholder]
    obtain ⟨hroot, hfirst⟩ := planted_plant doc hbounded (some parent) hsome element
    have hmiddle := hfirst.parentsBounded hbounded hsome
    have hbound := Nat.lt_of_lt_of_le hparent hfirst.size_le
    have hrest := planted_plantAll _ hmiddle parent hbound rest
    have hhead : later.element doc.fresh = element := by
      refine element_of_plant doc hbounded (some parent) hsome forest element
        fun x hle hlt ↦ ?_
      rw [hagree x hle (Nat.lt_of_lt_of_le hlt hrest.size_le)]
      exact hrest.node?_old x hlt
    have htail := elements_of_plantAll _ hmiddle parent hbound forest rest fun x hle hlt ↦
      hagree x (Nat.le_trans hfirst.size_le hle) hlt
    change later.element (doc.plant (some parent) element).2 :: _ = _
    rw [hroot, hhead]
    exact congrArg (element :: ·) htail

end

namespace Forest

variable (forest : doc.Forest)

include forest

theorem planted_plant (element : Element) :
    Planted doc (doc.plant none element).1 [doc.fresh] none :=
  (Document.planted_plant doc forest.parentsBounded none (by simp) element).2

theorem plant (element : Element) : (doc.plant none element).1.Forest :=
  (forest.planted_plant element).forest_of_forest forest

/-- What is planted in a forest reads as the element that was given. -/
theorem element_plant (element : Element) :
    (doc.plant none element).1.element doc.fresh = element :=
  element_of_plant doc forest.parentsBounded none (by simp) (forest.plant element) element
    fun _ _ _ ↦ rfl

end Forest

theorem Forest.planted_create (forest : doc.Forest) (label : Label) :
    Planted doc (doc.create label).1 [doc.fresh] none := by
  change Planted doc (doc.push { label }) _ _
  rw [push_eq_plant]
  exact forest.planted_plant _

theorem Forest.create (forest : doc.Forest) (label : Label) :
    (doc.create label).1.Forest := by
  change (doc.push { label }).Forest
  rw [push_eq_plant]
  exact forest.plant _

theorem copyFrom?_eq_some (h : doc.copyFrom? source id = some (copied, copy)) :
    source.contains id ∧ copied = (doc.plant none (source.element id)).1 ∧
      copy = doc.fresh := by
  rw [copyFrom?_eq_plant] at h
  split at h
  · next hlive =>
    have hplant := Option.some.inj h
    rw [← snd_plant doc none (source.element id), hplant]
    exact ⟨hlive, rfl, rfl⟩
  · cases h

theorem Forest.copyFrom? (forest : doc.Forest)
    (h : doc.copyFrom? source id = some (copied, copy)) : copied.Forest := by
  rw [(copyFrom?_eq_some h).2.1]
  exact forest.plant _

theorem Planted.exists_root {before after : Document} {x : NodeId} {roots : List NodeId}
    (planted : Planted before after roots none) (hafter : after.Forest)
    (hx : before.slots.size ≤ x.index) (hlive : after.contains x) :
    ∃ root ∈ roots, x ∈ after.subtree root := by
  -- Climbing from a new node ends at a root.
  induction hindex : x.index using Nat.strongRecOn generalizing x with
  | ind index ih =>
    by_cases hroot : x ∈ roots
    · exact ⟨x, hroot, hafter.self_mem_subtree x⟩
    · obtain ⟨parent, hnew, hlt, hparent⟩ := planted.parent?_new x hx (index_lt_size hlive) hroot
      obtain ⟨root, hroot, hupper⟩ :=
        ih parent.index (hindex ▸ hlt) hnew (hafter.contains_parent hparent) rfl
      exact ⟨root, hroot, hafter.mem_subtree_trans
        (hafter.mem_subtree_of_mem_children (hafter.mem_children hparent)) hupper⟩

theorem Forest.mem_subtree_fresh (forest : doc.Forest) {element : Element} {x : NodeId}
    (hx : doc.slots.size ≤ x.index)
    (hlive : (doc.plant none element).1.contains x) :
    x ∈ (doc.plant none element).1.subtree doc.fresh := by
  simpa using (forest.planted_plant element).exists_root (forest.plant element) hx hlive

theorem forest_empty : empty.Forest where
  mem_children_iff parent child := by simp [children, Document.parent?]
  nodup_children parent := by simp [children]
  acyclic x h := by
    obtain ⟨parent, hparent⟩ := h.exists_parent?
    simp [Document.parent?] at hparent

theorem forest_ofElement (element : Element) : (ofElement element).1.Forest :=
  forest_empty.plant element

end LoopDirectives.Document
