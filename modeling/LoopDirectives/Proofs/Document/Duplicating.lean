import LoopDirectives.Proofs.Document.Forest

/-!
# Copying node by node

A copy grows node by node: each child is copied while it hangs nowhere, and is then put below the
copy of its parent. What comes of it is the element of the node, planted in one go
(`copyFrom?_eq_plant`), and a document may be copied from while it grows (`Forest.copy?_eq`).
-/

namespace LoopDirectives.Document

open List

variable {doc current : Document} {id x y : NodeId} {first second : Node → Node}

theorem modify_modify (doc : Document) (id : NodeId) (first second : Node → Node) :
    (doc.modify id first).modify id second = doc.modify id (second ∘ first) := by
  refine ext_node? (by simp) fun z ↦ ?_
  simp only [node?_modify]
  split <;> simp

theorem modify_congr (h : ∀ node, doc.node? id = some node → first node = second node) :
    doc.modify id first = doc.modify id second := by
  refine ext_node? (by simp) fun z ↦ ?_
  simp only [node?_modify]
  split
  · next heq =>
    subst heq
    cases hnode : doc.node? z with
    | none => rfl
    | some node => exact congrArg some (h node hnode)
  · rfl

theorem modify_comm (h : x ≠ y) (first second : Node → Node) :
    (doc.modify x first).modify y second = (doc.modify y second).modify x first := by
  refine ext_node? (by simp) fun z ↦ ?_
  simp only [node?_modify]
  grind

theorem ne_fresh_of_lt (h : x.index < doc.slots.size) : x ≠ doc.fresh := by
  rintro rfl
  exact Nat.lt_irrefl _ h

theorem push_modify (h : x.index < doc.slots.size) (change : Node → Node) (node : Node) :
    (doc.modify x change).push node = (doc.push node).modify x change := by
  refine ext_node? (by simp) fun z ↦ ?_
  have hfresh : (doc.modify x change).fresh = doc.fresh := by simp [fresh]
  have hne := ne_fresh_of_lt h
  simp only [node?_modify, node?_push, hfresh]
  grind

mutual

theorem plant_old (doc : Document) (parent? : Option NodeId) : ∀ element : Element,
    doc.slots.size < (doc.plant parent? element).1.slots.size ∧
      ∀ x : NodeId, x.index < doc.slots.size →
        (doc.plant parent? element).1.node? x = doc.node? x
  | .node label branches => by
    obtain ⟨hsize, hold⟩ := plantAll_old (doc.push { label, parent? }) doc.fresh branches
    rw [size_push] at hsize hold
    refine ⟨by rwa [plant, size_modify], fun x hx ↦ ?_⟩
    rw [plant, node?_modify, if_neg (ne_fresh_of_lt hx), hold x (Nat.lt_succ_of_lt hx), node?_push,
      if_neg (ne_fresh_of_lt hx)]

theorem plantAll_old (doc : Document) (parent : NodeId) : ∀ elements : List Element,
    doc.slots.size ≤ (doc.plantAll parent elements).1.slots.size ∧
      ∀ x : NodeId, x.index < doc.slots.size →
        (doc.plantAll parent elements).1.node? x = doc.node? x
  | [] => ⟨Nat.le_refl _, fun _ _ ↦ rfl⟩
  | element :: rest => by
    obtain ⟨hsize, hold⟩ := plant_old doc (some parent) element
    obtain ⟨hrest, hkept⟩ := plantAll_old (doc.plant (some parent) element).1 parent rest
    exact ⟨Nat.le_trans (Nat.le_of_lt hsize) hrest, fun x hx ↦
      (hkept x (Nat.lt_trans hx hsize)).trans (hold x hx)⟩

end

mutual

theorem plant_modify {doc : Document} (h : x.index < doc.slots.size)
    (change : Node → Node) (parent? : Option NodeId) : ∀ element : Element,
    (doc.modify x change).plant parent? element =
      ((doc.plant parent? element).1.modify x change, (doc.plant parent? element).2)
  | .node label branches => by
    have hne : x ≠ doc.fresh := ne_fresh_of_lt h
    have hfresh : (doc.modify x change).fresh = doc.fresh := by simp [fresh]
    rw [plant, plant, push_modify h, hfresh,
      plantAll_modify (Nat.lt_of_lt_of_le h (by simp)) change doc.fresh branches]
    exact Prod.ext (modify_comm hne _ _) rfl

theorem plantAll_modify {doc : Document} (h : x.index < doc.slots.size)
    (change : Node → Node) (parent : NodeId) : ∀ elements : List Element,
    (doc.modify x change).plantAll parent elements =
      ((doc.plantAll parent elements).1.modify x change, (doc.plantAll parent elements).2)
  | [] => rfl
  | element :: rest => by
    rw [plantAll, plantAll, plant_modify h change (some parent) element]
    dsimp only
    rw [plantAll_modify (Nat.lt_trans h (plant_old doc (some parent) element).1) change parent
      rest]

end

theorem snd_plant (doc : Document) (parent? : Option NodeId) (element : Element) :
    (doc.plant parent? element).2 = doc.fresh := by
  cases element
  rfl

theorem plant_some (doc : Document) (parent : NodeId) (element : Element) :
    doc.plant (some parent) element = ((doc.plant none element).1.modify doc.fresh
      fun node ↦ { node with parent? := some parent }, doc.fresh) := by
  obtain ⟨label, branches⟩ := element
  have hpush : doc.push { label, parent? := some parent } = (doc.push { label }).modify
      doc.fresh fun node ↦ { node with parent? := some parent } := by
    refine ext_node? (by simp) fun z ↦ ?_
    simp only [node?_modify, node?_push]
    split <;> rfl
  rw [plant, plant, hpush, plantAll_modify (by simp [fresh])]
  dsimp only
  rw [modify_modify, modify_modify]
  rfl

theorem push_eq_plant (doc : Document) (label : Label) :
    doc.push { label } = (doc.plant none (.node label [])).1 := by
  change _ = (doc.push { label }).modify doc.fresh _
  refine ext_node? (by rw [size_modify]) fun x ↦ ?_
  rw [node?_modify, node?_push]
  split <;> rfl

/-- To put the elements below the node one after the other is to plant them all and to tell the
node of them at the end. -/
theorem foldl_attachAt (id : NodeId) (elements : List Element) (doc : Document)
    (h : id.index < doc.slots.size) :
    elements.foldl (fun current element ↦
      (current.plant none element).1.attachAt id ((current.plant none element).1.children id).length
        (current.plant none element).2) doc =
      (doc.plantAll id elements).1.modify id fun node ↦
        { node with children := node.children ++ (doc.plantAll id elements).2 } := by
  induction elements generalizing doc with
  | nil =>
    refine ext_node? (by simp [plantAll]) fun z ↦ ?_
    simp [plantAll, node?_modify]
  | cons element rest ih =>
    have hput : (doc.plant none element).1.attachAt id
        ((doc.plant none element).1.children id).length (doc.plant none element).2 =
          (doc.plant (some id) element).1.modify id fun node ↦
            { node with children := node.children ++ [doc.fresh] } := by
      rw [plant_some, snd_plant, attachAt, modify_comm (ne_fresh_of_lt h)]
      refine modify_congr fun node hnode ↦ ?_
      rw [node?_modify, if_neg (ne_fresh_of_lt h)] at hnode
      simp [children, hnode]
    have hlt : id.index < (doc.plant (some id) element).1.slots.size :=
      Nat.lt_trans h (plant_old ..).1
    rw [foldl_cons, hput, ih _ (by simpa using hlt), plantAll_modify hlt]
    dsimp only
    rw [modify_modify, plantAll]
    dsimp only
    congr 1
    funext node
    simp [plant_some]

theorem copyWithin_eq_plant (source : Document) (bound : Nat) (id : NodeId) (doc : Document) :
    copyWithin (fun _ ↦ source) bound id doc =
      doc.plant none ((source.shapeWithin bound id).map source.label) := by
  induction bound generalizing id doc with
  | zero => exact Prod.ext (push_eq_plant doc _) rfl
  | succ bound ih =>
    have hlt : doc.fresh.index < (doc.push { label := source.label id }).slots.size := by
      simp [fresh]
    have hfold := foldl_attachAt doc.fresh ((source.children id).map fun child ↦
      (source.shapeWithin bound child).map source.label) _ hlt
    rw [foldl_map] at hfold
    simp only [copyWithin, ih, create]
    rw [hfold, shapeWithin, Tree.map, Tree.mapAll_eq_map, map_map, plant]
    refine Prod.ext (modify_congr fun node hnode ↦ ?_) rfl
    rw [(plantAll_old _ _ _).2 _ hlt, node?_push, if_pos rfl, Option.some.injEq] at hnode
    rw [← hnode]
    rfl

/-- A document that grows while it is copied from keeps what there is to read in it. -/
theorem Forest.copyWithin_eq (forest : doc.Forest) (bound : Nat)
    (hid : doc.contains id) (hsize : doc.slots.size ≤ current.slots.size)
    (hold : ∀ x : NodeId, x.index < doc.slots.size → current.node? x = doc.node? x) :
    copyWithin (fun current ↦ current) bound id current =
      copyWithin (fun _ ↦ doc) bound id current := by
  induction bound generalizing id current with
  | zero => rw [copyWithin, copyWithin, (readings_eq (hold id (index_lt_size hid))).2.1]
  | succ bound ih =>
    obtain ⟨-, hlabel, -, hchildren⟩ := readings_eq (hold id (index_lt_size hid))
    simp only [copyWithin, hlabel, hchildren, create]
    refine Prod.ext ?_ rfl
    have hlive : ∀ child ∈ doc.children id, doc.contains child := fun child hchild ↦
      forest.contains_child hchild
    have hstart : doc.slots.size ≤ (current.push { label := doc.label id }).slots.size ∧
        ∀ x : NodeId, x.index < doc.slots.size →
          (current.push { label := doc.label id }).node? x = doc.node? x := by
      refine ⟨by simp; omega, fun x hx ↦ ?_⟩
      rw [node?_push, if_neg (ne_fresh_of_lt (Nat.lt_of_lt_of_le hx hsize)), hold x hx]
    generalize current.push { label := doc.label id } = start at hstart ⊢
    generalize doc.children id = children at hlive ⊢
    induction children generalizing start with
    | nil => rfl
    | cons child rest ihRest =>
      obtain ⟨hchild, hrest⟩ := forall_mem_cons.mp hlive
      rw [foldl_cons, foldl_cons, ih hchild hstart.1 hstart.2]
      refine ihRest _ ?_ hrest
      rw [copyWithin_eq_plant, attachAt, snd_plant]
      obtain ⟨hgrown, hkept⟩ := plant_old start none
        ((doc.shapeWithin bound child).map doc.label)
      refine ⟨by simp; omega, fun x hx ↦ ?_⟩
      rw [node?_modify, if_neg (ne_fresh_of_lt (Nat.lt_of_lt_of_le hx hstart.1)), node?_modify,
        if_neg (ne_fresh_of_lt (Nat.lt_of_lt_of_le hx hsize)),
        hkept x (Nat.lt_of_lt_of_le hx hstart.1), hstart.2 x hx]

/-- A copy within a forest is a copy from the forest as it was, although it grows meanwhile. -/
theorem Forest.copy?_eq (forest : doc.Forest) (id : NodeId) :
    doc.copy? id = doc.copyFrom? doc id := by
  rw [copy?, copyFrom?]
  split
  · next hlive => rw [forest.copyWithin_eq _ hlive (Nat.le_refl _) fun _ _ ↦ rfl]
  · rfl

/-- Copying node by node plants the whole element at once, if the node is alive. -/
theorem copyFrom?_eq_plant (doc source : Document) (id : NodeId) :
    doc.copyFrom? source id =
      if source.contains id then some (doc.plant none (source.element id)) else none := by
  rw [copyFrom?, copyWithin_eq_plant]
  rfl

end LoopDirectives.Document
