import Mathlib.Logic.Basic
import Mathlib.Tactic.ByContra
import LoopDirectives.Document.Edit

/-!
# The view of a document after one change

Documents are read through `node?`. Here is what `node?` shows after each of the changes that all
edits are made of: changing one node, adding one, emptying the slot of one. What a reading such as
`parent?` or `children` shows follows from it.
-/

namespace LoopDirectives.Document

variable {doc other : Document} {id : NodeId}

@[simp] theorem node?_empty (id : NodeId) : empty.node? id = none := by
  simp [node?, empty]

/-! ### Reading through `node?` -/

theorem contains_iff : doc.contains id ↔ ∃ node, doc.node? id = some node :=
  Option.isSome_iff_exists

theorem contains_eq_false_iff : doc.contains id = false ↔ doc.node? id = none := by
  simp [contains]

theorem node?_eq_none_of_size_le (h : doc.slots.size ≤ id.index) :
    doc.node? id = none := by
  simp [node?, Array.getElem?_eq_none h]

theorem contains_eq_false_of_size_le (h : doc.slots.size ≤ id.index) :
    doc.contains id = false :=
  contains_eq_false_iff.mpr (node?_eq_none_of_size_le h)

theorem index_lt_size (h : doc.contains id) : id.index < doc.slots.size := by
  by_contra hlarge
  rw [contains_eq_false_of_size_le (Nat.not_lt.mp hlarge)] at h
  exact Bool.false_ne_true h

theorem contains_of_parent? {parent : NodeId} (h : doc.parent? id = some parent) :
    doc.contains id := by
  obtain ⟨node, hnode, -⟩ := Option.bind_eq_some_iff.mp h
  exact contains_iff.mpr ⟨node, hnode⟩

theorem contains_of_mem_children {child : NodeId} (h : child ∈ doc.children id) :
    doc.contains id := by
  by_contra hstale
  rw [Bool.not_eq_true, contains_eq_false_iff] at hstale
  simp [children, hstale] at h

theorem parent?_of_stale (h : doc.contains id = false) : doc.parent? id = none := by
  simp [parent?, contains_eq_false_iff.mp h]

theorem children_of_stale (h : doc.contains id = false) : doc.children id = [] := by
  simp [children, contains_eq_false_iff.mp h]

theorem readings_eq (h : doc.node? id = other.node? id) :
    doc.contains id = other.contains id ∧ doc.label id = other.label id ∧
      doc.parent? id = other.parent? id ∧ doc.children id = other.children id := by
  simp only [contains, label, parent?, children, h, and_self]

theorem node?_congr (hcontains : doc.contains id = other.contains id)
    (hlabel : doc.label id = other.label id) (hparent : doc.parent? id = other.parent? id)
    (hchildren : doc.children id = other.children id) :
    doc.node? id = other.node? id := by
  cases hlive : other.contains id with
  | false =>
    rw [contains_eq_false_iff.mp hlive, contains_eq_false_iff.mp (hcontains.trans hlive)]
  | true =>
    obtain ⟨⟨_, _, _⟩, hnode⟩ := contains_iff.mp (hcontains.trans hlive)
    obtain ⟨⟨_, _, _⟩, hother⟩ := contains_iff.mp hlive
    simp_all [label, parent?, children]

theorem ext_node? (hsize : doc.slots.size = other.slots.size)
    (hnode : ∀ id, doc.node? id = other.node? id) : doc = other := by
  obtain ⟨slots⟩ := doc
  obtain ⟨others⟩ := other
  congr
  refine Array.ext hsize fun index hleft hright ↦ ?_
  simpa [node?, hleft, hright] using hnode ⟨index⟩

/-! ### Changing one node -/

section Modify

variable {x : NodeId} (doc : Document) (id : NodeId) (change : Node → Node)

theorem node?_modify (x : NodeId) : (doc.modify id change).node? x =
    if x = id then (doc.node? x).map change else doc.node? x := by
  obtain ⟨index⟩ := x
  obtain ⟨position⟩ := id
  by_cases h : index = position
  · subst h
    cases hslot : doc.slots[index]? with
    | none => simp [node?, modify, Array.getElem?_modify, hslot]
    | some slot => simp [node?, modify, Array.getElem?_modify, hslot]
  · have hindex : position ≠ index := fun heq ↦ h heq.symm
    simp [node?, modify, Array.getElem?_modify, h, hindex]

@[simp] theorem size_modify : (doc.modify id change).slots.size = doc.slots.size := by
  simp [modify]

@[simp] theorem contains_modify (x : NodeId) :
    (doc.modify id change).contains x = doc.contains x := by
  simp only [contains, node?_modify]
  split <;> simp

theorem modify_of_stale (h : doc.contains id = false) :
    doc.modify id change = doc := by
  refine ext_node? (size_modify doc id change) fun x ↦ ?_
  rw [node?_modify]
  split
  · next hx => rw [hx, contains_eq_false_iff.mp h, Option.map_none]
  · rfl

theorem parent?_modify_children (children : Node → List NodeId) (x : NodeId) :
    (doc.modify id fun node ↦ { node with children := children node }).parent? x =
      doc.parent? x := by
  simp only [parent?, node?_modify]
  split
  · cases doc.node? x <;> rfl
  · rfl

theorem label_modify_children (children : Node → List NodeId) (x : NodeId) :
    (doc.modify id fun node ↦ { node with children := children node }).label x =
      doc.label x := by
  simp only [label, node?_modify]
  split
  · cases doc.node? x <;> rfl
  · rfl

theorem children_modify_of_ne (h : x ≠ id) :
    (doc.modify id change).children x = doc.children x := by
  simp only [Document.children, node?_modify, h, if_false]

theorem children_modify_parent? (parent? : Node → Option NodeId) (x : NodeId) :
    (doc.modify id fun node ↦ { node with parent? := parent? node }).children x =
      doc.children x := by
  simp only [Document.children, node?_modify]
  split
  · cases doc.node? x <;> rfl
  · rfl

theorem label_modify_parent? (parent? : Node → Option NodeId) (x : NodeId) :
    (doc.modify id fun node ↦ { node with parent? := parent? node }).label x =
      doc.label x := by
  simp only [label, node?_modify]
  split
  · cases doc.node? x <;> rfl
  · rfl

theorem parent?_modify_of_ne (h : x ≠ id) :
    (doc.modify id change).parent? x = doc.parent? x := by
  simp only [Document.parent?, node?_modify, h, if_false]

end Modify

/-! ### Changing the label of a node -/

section Relabel

variable (doc : Document) (id : NodeId) (change : Label → Label)

@[simp] theorem size_relabel : (doc.relabel id change).slots.size = doc.slots.size :=
  size_modify ..

@[simp] theorem contains_relabel (x : NodeId) :
    (doc.relabel id change).contains x = doc.contains x :=
  contains_modify ..

@[simp] theorem parent?_relabel (x : NodeId) :
    (doc.relabel id change).parent? x = doc.parent? x := by
  simp only [relabel, parent?, node?_modify]
  split
  · cases doc.node? x <;> rfl
  · rfl

@[simp] theorem children_relabel (x : NodeId) :
    (doc.relabel id change).children x = doc.children x := by
  simp only [relabel, children, node?_modify]
  split
  · cases doc.node? x <;> rfl
  · rfl

theorem label_relabel_of_ne {x : NodeId} (h : x ≠ id) :
    (doc.relabel id change).label x = doc.label x := by
  simp only [label, relabel, node?_modify, h, if_false]

theorem label_relabel_self (h : doc.contains id) :
    (doc.relabel id change).label id = change (doc.label id) := by
  obtain ⟨node, hnode⟩ := contains_iff.mp h
  simp [label, relabel, node?_modify, hnode]

theorem relabel_of_stale (h : doc.contains id = false) :
    doc.relabel id change = doc :=
  modify_of_stale _ _ _ h

theorem reading_label_relabel {Reading : Type} (reading : Label → Reading)
    (hreading : ∀ label, reading (change label) = reading label) (x : NodeId) :
    reading ((doc.relabel id change).label x) = reading (doc.label x) := by
  by_cases h : x = id
  · subst h
    cases hlive : doc.contains x with
    | false => rw [relabel_of_stale _ _ _ hlive]
    | true => rw [label_relabel_self _ _ _ hlive, hreading]
  · rw [label_relabel_of_ne _ _ _ h]

end Relabel

section

variable (doc : Document) (id : NodeId) (name value : String) (x : NodeId)

@[simp] theorem kind_setAttribute :
    (doc.setAttribute id name value).kind x = doc.kind x :=
  reading_label_relabel doc id (·.setAttribute name value) Label.kind (fun _ ↦ rfl) x

@[simp] theorem text_setAttribute :
    (doc.setAttribute id name value).text x = doc.text x :=
  reading_label_relabel doc id (·.setAttribute name value) Label.text (fun _ ↦ rfl) x

end

/-! ### Adding a node -/

section Push

variable (doc : Document) (node : Node)

theorem node?_push (x : NodeId) : (doc.push node).node? x =
    if x = doc.fresh then some node else doc.node? x := by
  obtain ⟨index⟩ := x
  by_cases h : index = doc.slots.size
  · subst h
    simp [node?, push, fresh]
  · simp [node?, push, fresh, Array.getElem?_push, h]

@[simp] theorem size_push : (doc.push node).slots.size = doc.slots.size + 1 := by
  simp [push]

@[simp] theorem contains_fresh : doc.contains doc.fresh = false :=
  contains_eq_false_of_size_le (Nat.le_refl _)

theorem ne_fresh {doc : Document} {x : NodeId} (h : doc.contains x) :
    x ≠ doc.fresh := by
  rintro rfl
  rw [contains_fresh] at h
  exact Bool.false_ne_true h

end Push

/-! ### Emptying a slot -/

theorem node?_free (doc : Document) (id x : NodeId) :
    (doc.free id).node? x = if x = id then none else doc.node? x := by
  obtain ⟨index⟩ := x
  obtain ⟨position⟩ := id
  by_cases h : index = position
  · subst h
    cases hslot : doc.slots[index]? with
    | none => simp [node?, free, Array.getElem?_modify, hslot]
    | some slot => simp [node?, free, Array.getElem?_modify, hslot]
  · have hindex : position ≠ index := fun heq ↦ h heq.symm
    simp [node?, free, Array.getElem?_modify, h, hindex]

@[simp] theorem size_free (doc : Document) (id : NodeId) :
    (doc.free id).slots.size = doc.slots.size := by
  simp [free]

@[simp] theorem size_foldl_free (doc : Document) (ids : List NodeId) :
    (ids.foldl free doc).slots.size = doc.slots.size := by
  induction ids generalizing doc with
  | nil => rfl
  | cons first rest ih => rw [List.foldl_cons, ih, size_free]

theorem node?_foldl_free (doc : Document) (ids : List NodeId) (x : NodeId) :
    (ids.foldl free doc).node? x = if x ∈ ids then none else doc.node? x := by
  induction ids generalizing doc with
  | nil => simp
  | cons first rest ih =>
    rw [List.foldl_cons, ih, node?_free]
    by_cases hrest : x ∈ rest
    · simp [hrest]
    · simp [hrest]

end LoopDirectives.Document
