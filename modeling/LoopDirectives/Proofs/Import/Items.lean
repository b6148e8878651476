import Mathlib.Data.Option.Basic
import LoopDirectives.Proofs.Import.References

/-!
# What an import copies, and which types it renames

An import copies types, symbols, declarations and operands, each with all that is below it
(`Import.Item`). Of the types that these elements name it renames only some: what a type element
itself names, the type of a symbol or an operand, and that of the name in a declaration, which gets
the type of the symbol. `Import.Item.Explains` says of a new node that but for this it has the label
of a node of an item, and it holds of every new node of a copy (`Import.every_setType`,
`Import.every_setReference`).
-/

namespace LoopDirectives

open Document List

/-! ### Attributes that name types -/

def typeAttributes : List String := ["type", "ref"]

namespace Label

def untyped (label : Label) : Label :=
  { label with attributes := label.attributesExcept typeAttributes }

theorem untyped_setAttribute {name : String} (hname : name ∈ typeAttributes) (label : Label)
    (value : String) : (label.setAttribute name value).untyped = label.untyped := by
  rw [untyped, attributesExcept_setAttribute hname]
  rfl

theorem untyped_retyped (label : Label) (id : String) (reference? : Option String) :
    (label.retyped id reference?).untyped = label.untyped := by
  have htyped := untyped_setAttribute (mem_cons_self ..) label id
  cases reference? with
  | none => exact htyped
  | some reference =>
    exact (untyped_setAttribute (by simp [typeAttributes]) _ reference).trans htyped

end Label

namespace SourceUnit

/-- Every type that the unit names is built in or declared. -/
def Closed (unit : SourceUnit) : Prop :=
  ∀ x, ∀ name ∈ typeAttributes, ∀ id,
    unit.document.attribute? x name = some id → unit.Resolves id

instance (unit : SourceUnit) : Decidable unit.Closed :=
  decidable_of_iff (unit.document.AllLabels fun label ↦ typeAttributes.all fun name ↦
      (label.attribute? name).all fun id ↦ unit.Resolves id) <| by
    simp only [AllLabels, all_eq_true, Option.all_eq_true, decide_eq_true_iff]
    exact ⟨fun h x name hname id hid ↦ h x (contains_of_attribute? hid) name hname id hid,
      fun h x _ name hname id hid ↦ h x name hname id hid⟩

theorem Closed.refersWithin {unit : SourceUnit} (closed : unit.Closed) : unit.RefersWithin :=
  fun entry _ reference h ↦ closed entry.node "ref" (by simp [typeAttributes]) reference h

end SourceUnit

/-! ### Changes of labels -/

namespace Document

variable {doc source typed : Document} {upper x place : NodeId} {kind : Kind}

theorem Retypes.forest (forest : source.Forest) (retypes : Retypes place source typed) :
    typed.Forest := by
  induction retypes with
  | refl => exact forest
  | tail _ step ih =>
    obtain ⟨_, _, -, rfl⟩ := step
    exact ih.relabel place _

theorem Retypes.mem_subtree_iff (forest : source.Forest) (retypes : Retypes place source typed)
    (node : NodeId) : x ∈ typed.subtree node ↔ x ∈ source.subtree node := by
  have hparent : typed.parent? = source.parent? := funext fun x ↦ (retypes.readings x).2.1
  rw [(retypes.forest forest).mem_subtree_iff, forest.mem_subtree_iff, Above, Above, hparent]

theorem map_eq_replaceF {α β : Type} {f g : α → β} {change : β → Option β} {test : α → Bool}
    {items : List α} {found : α} (hnodup : items.Nodup) (hfind : items.find? test = some found)
    (hfound : change (f found) = some (g found))
    (hother : ∀ item, test item = false → change (f item) = none)
    (hkept : ∀ item ∈ items, item ≠ found → g item = f item) :
    items.map g = (items.map f).replaceF change := by
  induction items with
  | nil => cases hfind
  | cons item rest ih =>
    obtain ⟨hitem, hnodup⟩ := nodup_cons.mp hnodup
    obtain ⟨hfirst, hrest⟩ := forall_mem_cons.mp hkept
    rw [map_cons, map_cons]
    cases htest : test item with
    | true =>
      rw [find?_cons_of_pos htest] at hfind
      cases hfind
      rw [replaceF_cons_of_some _ hfound, map_congr_left fun other hmem ↦
        hrest other hmem (ne_of_mem_of_not_mem hmem hitem)]
    | false =>
      rw [find?_cons_of_neg (by simp [htest])] at hfind
      have hne : item ≠ found := by
        rintro rfl
        cases htest.symm.trans (find?_some hfind)
      rw [replaceF_cons_of_none _ (hother item htest), hfirst hne, ih hnodup hfind hrest]

/-- A change to the first child of a kind. -/
theorem Forest.element_relabel_childOf? (forest : doc.Forest)
    (hx : doc.childOf? upper kind = some x) (change : Label → Label) :
    (doc.relabel x change).element upper = .node (doc.element upper).value
      ((doc.element upper).branches.replaceF fun child ↦
        if child.value.kind == kind then some (.node (change child.value) child.branches)
        else none) := by
  have hparent := forest.parent?_of_childOf? hx
  have hkind (child : NodeId) :
      ((doc.element child).value.kind == kind) = doc.isKind child kind := by
    rw [forest.value_element]
    rfl
  rw [(forest.relabel x change).element_eq, forest.element_eq,
    label_relabel_of_ne _ _ _ (forest.parent_ne hparent), children_relabel]
  refine congrArg (Tree.node _) (map_eq_replaceF (forest.nodup_children upper) hx ?_
    (fun child hchild ↦ ?_) fun child hchild hne ↦ ?_)
  · rw [hkind, if_pos (find?_some hx), forest.element_relabel_self (contains_of_parent? hparent),
      forest.value_element]
  · rw [hkind, hchild]
    rfl
  · refine forest.element_congr (forest.relabel x change) fun y hy ↦
      ⟨label_relabel_of_ne _ _ _ ?_, children_relabel ..⟩
    rintro rfl
    exact (forest.apart_of_parent? hparent (forest.parent?_of_mem hchild) hne.symm).1 hy

end Document

namespace Import

open SourceUnit

/-! ### Items -/

/-- What an import copies: a type, the symbol or the declaration of a variable, or an operand. -/
inductive Item where
  | type (entry : TypeEntry)
  | symbol (symbol : Symbol)
  | declaration (symbol : Symbol) (node : NodeId)
  | operand (node : NodeId)

namespace Item

def root : Item → NodeId
  | type entry => entry.node
  | symbol entry => entry.node
  | declaration _ node => node
  | operand node => node

/-- The type that the copy of an attribute stands for, if the attribute is renamed. -/
def original? (doc : Document) : Item → NodeId → String → Option String
  | type entry, place, name =>
    if place = entry.node then doc.attribute? place name else none
  | symbol entry, place, name =>
    if place = entry.node ∧ name = "type" then entry.type? else none
  | declaration entry node, place, name =>
    if doc.childOf? node .name = some place ∧ name = "type" then entry.type? else none
  | operand node, place, name =>
    if place = node ∧ name = "type" then doc.typeId? node else none

/-- The type is that of one of the operands or of a symbol of theirs. -/
def Needed (source : SourceUnit) (operands : List NodeId) (id : String) : Prop :=
  ∃ operand ∈ operands, source.document.typeId? operand = some id ∨
    ∃ symbol, symbolOf? source operand = some symbol ∧ symbol.type? = some id

/-- The item is one that the operands need: one of them, a symbol of theirs, its declaration, or a
type that one of their types leads to. -/
def Of (source : SourceUnit) (operands : List NodeId) : Item → Prop
  | type entry => entry ∈ source.types.entries ∧
      ∃ id, Needed source operands id ∧ Relation.ReflTransGen source.Refers id entry.id
  | symbol entry => ∃ operand ∈ operands, symbolOf? source operand = some entry
  | declaration entry node => source.declarations.get? entry.name = some node ∧
      ∃ operand ∈ operands, symbolOf? source operand = some entry
  | operand node => node ∈ operands

/-- The label comes from a node of the item: the renamed attributes name types that stand for the
originals, and all else is as it was. -/
structure Explains (item : Item) (source : Document) (stands : String → String → Prop)
    (node : NodeId) (label : Label) : Prop where
  inside : node ∈ source.subtree item.root
  untyped : label.untyped = (source.label node).untyped
  renamed : ∀ name ∈ typeAttributes, ∀ original, item.original? source node name = some original →
    ∃ id, label.attribute? name = some id ∧ stands original id
  kept : ∀ name ∈ typeAttributes, item.original? source node name = none →
    label.attribute? name = source.attribute? node name

variable {item : Item} {source doc copied : Document} {stands other : String → String → Prop}
  {node copy x y : NodeId} {label : Label}

theorem Explains.mono (explains : item.Explains source stands y label)
    (h : ∀ original id, stands original id → other original id) :
    item.Explains source other y label where
  inside := explains.inside
  untyped := explains.untyped
  renamed name hname original horiginal := by
    obtain ⟨id, hid, hstands⟩ := explains.renamed name hname original horiginal
    exact ⟨id, hid, h original id hstands⟩
  kept := explains.kept

theorem explains_self (hy : y ∈ source.subtree item.root)
    (hnone : ∀ name, item.original? source y name = none) :
    item.Explains source stands y (source.label y) where
  inside := hy
  untyped := rfl
  renamed name _ _ horiginal := nomatch (hnone name).symm.trans horiginal
  kept _ _ _ := rfl

end Item

/-! ### Elements that get a type -/

section Retyping

variable {doc source typed copied : Document} {place x copy node : NodeId}
  {stands : String → String → Prop} {own? type? reference? : Option String}

/-- Every label of an item is explained after one of its nodes got types. -/
theorem every_of_retypes (item : Item) (forest : source.Forest)
    (retypes : Retypes place source typed)
    (hplace : item.Explains source stands place (typed.label place))
    (hkept : ∀ y, y ≠ place → ∀ name, item.original? source y name = none) :
    (typed.element item.root).Every fun label _ ↦
      ∃ node, item.Explains source stands node label := by
  refine (retypes.forest forest).every_element_iff.mpr fun y hy ↦ ⟨y, ?_⟩
  by_cases heq : y = place
  · rwa [heq]
  · rw [(retypes.readings y).2.2 heq]
    exact Item.explains_self ((retypes.mem_subtree_iff forest _).mp hy) (hkept y heq)

/-- Assumes: a live node of the item, whose own type the new one stands for. -/
theorem explains_setType (item : Item) (hplace : place ∈ source.subtree item.root)
    (hlive : source.contains place) (hrel : Option.Rel stands own? type?) (horiginal : ∀ name,
      item.original? source place name = if name = "type" then own? else none) :
    item.Explains source stands place ((setType source place type?).label place) := by
  cases hrel with
  | none => exact Item.explains_self hplace fun name ↦ by simp [horiginal]
  | @some original type hstands =>
    rw [setType, setAttribute, label_relabel_self _ _ _ hlive]
    refine ⟨hplace, Label.untyped_setAttribute (mem_cons_self ..) _ _,
      fun name _ other hother ↦ ?_, fun name _ hnone ↦ ?_⟩
    · rw [horiginal] at hother
      split at hother
      · next hname =>
        cases hname
        cases hother
        exact ⟨type, Label.attribute?_setAttribute_self .., hstands⟩
      · cases hother
    · refine Label.attribute?_setAttribute_of_ne ?_ _ _
      rintro rfl
      simp [horiginal] at hnone

theorem every_setType (item : Item) (forest : source.Forest)
    (hroot : source.contains item.root) (hplace : place ∈ source.subtree item.root)
    (hrel : Option.Rel stands own? type?)
    (horiginal : ∀ y name,
      item.original? source y name = if y = place ∧ name = "type" then own? else none) :
    ((setType source place type?).element item.root).Every fun label _ ↦
      ∃ node, item.Explains source stands node label :=
  every_of_retypes item forest (retypes_setType source place type?)
    (explains_setType item hplace (forest.contains_of_mem_subtree hroot hplace) hrel
      fun name ↦ by simp [horiginal])
    fun y hy name ↦ by simp [horiginal, hy]

theorem every_setReference {entry : TypeEntry} {id : String} (forest : source.Forest)
    (hlive : source.contains entry.node) (hentry : source.typeId? entry.node = some entry.id)
    (hstands : stands entry.id id)
    (hrel : Option.Rel stands (source.attribute? entry.node "ref") reference?) :
    ((setReference (source.setAttribute entry.node "type" id) entry.node reference?).element
      entry.node).Every fun label _ ↦
        ∃ node, (Item.type entry).Explains source stands node label := by
  refine every_of_retypes (.type entry) forest
    (retypes_setReference source entry.node id reference?) ?_ fun y hy name ↦ if_neg hy
  rw [label_setReference_self hlive]
  have horiginal (name : String) :
      (Item.type entry).original? source entry.node name = source.attribute? entry.node name :=
    if_pos rfl
  generalize hown : source.attribute? entry.node "ref" = own? at hrel
  have hreference : ((source.label entry.node).retyped id reference?).attribute? "ref" =
      reference? := by
    refine Label.attribute?_retyped_ref (fun hnone ↦ ?_) id
    subst hnone
    cases hrel
    exact hown
  refine ⟨forest.self_mem_subtree _, Label.untyped_retyped .., ?_, ?_⟩
  · simp only [typeAttributes, forall_mem_cons, horiginal]
    refine ⟨fun original hsome ↦ ?_, fun original hsome ↦ ?_, forall_mem_nil _⟩
    · cases hentry.symm.trans hsome
      exact ⟨id, Label.attribute?_retyped_type .., hstands⟩
    · cases hown.symm.trans hsome
      cases hrel with
      | some hstands => exact ⟨_, hreference, hstands⟩
  · simp only [typeAttributes, forall_mem_cons, horiginal]
    refine ⟨fun hnone ↦ ?_, fun hnone ↦ ?_, forall_mem_nil _⟩
    · cases hentry.symm.trans hnone
    · cases hown.symm.trans hnone
      cases hrel
      exact hreference.trans hown.symm

end Retyping

/-! ### Copies that get a type -/

section Copies

variable {origin copied typed : Document} {target : SourceUnit} {copy node : NodeId}

theorem element_setNameType_copy (forest : target.document.Forest) (horigin : origin.Forest)
    (hcopy : target.document.copyFrom? origin node = some (copied, copy))
    (type? : Option String) :
    (setNameType copied copy type?).element copy =
      (setNameType origin node type?).element node := by
  have hforest := forest.copyFrom? hcopy
  have hsame := forest.element_copyFrom? hcopy
  have hnames := congrArg (Element.childOf? · .name) hsame
  rw [hforest.childOf?_element, horigin.childOf?_element] at hnames
  unfold setNameType
  cases hname : copied.childOf? copy .name <;> cases hother : origin.childOf? node .name <;>
    simp only [hname, hother, Option.map_none, Option.map_some, reduceCtorEq] at hnames
  · exact hsame
  · cases type? with
    | none => exact hsame
    | some type =>
      dsimp only [setType, setAttribute]
      rw [hforest.element_relabel_childOf? hname, hsame, horigin.element_relabel_childOf? hother]

theorem element_setReference_copy (forest : target.document.Forest) (horigin : origin.Forest)
    (hcopy : target.document.copyFrom? origin node = some (copied, copy)) (id : String)
    (reference? : Option String) :
    (setReference (copied.setAttribute copy "type" id) copy reference?).element copy =
      (setReference (origin.setAttribute node "type" id) node reference?).element node := by
  rw [element_setReference (forest.copyFrom? hcopy)
      ((copied_of_copyFrom? hcopy).contains_copy forest),
    element_setReference horigin (copyFrom?_eq_some hcopy).1, forest.label_copyFrom? horigin hcopy,
    forest.element_copyFrom? hcopy]

theorem readings_append {doc : Document} (forest : doc.Forest) (parent node x : NodeId) :
    (doc.append parent node).contains x = doc.contains x ∧
      (doc.append parent node).label x = doc.label x := by
  rcases forest.append_cases parent node with heq | hmoved
  · rw [heq]
    exact ⟨rfl, rfl⟩
  · exact ⟨hmoved.contains_eq x, hmoved.label_eq x⟩

end Copies

end Import

end LoopDirectives
