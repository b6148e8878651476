import Mathlib.Data.Nat.Init
import LoopDirectives.Proofs.Import.Coherent

/-!
# What a type element says

Two type elements are in the same form when they agree in their layer, which is all that they say
apart from their own identifier and the one that they refer to, and refer to the same type
(`Import.sameType_iff`). A declared copy has the layer of the original and is the last entry of the
table (`Import.declare_spec`). So an imported link is found by the next import
(`Import.importLink_spec`, `Import.TypesExtend.existing?`).
-/

namespace LoopDirectives

open Document List

/-! ### Layers -/

/-- What a type element says apart from its own identifier and the one that it refers to. -/
structure TypeLayer where
  tag : String
  attributes : List (String × String)
  branches : List Element

def Element.typeLayer (element : Element) : TypeLayer where
  tag := element.value.tag
  attributes := element.value.attributesExcept ["type", "ref"]
  branches := element.branches

namespace Document

variable {doc before after : Document} {id x holder : NodeId} {added : List NodeId}

def typeLayer (doc : Document) (id : NodeId) : TypeLayer :=
  (doc.element id).typeLayer

theorem Forest.typeLayer_eq (forest : doc.Forest) (id : NodeId) : doc.typeLayer id =
    { tag := doc.tag id
      attributes := (doc.label id).attributesExcept ["type", "ref"]
      branches := (doc.children id).map doc.element } := by
  rw [typeLayer, forest.element_eq]
  rfl

theorem Forest.attribute?_of_element_eq (forest : doc.Forest) {other : Document}
    (hother : other.Forest) (h : other.element x = doc.element x) (name : String) :
    other.attribute? x name = doc.attribute? x name :=
  congrArg (·.attribute? name) (forest.label_eq_of_element_eq hother h)

theorem Grown.element_eq (grown : Grown before after holder added) (hbefore : before.Forest)
    (hafter : after.Forest) (hx : before.contains x) (hholder : holder ∉ before.subtree x) :
    after.element x = before.element x := by
  refine hbefore.element_congr hafter fun y hy ↦ ?_
  have hlive := hbefore.contains_of_mem_subtree hx hy
  have hne : y ≠ holder := by
    rintro rfl
    exact hholder hy
  exact ⟨grown.label y hlive, grown.children_of_ne y hlive hne⟩

end Document

namespace Label

theorem attributesExcept_setAttribute {names : List String} {name : String} (hname : name ∈ names)
    (label : Label) (value : String) :
    (label.setAttribute name value).attributesExcept names = label.attributesExcept names := by
  have hassign (attributes : List (String × String)) :
      (assign name value attributes).filter (fun entry ↦ !names.contains entry.1) =
        attributes.filter fun entry ↦ !names.contains entry.1 := by
    induction attributes with
    | nil => simp [assign, hname]
    | cons entry rest ih =>
      by_cases heq : entry.1 = name
      · simp [assign, heq, hname]
      · rw [assign, if_neg heq, filter_cons, filter_cons, ih]
  exact hassign label.attributes

theorem attribute?_retyped_ref {label : Label} {reference? : Option String}
    (h : reference? = none → label.attribute? "ref" = none) (id : String) :
    (label.retyped id reference?).attribute? "ref" = reference? := by
  cases reference? with
  | none => rw [retyped, attribute?_setAttribute_of_ne (by decide), h rfl]
  | some reference => exact attribute?_setAttribute_self ..

theorem attributesExcept_retyped (label : Label) (id : String) (reference? : Option String) :
    (label.retyped id reference?).attributesExcept ["type", "ref"] =
      label.attributesExcept ["type", "ref"] := by
  cases reference? with
  | none => exact attributesExcept_setAttribute (by simp) ..
  | some reference =>
    rw [retyped, attributesExcept_setAttribute (by simp), attributesExcept_setAttribute (by simp)]

theorem tag_retyped (label : Label) (id : String) (reference? : Option String) :
    (label.retyped id reference?).tag = label.tag := by
  cases reference? <;> rfl

end Label

namespace Import

variable {source target : SourceUnit} {link : TypeLink} {reference? own? : Option String}
  {elements sourceElements : SourceUnit.TableElements} {id : String}
  {left right typed origin : Document} {copy : NodeId}

theorem isBuiltinType_candidateId (base : String) (number : Nat) :
    isBuiltinType (TypeTable.candidateId base number) = false := by
  have hplain : ∀ type ∈ builtinTypes, '_' ∉ type.toList := by decide +kernel
  have hmark : '_' ∈ (TypeTable.candidateId base number).toList := by
    simp [TypeTable.candidateId, String.toList_append]
  rw [isBuiltinType, contains_eq_mem, decide_eq_false_iff_not]
  exact fun hmem ↦ hplain _ hmem hmark

theorem isBuiltinType_newId (target : SourceUnit) (hid : isBuiltinType id = false) :
    isBuiltinType (newId target id) = false := by
  unfold newId
  split
  · obtain ⟨number, -, -, hid, -⟩ := target.types.freshId_spec id
    rw [hid, isBuiltinType_candidateId]
  · exact hid

/-! ### Types in the same form -/

theorem map_element_eq_iff {lefts rights : List NodeId}
    (hleft : ∀ x ∈ lefts, left.contains x) (hright : ∀ x ∈ rights, right.contains x) :
    (lefts.length = rights.length ∧
      (lefts.zip rights).all (fun pair ↦ left.sameStructure pair.1 right pair.2)) ↔
        lefts.map left.element = rights.map right.element := by
  induction lefts generalizing rights with
  | nil => cases rights <;> simp
  | cons first rest ih =>
    cases rights with
    | nil => simp
    | cons other others =>
      obtain ⟨hfirst, hrest⟩ := forall_mem_cons.mp hleft
      obtain ⟨hother, hothers⟩ := forall_mem_cons.mp hright
      have hsame : left.sameStructure first right other ↔
          left.element first = right.element other := by
        rw [sameStructure, hfirst, hother, Bool.true_and, Bool.true_and, Element.sameStructure_iff]
      simp only [length_cons, Nat.succ_inj, zip_cons_cons, all_cons,
        Bool.and_eq_true, map_cons, List.cons.injEq, hsame, ← ih hrest hothers]
      tauto

/-- A type is the other one with a new reference if it has the reference and the same layer. -/
theorem sameType_iff (hleft : left.Forest) (hright : right.Forest) {leftNode rightNode : NodeId} :
    sameType left leftNode right rightNode reference? ↔
      left.contains leftNode ∧ right.contains rightNode ∧
        left.attribute? leftNode "ref" = reference? ∧
        left.typeLayer leftNode = right.typeLayer rightNode := by
  have hchildren := map_element_eq_iff
    (fun x (hx : x ∈ left.children leftNode) ↦ hleft.contains_child hx)
    (fun x (hx : x ∈ right.children rightNode) ↦ hright.contains_child hx)
  simp only [sameType, Bool.and_eq_true, beq_iff_eq, hleft.typeLayer_eq, hright.typeLayer_eq,
    TypeLayer.mk.injEq, ← hchildren]
  tauto

/-! ### Tables with more types -/

/-- The second unit has the types of the first one, in the same elements, and others after them. -/
structure TypesExtend (before after : SourceUnit) : Prop where
  entries : before.types.entries <+: after.types.entries
  contains : ∀ entry ∈ before.types.entries,
    after.document.contains entry.node = before.document.contains entry.node
  element : ∀ entry ∈ before.types.entries,
    after.document.element entry.node = before.document.element entry.node

namespace TypesExtend

variable {before middle after : SourceUnit} {id : String} {entry : TypeEntry}

theorem refl (unit : SourceUnit) : TypesExtend unit unit :=
  ⟨prefix_rfl, fun _ _ ↦ rfl, fun _ _ ↦ rfl⟩

theorem trans (first : TypesExtend before middle) (second : TypesExtend middle after) :
    TypesExtend before after where
  entries := first.entries.trans second.entries
  contains entry hentry :=
    (second.contains entry (first.entries.subset hentry)).trans (first.contains entry hentry)
  element entry hentry :=
    (second.element entry (first.entries.subset hentry)).trans (first.element entry hentry)

theorem get? (extend : TypesExtend before after) (h : before.types.get? id = some entry) :
    after.types.get? id = some entry :=
  TypeTable.get?_of_entries extend.entries h

section

variable (extend : TypesExtend before after) (hbefore : before.document.Forest)
  (hafter : after.document.Forest) (hsource : source.document.Forest)

include extend hbefore hafter hsource

theorem sameType_eq (hentry : entry ∈ before.types.entries) :
    sameType after.document entry.node source.document link.node reference? =
      sameType before.document entry.node source.document link.node reference? := by
  have helement := extend.element entry hentry
  have hlayer : after.document.typeLayer entry.node = before.document.typeLayer entry.node :=
    congrArg Element.typeLayer helement
  rw [Bool.eq_iff_iff, sameType_iff hafter hsource, sameType_iff hbefore hsource,
    extend.contains entry hentry, hbefore.attribute?_of_element_eq hafter helement, hlayer]

/-- A type that was found is found again when the types are extended. -/
theorem existing? (h : existing? source before link reference? = some id) :
    existing? source after link reference? = some id := by
  obtain ⟨added, hadded⟩ := extend.entries
  obtain ⟨entry, hentry, rfl⟩ := Option.map_eq_some_iff.mp h
  have hsame : before.types.entries.find? (fun entry ↦
      sameType after.document entry.node source.document link.node reference?) = some entry := by
    rw [← hentry]
    exact find?_congr fun other hother ↦ extend.sameType_eq hbefore hafter hsource hother
  rw [Import.existing?, ← hadded, find?_append, hsame, Option.some_or, Option.map_some]

end

end TypesExtend

theorem typesExtend_of_grown {after : SourceUnit} (indexed : target.IndexedBy elements)
    (hafter : after.document.Forest) (hentries : target.types.entries <+: after.types.entries)
    {holder : NodeId} {added : List NodeId}
    (hgrown : Grown target.document after.document holder added)
    (hholder : ∀ entry ∈ target.types.entries, holder ∉ target.document.subtree entry.node) :
    TypesExtend target after := by
  have hlive := indexed.readable.types
  exact ⟨hentries, fun entry hentry ↦
    (hgrown.contains _ (hlive entry hentry)).trans (hlive entry hentry).symm, fun entry hentry ↦
    hgrown.element_eq indexed.forest hafter (hlive entry hentry) (hholder entry hentry)⟩

theorem append_copied (indexed : target.IndexedBy elements)
    (hcopied : Copied origin target.document typed copy) (table : SourceUnit.TableName) :
    Grown target.document (typed.append (elements.get table) copy) (elements.get table) [copy] ∧
      (typed.append (elements.get table) copy).contains copy ∧
      (typed.append (elements.get table) copy).element copy = typed.element copy := by
  have htyped := indexedBy_copied indexed hcopied
  have hlive := hcopied.contains_copy indexed.forest
  obtain ⟨hne, habove⟩ := hcopied.not_above indexed.forest (indexed.contains_get table)
  have hgrown : Grown typed (typed.append (elements.get table) copy) (elements.get table) [copy] :=
    htyped.grown_append (hcopied.parent?_copy indexed.forest) hlive hne habove
  refine ⟨(indexed.forest.grown_of_steps (hcopied.steps indexed.forest.guards_fresher)
    (indexed.contains_get table)).trans hgrown, hgrown.contains copy hlive, ?_⟩
  refine hgrown.element_eq htyped.forest (htyped.forest.append _ _) hlive fun hmem ↦ ?_
  exact ((htyped.forest.mem_subtree_iff copy _).mp hmem).elim hne.symm habove

/-! ### Declaring a type -/

theorem element_setReference {doc : Document} (forest : doc.Forest) {node : NodeId}
    (hnode : doc.contains node) (id : String) (reference? : Option String) :
    (setReference (doc.setAttribute node "type" id) node reference?).element node =
      .node ((doc.label node).retyped id reference?) (doc.element node).branches := by
  have hnamed := forest.element_relabel_self hnode (·.setAttribute "type" id)
  cases reference? with
  | none => exact hnamed
  | some reference =>
    have hlive : (doc.setAttribute node "type" id).contains node :=
      (contains_relabel ..).trans hnode
    have hreferring := (forest.relabel node (·.setAttribute "type" id)).element_relabel_self hlive
      (·.setAttribute "ref" reference)
    rw [hnamed, label_relabel_self _ _ _ hnode] at hreferring
    exact hreferring

theorem readings_retyped (hsource : origin.Forest) (forest : target.document.Forest)
    {node : NodeId} (hcopy : target.document.copyFrom? origin node = some (typed, copy))
    (id : String) (reference? : Option String) :
    (setReference (typed.setAttribute copy "type" id) copy reference?).label copy =
        (origin.label node).retyped id reference? ∧
      (setReference (typed.setAttribute copy "type" id) copy reference?).typeLayer copy =
        origin.typeLayer node := by
  have hcopied := copied_of_copyFrom? hcopy
  have hlive := hcopied.contains_copy forest
  have hlabel := forest.label_copyFrom? hsource hcopy
  refine ⟨(label_setReference_self hlive id reference?).trans (by rw [hlabel]), ?_⟩
  rw [typeLayer, element_setReference (hcopied.forest_after forest) hlive, hlabel,
    forest.element_copyFrom? hcopy, typeLayer, Element.typeLayer, Element.typeLayer,
    hsource.value_element, Tree.value, Tree.branches, Label.tag_retyped,
    Label.attributesExcept_retyped]

theorem enter_of_read? {entry : TypeEntry} {table : NodeId}
    (htable : target.types.element? = some table)
    (hentry : TypeEntry.read? typed copy = some entry)
    (hfree : target.types.contains entry.id = false) :
    enter target typed copy .types = { target with
      types := { target.types with entries := target.types.entries ++ [entry] }
      document := typed.append table copy } := by
  have hplace := Keyed.place_of_notMem TypeEntry.id (TypeTable.contains_eq_false_iff.mp hfree)
  simp [enter, SourceUnit.insert?, TypeTable.insert?, TypeTable.push, htable, hentry, hplace]

theorem declare_eq_append {table : NodeId} (forest : target.document.Forest)
    (htable : target.types.element? = some table) (hlive : source.document.contains link.node)
    (hfree : target.types.contains id = false) (reference? : Option String) :
    ∃ copied entry,
      target.document.copyFrom? source.document link.node = some (copied, entry.node) ∧
      entry.id = id ∧ declare source target link id reference? = { target with
        types := { target.types with entries := target.types.entries ++ [entry] }
        document := (setReference (copied.setAttribute entry.node "type" id) entry.node
          reference?).append table entry.node } := by
  obtain ⟨copied, copy, hcopy, hdeclare⟩ := declare_eq_enter target hlive id reference?
  have htype := typeId?_setReference ((copied_of_copyFrom? hcopy).contains_copy forest) id
    reference?
  obtain ⟨entry, hentry, rfl, rfl⟩ : ∃ entry : TypeEntry,
      TypeEntry.read? (setReference (copied.setAttribute copy "type" id) copy reference?) copy =
        some entry ∧ entry.id = id ∧ entry.node = copy := by
    rw [TypeEntry.read?, htype]
    exact ⟨_, rfl, rfl, rfl⟩
  exact ⟨copied, entry, hcopy, rfl, hdeclare.trans (enter_of_read? htable hentry hfree)⟩

/-- Assumes: a link of the source and a free name. The link is declared at the end under the name.
-/
theorem declare_spec (hsource : source.IndexedBy sourceElements)
    (indexed : target.IndexedBy elements)
    (hlink : TypeChain.link? source link.id = some (link, own?))
    (hid : target.types.contains id = false) (hplain : reference? = none → own? = none) :
    ∃ entry, (declare source target link id reference?).types.entries =
        target.types.entries ++ [entry] ∧ entry.id = id ∧
      TypesExtend target (declare source target link id reference?) ∧
      sameType (declare source target link id reference?).document entry.node source.document
        link.node reference? := by
  obtain ⟨hlive, -, hown⟩ := kind_of_link? hsource hlink
  obtain ⟨copied, entry, hcopy, hentryId, heq⟩ :=
    declare_eq_append indexed.forest indexed.element?_types hlive hid reference?
  obtain ⟨hlabel, hlayer⟩ := readings_retyped hsource.forest indexed.forest hcopy id reference?
  have hcopied := copied_retyped hcopy id reference?
  obtain ⟨hgrown, hentryLive, helement⟩ := append_copied indexed hcopied .types
  have htyped := hcopied.forest_after indexed.forest
  have hforest := htyped.append elements.types entry.node
  rw [heq]
  refine ⟨entry, rfl, hentryId, typesExtend_of_grown indexed hforest (prefix_append _ _) hgrown
    fun old hold ↦ indexed.forest.not_mem_subtree_of_parent? (indexed.read?_of_mem_types hold).1,
    (sameType_iff hforest hsource.forest).mpr ⟨hentryLive, hlive, ?_, ?_⟩⟩
  · rw [htyped.attribute?_of_element_eq hforest helement, attribute?, hlabel]
    exact Label.attribute?_retyped_ref (fun hnone ↦ hown.trans (hplain hnone)) id
  · exact (congrArg Element.typeLayer helement).trans hlayer

/-! ### Importing a link -/

def DeclaresNoBuiltin (unit : SourceUnit) : Prop :=
  ∀ entry ∈ unit.types.entries, isBuiltinType entry.id = false

/-- Assumes: a link of the source that is not built in. Afterwards the target has the same type. -/
theorem importLink_spec (hsource : source.IndexedBy sourceElements)
    (indexed : target.IndexedBy elements)
    (hlink : TypeChain.link? source link.id = some (link, own?))
    (hdeclared : isBuiltinType link.id = false) (hplain : reference? = none → own? = none) :
    ∃ after id, importLink source target link reference? = (after, id) ∧
      after.IndexedBy elements ∧ TypesExtend target after ∧
      existing? source after link reference? = some id ∧
      (DeclaresNoBuiltin target → DeclaresNoBuiltin after) := by
  unfold importLink
  split
  · next id hexisting => exact ⟨target, id, rfl, indexed, .refl target, hexisting, fun h ↦ h⟩
  · next hnone =>
    have hindexed := indexedBy_declares indexed ⟨_, hsource⟩
      (.type target link _ reference? ⟨own?, hlink⟩ (contains_newId target link.id))
    obtain ⟨entry, hentries, hid, hextend, hsame⟩ :=
      declare_spec hsource indexed hlink (contains_newId target link.id) hplain
    refine ⟨_, _, rfl, hindexed, hextend, ?_, fun hbuiltin ↦ ?_⟩
    · -- None of the old types is in the form of the link, so the new one is the first.
      have hold : target.types.entries.find? (fun entry ↦ sameType (declare source target link
          (newId target link.id) reference?).document entry.node source.document link.node
            reference?) = none := by
        refine find?_eq_none.mpr fun other hother ↦ ?_
        rw [hextend.sameType_eq indexed.forest hindexed.forest hsource.forest hother]
        exact find?_eq_none.mp (Option.map_eq_none_iff.mp hnone) other hother
      rw [existing?, hentries, find?_append, hold, Option.none_or, find?_singleton, hsame,
        if_pos rfl, Option.map_some, hid]
    · rw [DeclaresNoBuiltin, hentries]
      refine forall_mem_append.mpr ⟨hbuiltin, forall_mem_singleton.mpr ?_⟩
      rw [hid]
      exact isBuiltinType_newId target hdeclared

end Import

end LoopDirectives
