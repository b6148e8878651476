import LoopDirectives.Proofs.Document.Effects
import LoopDirectives.Proofs.Document.Grafting
import LoopDirectives.Proofs.Markup.RoundTrip

/-!
# Copies

A copy has the structure of what was copied and is made of new nodes only, and the document keeps
what it had (`Duplicated`). Edits of a copy, also such that hang it somewhere in the document, leave
a subtree as it is as long as they hang nothing into it (`Untouched`): what is above a node of the
document is never new, so that no deletion of a new node reaches it.
-/

namespace LoopDirectives

open Document List

namespace Tree

variable {α β : Type}

mutual

theorem length_preorder_map (f : α → β) :
    ∀ tree : Tree α, (tree.map f).preorder.length = tree.preorder.length
  | .node _ branches => by
    simp [map, preorder, length_preorderAll_mapAll f branches]

theorem length_preorderAll_mapAll (f : α → β) :
    ∀ trees : List (Tree α), (preorderAll (mapAll f trees)).length = (preorderAll trees).length
  | [] => rfl
  | tree :: trees => by
    simp [mapAll, preorderAll, length_preorder_map f tree, length_preorderAll_mapAll f trees]

end

end Tree

namespace Document

variable {doc source other before after copied : Document}
  {id copy root parent anchor x : NodeId} {edit : Edit} {edits : List Edit}

/-! ### The size of a copy -/

theorem live_push (doc : Document) (node : Node) :
    (doc.push node).size = doc.size + 1 := by
  simp [size, push]

theorem live_modify (doc : Document) (id : NodeId) (change : Node → Node) :
    (doc.modify id change).size = doc.size :=
  size_congr (size_modify ..) fun x ↦ contains_modify doc id change x

mutual

theorem live_plant (doc : Document) (parent? : Option NodeId) : ∀ element : Element,
    (doc.plant parent? element).1.size = doc.size + element.preorder.length
  | .node label branches => by
    change (modify _ doc.fresh _).size = _
    rw [live_modify, live_plantAll, live_push, Tree.preorder, length_cons]
    omega

theorem live_plantAll (doc : Document) (parent : NodeId) : ∀ elements : List Element,
    (doc.plantAll parent elements).1.size =
      doc.size + (Tree.preorderAll elements).length
  | [] => rfl
  | element :: rest => by
    change ((doc.plant (some parent) element).1.plantAll parent rest).1.size = _
    rw [live_plantAll, live_plant, Tree.preorderAll, length_append, Nat.add_assoc]

end

/-! ### What a copy is -/

theorem sameStructure_iff_element_eq : doc.sameStructure id other x ↔
    (doc.contains id ∧ other.contains x) ∧ doc.element id = other.element x := by
  rw [sameStructure, Bool.and_eq_true, Bool.and_eq_true, Element.sameStructure_iff]

/-- What a document shows when it has got a copy of a node of `source` and of all that is below it,
and nothing else has changed. -/
structure Duplicated (source before after : Document) (id copy : NodeId) : Prop where
  forest : after.Forest
  parent?_copy : after.parent? copy = none
  sameStructure : after.sameStructure copy source id = true
  subtree_new : ∀ x ∈ after.subtree copy, before.contains x = false ∧ before.fresh.index ≤ x.index
  node?_old : ∀ x, before.contains x = true → after.node? x = before.node? x
  size_eq : after.size = before.size + (source.subtree id).length

theorem Forest.exists_duplicated (forest : doc.Forest) (hlive : source.contains id) :
    ∃ copied copy, doc.copyFrom? source id = some (copied, copy) ∧
      Duplicated source doc copied id copy := by
  have planted := forest.planted_plant (source.element id)
  have hroot : doc.fresh ∈ [doc.fresh] := mem_singleton.mpr rfl
  have hplant := forest.plant (source.element id)
  refine ⟨_, _, (copyFrom?_eq_plant ..).trans (if_pos hlive), ?_⟩
  rw [snd_plant]
  refine ⟨hplant, planted.parent?_root _ hroot, ?_, fun x hx ↦ ?_, fun x hx ↦ ?_, ?_⟩
  · rw [sameStructure_iff_element_eq]
    exact ⟨⟨planted.contains_root hroot, hlive⟩, forest.element_plant _⟩
  · have hnew : ¬ x.index < doc.slots.size := by
      rcases (hplant.mem_subtree_iff _ x).mp hx with rfl | habove
      · exact Nat.lt_irrefl _
      · intro hold
        simpa using forest.contains_above ((planted.above_cases forest habove).1 hold)
    exact ⟨Bool.eq_false_iff.mpr fun hold ↦ hnew (index_lt_size hold), Nat.le_of_not_lt hnew⟩
  · exact planted.node?_old x (index_lt_size hx)
  · rw [live_plant, element, Tree.length_preorder_map, subtree]

/-! ### Edits of a copy -/

/-- The edit changes, moves and deletes only nodes that the document does not have, and hangs none
of them into the subtree of `root`. -/
def KeepsOff (doc : Document) (root : NodeId) : Edit → Prop
  | .create _ | .createOf _ | .createLeaf _ _ | .copy _ | .copyFrom _ _ => True
  | .setText id _ | .setAttribute id _ _ | .removeAttribute id _ | .detach id | .delete id =>
    doc.contains id = false
  | .append parent id | .prepend parent id =>
    doc.contains id = false ∧ parent ∉ doc.subtree root
  | .insertBefore anchor id | .insertAfter anchor id =>
    doc.contains id = false ∧ anchor ∉ doc.descendants root
  | .replace old new => doc.contains old = false ∧ doc.contains new = false

/-- What edits that keep off the subtree of `root` leave: the nodes there were keep their labels and
parents, and those of the subtree their children. -/
structure Untouched (before after : Document) (root : NodeId) : Prop where
  forest : after.Forest
  contains : ∀ x, before.contains x = true → after.contains x = true
  label_eq : ∀ x, before.contains x = true → after.label x = before.label x
  parent?_eq : ∀ x, before.contains x = true → after.parent? x = before.parent? x
  children_eq : ∀ x ∈ before.subtree root, after.children x = before.children x

theorem ne_of_stale (hid : doc.contains id = false) (hx : doc.contains x) : x ≠ id := by
  rintro rfl
  exact Bool.false_ne_true (hid.symm.trans hx)

namespace Untouched

variable (untouched : Untouched before doc root) (forest : before.Forest)

section

include untouched

theorem step (hafter : after.Forest)
    (hkeeps : ∀ x, before.contains x → after.contains x = doc.contains x ∧
      after.label x = doc.label x ∧ after.parent? x = doc.parent? x)
    (hchildren : ∀ x ∈ before.subtree root, after.children x = before.children x) :
    Untouched before after root :=
  ⟨hafter, fun x hx ↦ (hkeeps x hx).1.trans (untouched.contains x hx),
    fun x hx ↦ (hkeeps x hx).2.1.trans (untouched.label_eq x hx),
    fun x hx ↦ (hkeeps x hx).2.2.trans (untouched.parent?_eq x hx), hchildren⟩

theorem relabel (change : Label → Label) (hid : before.contains id = false) :
    Untouched before (doc.relabel id change) root :=
  untouched.step (untouched.forest.relabel id change)
    (fun _ hx ↦ ⟨contains_relabel .., label_relabel_of_ne _ _ _ (ne_of_stale hid hx),
      parent?_relabel ..⟩)
    fun x hx ↦ (children_relabel ..).trans (untouched.children_eq x hx)

include forest

theorem filter_ne (hid : before.contains id = false) (hx : x ∈ before.subtree root) :
    (doc.children x).filter (· ≠ id) = before.children x := by
  rw [untouched.children_eq x hx]
  exact filter_eq_self.mpr fun child hchild ↦
    decide_eq_true (ne_of_stale hid (forest.contains_child hchild))

theorem detach (hid : before.contains id = false) :
    Untouched before (doc.detach id) root :=
  untouched.step (untouched.forest.detach id)
    (fun _ hx ↦ ⟨contains_detach .., label_detach ..,
      (parent?_detach ..).trans (if_neg (ne_of_stale hid hx))⟩)
    fun x hx ↦ (untouched.forest.children_detach id x).trans (untouched.filter_ne forest hid hx)

theorem moved {position : Nat} (hid : before.contains id = false)
    (hparent : parent ∉ before.subtree root) (moved : Moved doc after id parent position) :
    Untouched before after root :=
  untouched.step (moved.forest untouched.forest)
    (fun x hx ↦ ⟨moved.contains_eq x, moved.label_eq x, moved.parent?_of_ne (ne_of_stale hid hx)⟩)
    fun x hx ↦ (moved.children_of_ne x fun heq ↦ hparent (heq ▸ hx)).trans
      (untouched.filter_ne forest hid hx)

theorem insertBeside (hid : before.contains id = false)
    (hanchor : anchor ∉ before.descendants root) (offset : Nat) :
    Untouched before (doc.insertBeside anchor id offset) root := by
  rcases untouched.forest.insertBeside_cases anchor id offset with
    heq | ⟨parent, position, hparent, -, -, moved⟩
  · rwa [heq]
  · refine untouched.moved forest hid (fun hmem ↦ hanchor ?_) moved
    -- A child of a node of the subtree was a child of it from the start.
    have hchild := untouched.forest.mem_children hparent
    rw [untouched.children_eq parent hmem] at hchild
    have hstep := above_of_parent? (forest.parent?_of_mem hchild)
    refine forest.mem_descendants_iff.mpr ?_
    rcases (forest.mem_subtree_iff root parent).mp hmem with rfl | habove
    · exact hstep
    · exact habove.trans hstep

variable (hroot : before.contains root)

include hroot

theorem planted {roots : List NodeId} (planted : Planted doc after roots none) :
    Untouched before after root := by
  have hold {x : NodeId} (hx : before.contains x) :=
    planted.readings_old (index_lt_size (untouched.contains x hx))
  refine untouched.step (planted.forest_of_forest untouched.forest)
    (fun x hx ↦ ⟨(hold hx).1, (hold hx).2.1, (hold hx).2.2.1⟩) fun x hx ↦ ?_
  exact (hold (forest.contains_of_mem_subtree hroot hx)).2.2.2.trans (untouched.children_eq x hx)

theorem delete (hid : before.contains id = false) :
    Untouched before (doc.delete id) root := by
  have hkept {x : NodeId} (hx : before.contains x) : x ∉ doc.subtree id := by
    intro hmem
    rcases (untouched.forest.mem_subtree_iff id x).mp hmem with rfl | habove
    · exact ne_of_stale hid hx rfl
    · -- What is above a node that was there from the start was there too.
      have hupper : before.Above id x := (above_iff_of_parent?_eq untouched.parent?_eq
        (fun _ _ _ hparent ↦ forest.contains_parent hparent) hx).mp habove
      exact ne_of_stale hid (forest.contains_above hupper) rfl
  refine untouched.step (untouched.forest.delete id)
    (fun x hx ↦ ⟨?_, untouched.forest.label_delete (hkept hx),
      untouched.forest.parent?_delete (hkept hx)⟩)
    fun x hx ↦ ?_
  · rw [untouched.forest.contains_delete, decide_eq_true (hkept hx), Bool.and_true]
  · rw [untouched.forest.children_delete (hkept (forest.contains_of_mem_subtree hroot hx)),
      untouched.filter_ne forest hid hx]

theorem getD_copyFrom? (source : Document) (id : NodeId) :
    Untouched before (((doc.copyFrom? source id).map Prod.fst).getD doc) root := by
  cases hcopy : doc.copyFrom? source id with
  | none => exact untouched
  | some result =>
    obtain ⟨-, hcopied, -⟩ := copyFrom?_eq_some hcopy
    rw [Option.map_some, Option.getD_some, hcopied]
    exact untouched.planted forest hroot (untouched.forest.planted_plant _)

theorem run (h : KeepsOff before root edit) :
    Untouched before (edit.run doc) root := by
  have hcreate (label : Label) : Untouched before (doc.create label).1 root :=
    untouched.planted forest hroot (untouched.forest.planted_create label)
  cases edit with
  | create tag => exact hcreate _
  | createOf kind => exact hcreate _
  | createLeaf kind text => exact hcreate _
  | setText id text => exact untouched.relabel (·.setText text) h
  | setAttribute id name value => exact untouched.relabel (·.setAttribute name value) h
  | removeAttribute id name => exact untouched.relabel (·.removeAttribute name) h
  | detach id => exact untouched.detach forest h
  | delete id => exact untouched.delete forest hroot h
  | append parent id =>
    rcases untouched.forest.append_cases parent id with heq | moved
    · rwa [Edit.run, heq]
    · exact untouched.moved forest h.1 h.2 moved
  | prepend parent id =>
    cases hattach : doc.canAttach id parent with
    | false => rwa [Edit.run, prepend_of_not_canAttach hattach]
    | true => exact untouched.moved forest h.1 h.2 (untouched.forest.moved_prepend hattach)
  | insertBefore anchor id => exact untouched.insertBeside forest h.1 h.2 0
  | insertAfter anchor id => exact untouched.insertBeside forest h.1 h.2 1
  | replace old new =>
    have hmoved : Untouched before (doc.insertBefore old new) root :=
      untouched.insertBeside forest h.2 (fun hmem ↦
        ne_of_stale h.1 (forest.mem_descendants_iff.mp hmem).contains rfl) 0
    rw [Edit.run, Document.replace]
    split
    · exact hmoved.delete forest hroot h.1
    · exact hmoved
  | copy id =>
    rw [Edit.run, untouched.forest.copy?_eq]
    exact untouched.getD_copyFrom? forest hroot doc id
  | copyFrom source id => exact untouched.getD_copyFrom? forest hroot source id

theorem foldl_run (h : ∀ edit ∈ edits, KeepsOff before root edit) :
    Untouched before (edits.foldl Edit.run doc) root := by
  induction edits generalizing doc with
  | nil => exact untouched
  | cons edit rest ih =>
    obtain ⟨hedit, hrest⟩ := forall_mem_cons.mp h
    exact ih (untouched.run forest hroot hedit) hrest

theorem node?_eq (hx : x ∈ before.subtree root) :
    doc.node? x = before.node? x :=
  have hlive := forest.contains_of_mem_subtree hroot hx
  node?_congr ((untouched.contains x hlive).trans hlive.symm) (untouched.label_eq x hlive)
    (untouched.parent?_eq x hlive) (untouched.children_eq x hx)

end

end Untouched

theorem Duplicated.untouched (duplicated : Duplicated source before after id copy)
    (forest : before.Forest) (hroot : before.contains root) : Untouched before after root :=
  have hold {x : NodeId} (hx : before.contains x) := readings_eq (duplicated.node?_old x hx)
  ⟨duplicated.forest, fun _ hx ↦ (hold hx).1.trans hx, fun _ hx ↦ (hold hx).2.1,
    fun _ hx ↦ (hold hx).2.2.1,
    fun _ hx ↦ (hold (forest.contains_of_mem_subtree hroot hx)).2.2.2⟩

/-- Every live node has a copy, made of new nodes only, in its own document and in any other. Edits
that keep off a subtree of the document leave all data of its nodes as they were before the copy was
made. To have the same structure is an equivalence of live nodes, whatever documents they are in. -/
theorem copies_independent (forest : doc.Forest) :
    (∀ id, doc.contains id = true → ∃ copied copy,
      doc.copy? id = some (copied, copy) ∧ Duplicated doc doc copied id copy) ∧
    (∀ source id, source.contains id = true → ∃ copied copy,
      doc.copyFrom? source id = some (copied, copy) ∧
        Duplicated source doc copied id copy) ∧
    (∀ source copied id copy, Duplicated source doc copied id copy →
      ∀ root (edits : List Edit), doc.contains root = true →
        (∀ edit ∈ edits, KeepsOff doc root edit) →
        ∀ x ∈ doc.subtree root,
          (edits.foldl Edit.run copied).node? x = doc.node? x) ∧
    (∀ (one : Document) left, one.contains left = true → one.sameStructure left one left = true) ∧
    (∀ (one two : Document) left right, one.sameStructure left two right = true →
      two.sameStructure right one left = true) ∧
    ∀ (one two three : Document) left middle right, one.sameStructure left two middle = true →
      two.sameStructure middle three right = true → one.sameStructure left three right = true := by
  refine ⟨fun id hlive ↦ forest.copy?_eq id ▸ forest.exists_duplicated hlive,
    fun source id hlive ↦ forest.exists_duplicated hlive,
    fun source copied id copy duplicated root edits hroot hedits x hx ↦ ?_, ?_, ?_, ?_⟩
  · have untouched := (duplicated.untouched forest hroot).foldl_run forest hroot hedits
    exact untouched.node?_eq forest hroot hx
  · simp only [sameStructure_iff_element_eq]
    exact fun one left h ↦ ⟨⟨h, h⟩, trivial⟩
  · simp only [sameStructure_iff_element_eq]
    exact fun one two left right h ↦ ⟨h.1.symm, h.2.symm⟩
  · simp only [sameStructure_iff_element_eq]
    exact fun one two three left middle right hfirst hsecond ↦
      ⟨⟨hfirst.1.1, hsecond.1.2⟩, hfirst.2.trans hsecond.2⟩

/-- A copy of the outer loop is made, and its variable is renamed, it is put after the loop that was
copied, and its inner loop is deleted. The loop that was copied keeps its variable and its body. -/
theorem copies_independent_nestBetweenPragmas : ∃ copied copy,
    nestBetweenPragmas.copy? ⟨2⟩ = some (copied, copy) ∧
      copied.sameStructure copy nestBetweenPragmas ⟨2⟩ = true ∧
      copied.size = nestBetweenPragmas.size + 6 ∧
      ∀ x ∈ nestBetweenPragmas.subtree ⟨2⟩,
        ([.setText ⟨10⟩ "k", .insertAfter ⟨2⟩ ⟨9⟩, .delete ⟨12⟩].foldl Edit.run copied).node? x =
          nestBetweenPragmas.node? x := by
  have forest : nestBetweenPragmas.Forest := forest_ofElement _
  have hlive : nestBetweenPragmas.contains ⟨2⟩ = true := by decide +kernel
  obtain ⟨hcopy, -, hedits, -⟩ := copies_independent forest
  obtain ⟨copied, copy, hcopied, duplicated⟩ := hcopy ⟨2⟩ hlive
  have hlength : (nestBetweenPragmas.subtree ⟨2⟩).length = 6 := by decide +kernel
  refine ⟨copied, copy, hcopied, duplicated.sameStructure, hlength ▸ duplicated.size_eq,
    hedits _ _ _ _ duplicated ⟨2⟩ _ hlive ?_⟩
  have hvar : nestBetweenPragmas.contains ⟨10⟩ = false := by decide +kernel
  have hinner : nestBetweenPragmas.contains ⟨12⟩ = false := by decide +kernel
  simp only [forall_mem_cons, not_mem_nil, false_imp_iff, implies_true, and_true]
  exact ⟨hvar, ⟨by decide +kernel, by decide +kernel⟩, hinner⟩

end Document

end LoopDirectives
