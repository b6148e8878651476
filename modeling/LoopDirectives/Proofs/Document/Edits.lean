import LoopDirectives.Proofs.Document.Deleting
import LoopDirectives.Proofs.Document.Planting

/-!
# Runs of edits

A document comes from the empty one by edits, each asked for with live or stale identities. Every
document that arises so is a forest, and an edit asked for with a stale identity does not change it
(`forest_of_edits`).
-/

namespace LoopDirectives

/-- One edit of a document, with the identities that it is asked for. -/
inductive Edit where
  | create (tag : String)
  | createOf (kind : Kind)
  | createLeaf (kind : Kind) (text : String)
  | setText (id : NodeId) (text : String)
  | setAttribute (id : NodeId) (name value : String)
  | removeAttribute (id : NodeId) (name : String)
  | detach (id : NodeId)
  | delete (id : NodeId)
  | append (parent id : NodeId)
  | prepend (parent id : NodeId)
  | insertBefore (anchor id : NodeId)
  | insertAfter (anchor id : NodeId)
  | replace (old new : NodeId)
  | copy (id : NodeId)
  | copyFrom (source : Document) (id : NodeId)

namespace Edit

/-- The document after the edit. The identity that some edits return is left out. -/
def run (doc : Document) : Edit → Document
  | create tag => (doc.create { tag }).1
  | createOf kind => (doc.createOf kind).1
  | createLeaf kind text => (doc.createLeaf kind text).1
  | setText id text => doc.setText id text
  | setAttribute id name value => doc.setAttribute id name value
  | removeAttribute id name => doc.removeAttribute id name
  | detach id => doc.detach id
  | delete id => doc.delete id
  | append parent id => doc.append parent id
  | prepend parent id => doc.prepend parent id
  | insertBefore anchor id => doc.insertBefore anchor id
  | insertAfter anchor id => doc.insertAfter anchor id
  | replace old new => doc.replace old new
  | copy id => ((doc.copy? id).map Prod.fst).getD doc
  | copyFrom source id => ((doc.copyFrom? source id).map Prod.fst).getD doc

def isStale (doc : Document) : Edit → Bool
  | create _ | createOf _ | createLeaf _ _ => false
  | setText id _ | setAttribute id _ _ | removeAttribute id _ | detach id | delete id | copy id =>
    !doc.contains id
  | append first second | prepend first second | insertBefore first second
  | insertAfter first second | replace first second =>
    !doc.contains first || !doc.contains second
  | copyFrom source id => !source.contains id

end Edit

namespace Document

variable {doc : Document} {id anchor : NodeId}

/-! ### One edit -/

theorem Forest.replace (forest : doc.Forest) (old new : NodeId) :
    (doc.replace old new).Forest := by
  have hmoved : (doc.insertBefore old new).Forest := forest.insertBeside old new 0
  simp only [Document.replace]
  split
  · exact hmoved.delete old
  · exact hmoved

theorem Forest.getD_copyFrom? (forest : doc.Forest) (source : Document) (id : NodeId) :
    (((doc.copyFrom? source id).map Prod.fst).getD doc).Forest := by
  cases h : doc.copyFrom? source id with
  | none => exact forest
  | some result => exact forest.copyFrom? h

theorem Forest.run (forest : doc.Forest) (edit : Edit) : (edit.run doc).Forest := by
  cases edit with
  | create tag => exact forest.create _
  | createOf kind => exact forest.create _
  | createLeaf kind text => exact forest.create _
  | setText id text => exact forest.relabel id (·.setText text)
  | setAttribute id name value => exact forest.relabel id (·.setAttribute name value)
  | removeAttribute id name => exact forest.relabel id (·.removeAttribute name)
  | detach id => exact forest.detach id
  | delete id => exact forest.delete id
  | append parent id => exact forest.append parent id
  | prepend parent id => exact forest.prepend parent id
  | insertBefore anchor id => exact forest.insertBeside anchor id 0
  | insertAfter anchor id => exact forest.insertBeside anchor id 1
  | replace old new => exact forest.replace old new
  | copy id =>
    rw [Edit.run, forest.copy?_eq]
    exact forest.getD_copyFrom? doc id
  | copyFrom source id => exact forest.getD_copyFrom? source id

theorem canAttach_of_stale {parent : NodeId}
    (h : doc.contains parent = false ∨ doc.contains id = false) :
    doc.canAttach id parent = false := by
  rcases h with h | h <;> simp [canAttach, h]

theorem insertBeside_of_stale {offset : Nat}
    (h : doc.contains anchor = false ∨ doc.contains id = false) :
    doc.insertBeside anchor id offset = doc := by
  cases hanchor : doc.parent? anchor with
  | none => exact insertBeside_of_parent?_eq_none hanchor
  | some parent =>
    have hid : doc.contains id = false := by
      rcases h with hstale | hstale
      · rw [parent?_of_stale hstale] at hanchor
        cases hanchor
      · exact hstale
    exact insertBeside_of_not_canAttach hanchor (canAttach_of_stale (Or.inr hid))

theorem replace_of_stale {old new : NodeId}
    (h : doc.contains old = false ∨ doc.contains new = false) :
    doc.replace old new = doc := by
  have hmoved : doc.insertBefore old new = doc := insertBeside_of_stale h
  rw [replace, hmoved]
  rcases h with hold | hnew
  · simp only [delete_of_stale hold, ite_self]
  · simp [parent?_of_stale hnew]

theorem run_of_isStale {edit : Edit} (h : edit.isStale doc) :
    edit.run doc = doc := by
  cases edit with
  | create tag => cases h
  | createOf kind => cases h
  | createLeaf kind text => cases h
  | setText id text =>
    exact relabel_of_stale _ _ (·.setText text) (by simpa [Edit.isStale] using h)
  | setAttribute id name value =>
    exact relabel_of_stale _ _ (·.setAttribute name value) (by simpa [Edit.isStale] using h)
  | removeAttribute id name =>
    exact relabel_of_stale _ _ (·.removeAttribute name) (by simpa [Edit.isStale] using h)
  | detach id => exact detach_of_stale _ _ (by simpa [Edit.isStale] using h)
  | delete id => exact delete_of_stale (by simpa [Edit.isStale] using h)
  | append parent id =>
    exact append_of_not_canAttach (canAttach_of_stale (by simpa [Edit.isStale] using h))
  | prepend parent id =>
    exact prepend_of_not_canAttach (canAttach_of_stale (by simpa [Edit.isStale] using h))
  | insertBefore anchor id => exact insertBeside_of_stale (by simpa [Edit.isStale] using h)
  | insertAfter anchor id => exact insertBeside_of_stale (by simpa [Edit.isStale] using h)
  | replace old new => exact replace_of_stale (by simpa [Edit.isStale] using h)
  | copy id =>
    have hid : doc.contains id = false := by simpa [Edit.isStale] using h
    simp [Edit.run, copy?, hid]
  | copyFrom source id =>
    have hid : source.contains id = false := by simpa [Edit.isStale] using h
    simp [Edit.run, copyFrom?, hid]

/-! ### Whole runs -/

theorem Forest.foldl_run (forest : doc.Forest) (edits : List Edit) :
    (edits.foldl Edit.run doc).Forest := by
  induction edits generalizing doc with
  | nil => exact forest
  | cons edit rest ih => exact ih (forest.run edit)

theorem Forest.count_children (forest : doc.Forest) (parent child : NodeId) :
    (doc.children parent).count child =
      if doc.parent? child = some parent then 1 else 0 := by
  split
  · next h =>
    exact List.count_eq_one_of_mem (forest.nodup_children parent) (forest.mem_children h)
  · next h =>
    exact List.count_eq_zero.mpr fun hmem ↦ h (forest.parent?_of_mem hmem)

/-- Whatever edits have led to a document, with live or stale identities: a node occurs exactly once
among the children of its parent and among no others; parents and children are alive; no node is
above itself; and an edit asked for with a stale identity changes nothing. -/
theorem forest_of_edits (edits : List Edit) :
    (∀ parent child : NodeId,
      ((edits.foldl Edit.run empty).children parent).count child =
        if (edits.foldl Edit.run empty).parent? child = some parent then 1 else 0) ∧
    (∀ parent child : NodeId,
      ((edits.foldl Edit.run empty).parent? child = some parent ∨
          child ∈ (edits.foldl Edit.run empty).children parent) →
        (edits.foldl Edit.run empty).contains parent = true ∧
          (edits.foldl Edit.run empty).contains child = true) ∧
    (∀ id : NodeId, ¬ (edits.foldl Edit.run empty).Above id id) ∧
    (∀ edit : Edit, edit.isStale (edits.foldl Edit.run empty) = true →
      edit.run (edits.foldl Edit.run empty) = edits.foldl Edit.run empty) := by
  have forest := forest_empty.foldl_run edits
  refine ⟨forest.count_children, fun parent child h ↦ ?_, forest.acyclic, fun edit ↦ run_of_isStale⟩
  rw [forest.mem_children_iff, or_self] at h
  exact ⟨forest.contains_parent h, contains_of_parent? h⟩

/-- Two nodes, one below the other; hanging the upper one below the lower one is refused; after a
copy the lower one is deleted, and replacing a copied node by it changes nothing. -/
theorem forest_of_edits_replace_by_deleted :
    (Edit.replace ⟨3⟩ ⟨1⟩).isStale ([.create "a", .create "b", .append ⟨0⟩ ⟨1⟩, .append ⟨1⟩ ⟨0⟩,
        .copy ⟨0⟩, .delete ⟨1⟩].foldl Edit.run empty) = true ∧
      (Edit.replace ⟨3⟩ ⟨1⟩).run ([.create "a", .create "b", .append ⟨0⟩ ⟨1⟩, .append ⟨1⟩ ⟨0⟩,
          .copy ⟨0⟩, .delete ⟨1⟩].foldl Edit.run empty) =
        [.create "a", .create "b", .append ⟨0⟩ ⟨1⟩, .append ⟨1⟩ ⟨0⟩, .copy ⟨0⟩,
          .delete ⟨1⟩].foldl Edit.run empty :=
  ⟨by decide, (forest_of_edits _).2.2.2 _ (by decide)⟩

end Document

end LoopDirectives
