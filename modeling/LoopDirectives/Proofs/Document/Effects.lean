import LoopDirectives.Proofs.Document.Axes
import LoopDirectives.Proofs.Document.Replacing

/-!
# The effect of moves and deletions

A move puts a node among the children of another one and changes nothing else (`PutBelow`); where
it is put beside an anchor, its old place does not count, even when it already hung below the same
parent. A deletion empties a subtree and changes nothing else (`Deleted`). `edits_exact` says when
each of them takes place.
-/

namespace LoopDirectives.Document

open List

variable {doc before after : Document} {id parent anchor x : NodeId} {position offset : Nat}
  {children first rest ids : List NodeId}

theorem Forest.filter_ne_eq_self (forest : doc.Forest) (h : doc.parent? id ≠ some x) :
    (doc.children x).filter (· ≠ id) = doc.children x := by
  refine filter_eq_self.mpr fun child hchild ↦ decide_eq_true ?_
  rintro rfl
  exact h (forest.parent?_of_mem hchild)

/-! ### Moves -/

/-- Both nodes are alive, and the first is neither the second nor above it. -/
def CanHang (doc : Document) (id parent : NodeId) : Prop :=
  doc.contains id = true ∧ doc.contains parent = true ∧ id ≠ parent ∧
    ¬ doc.Above id parent

/-- What a document shows when the node has come to hang below `parent`, whose children are now the
given ones: its former parent has lost it, and the rest is as before. -/
structure PutBelow (before after : Document) (id parent : NodeId) (children : List NodeId) :
    Prop where
  parent?_self : after.parent? id = some parent
  children_parent : after.children parent = children
  children_former : ∀ x, before.parent? id = some x → x ≠ parent →
    after.children x = (before.children x).filter (· ≠ id)
  children_other : ∀ x, before.parent? id ≠ some x → x ≠ parent →
    after.children x = before.children x
  parent?_other : ∀ x, x ≠ id → after.parent? x = before.parent? x
  label_eq : ∀ x, after.label x = before.label x
  contains_eq : ∀ x, after.contains x = before.contains x

theorem Moved.putBelow (moved : Moved before after id parent position) (forest : before.Forest)
    (hchildren : after.children parent = children) :
    PutBelow before after id parent children where
  parent?_self := moved.parent?_self
  children_parent := hchildren
  children_former x _ hx := moved.children_of_ne x hx
  children_other x hformer hx := by
    rw [moved.children_of_ne x hx, forest.filter_ne_eq_self hformer]
  parent?_other x hx := moved.parent?_of_ne hx
  label_eq := moved.label_eq
  contains_eq := moved.contains_eq

namespace Forest

variable (forest : doc.Forest)

include forest

theorem canAttach_iff_canHang : doc.canAttach id parent ↔ doc.CanHang id parent := by
  rw [canAttach_iff, ← Bool.not_eq_true, forest.isAncestor_iff, CanHang]

theorem putBelow_append (h : doc.CanHang id parent) :
    PutBelow doc (doc.append parent id) id parent
      ((doc.children parent).filter (· ≠ id) ++ [id]) := by
  have moved := forest.moved_append (forest.canAttach_iff_canHang.mpr h)
  refine moved.putBelow forest ?_
  rw [moved.children_parent, take_length, drop_length]

theorem putBelow_prepend (h : doc.CanHang id parent) :
    PutBelow doc (doc.prepend parent id) id parent
      (id :: (doc.children parent).filter (· ≠ id)) :=
  have moved := forest.moved_prepend (forest.canAttach_iff_canHang.mpr h)
  moved.putBelow forest moved.children_parent

/-- The anchor is looked for once the node is out of the way, so that the others around it are the
same on whichever side of it the node stood. -/
theorem putBelow_insertBeside (hroom : doc.HasRoom anchor id)
    (hanchor : doc.parent? anchor = some parent)
    (hsplit : (doc.children parent).filter (· ≠ id) = first ++ anchor :: rest) :
    PutBelow doc (doc.insertBeside anchor id offset) id parent
      (first ++ ((anchor :: rest).take offset ++ id :: (anchor :: rest).drop offset)) := by
  obtain ⟨hne, hattach⟩ := (hasRoom_iff_canAttach forest hanchor).mp hroom
  obtain ⟨position, hposition, moved⟩ := forest.moved_insertBeside hanchor hne hattach
  have hnodup : (first ++ anchor :: rest).Nodup :=
    hsplit ▸ (forest.nodup_children parent).filter _
  have hlength : first.length = position := by
    refine (getElem?_inj (by simp) hnodup).mp ?_
    rw [← hsplit, hposition, hsplit]
    simp
  refine moved.putBelow forest ?_
  rw [moved.children_parent, hsplit, ← hlength, take_length_add_append,
    drop_length_add_append, append_assoc]

theorem insertBeside_of_not_hasRoom (h : ¬ doc.HasRoom anchor id) :
    doc.insertBeside anchor id offset = doc := by
  rcases forest.insertBeside_cases anchor id offset with heq | ⟨_, _, hanchor, hne, -, moved⟩
  · exact heq
  · exact absurd ((hasRoom_iff_canAttach forest hanchor).mpr ⟨hne, moved.canAttach⟩) h

end Forest

/-! ### Deletions -/

theorem size_congr (hsize : before.slots.size = after.slots.size)
    (h : ∀ x, before.contains x = after.contains x) : before.size = after.size := by
  have hmap : before.slots.map Option.isSome = after.slots.map Option.isSome := by
    refine Array.ext (by simpa using hsize) fun index hleft hright ↦ ?_
    rw [Array.size_map] at hleft hright
    simpa [contains, node?, hleft, hright] using h ⟨index⟩
  simpa [size, Array.countP_map] using congrArg (Array.countP id) hmap

theorem size_free_add_one (h : doc.contains id) :
    (doc.free id).size + 1 = doc.size := by
  have hlt := index_lt_size h
  have hslot : doc.slots[id.index].isSome := by simpa [contains, node?, hlt] using h
  have hpos : 0 < doc.slots.countP Option.isSome :=
    Array.countP_pos_iff.mpr ⟨_, Array.getElem_mem hlt, hslot⟩
  have hset : (doc.free id).slots = doc.slots.set id.index none hlt := by
    refine Array.ext (by simp [free]) fun index hleft hright ↦ ?_
    simp [free, Array.getElem_modify, Array.getElem_set]
  rw [size, size, hset, Array.countP_set, if_pos hslot]
  simp
  omega

theorem size_foldl_free_add_length (hnodup : ids.Nodup) (hlive : ∀ x ∈ ids, doc.contains x) :
    (ids.foldl free doc).size + ids.length = doc.size := by
  induction ids generalizing doc with
  | nil => rfl
  | cons first rest ih =>
    obtain ⟨hfirst, hrest⟩ := nodup_cons.mp hnodup
    have hstep := size_free_add_one (hlive first mem_cons_self)
    have hafter := @ih (doc.free first) hrest fun x hx ↦ by
      have hne : x ≠ first := fun heq ↦ hfirst (heq ▸ hx)
      rw [contains, node?_free, if_neg hne, ← contains]
      exact hlive x (mem_cons_of_mem _ hx)
    rw [foldl_cons, length_cons]
    omega

/-- What a document shows when the node and its descendants are gone, and nothing else has
changed. -/
structure Deleted (before after : Document) (id : NodeId) : Prop where
  contains_iff : ∀ x, after.contains x = true ↔
    before.contains x = true ∧ x ≠ id ∧ x ∉ before.descendants id
  size_add : after.size + (1 + (before.descendants id).length) = before.size
  children_former : ∀ x, before.parent? id = some x →
    after.children x = (before.children x).filter (· ≠ id)
  children_other : ∀ x, after.contains x = true → before.parent? id ≠ some x →
    after.children x = before.children x
  parent?_eq : ∀ x, after.contains x = true → after.parent? x = before.parent? x
  label_eq : ∀ x, after.contains x = true → after.label x = before.label x

theorem Forest.deleted_delete (forest : doc.Forest) (h : doc.contains id) :
    Deleted doc (doc.delete id) id where
  contains_iff x := by
    rw [forest.contains_delete_iff, ← forest.cons_descendants, mem_cons, not_or]
  size_add := by
    have hlive : ∀ x ∈ doc.subtree id, (doc.detach id).contains x := fun x hx ↦
      (contains_detach doc id x).trans (forest.contains_of_mem_subtree h hx)
    have hfreed := size_foldl_free_add_length (forest.nodup_subtree id) hlive
    rw [size_congr (size_detach doc id) (contains_detach doc id)] at hfreed
    rw [← hfreed, forest.delete_eq_foldl_free, ← forest.cons_descendants, length_cons,
      Nat.add_comm 1]
  children_former x hx := forest.children_delete (forest.not_mem_subtree_of_parent? hx)
  children_other x hx hformer := by
    rw [forest.children_delete (forest.contains_delete_iff.mp hx).2,
      forest.filter_ne_eq_self hformer]
  parent?_eq x hx := forest.parent?_delete (forest.contains_delete_iff.mp hx).2
  label_eq x hx := forest.label_delete (forest.contains_delete_iff.mp hx).2

/-- A node that can hang below a parent is put last or first, or directly before or after an anchor,
among the other children, and a live node is deleted with its descendants. Where this cannot be done
nothing changes. -/
theorem edits_exact (forest : doc.Forest) :
    (∀ parent id, doc.CanHang id parent →
      PutBelow doc (doc.append parent id) id parent
        ((doc.children parent).filter (· ≠ id) ++ [id]) ∧
      PutBelow doc (doc.prepend parent id) id parent
        (id :: (doc.children parent).filter (· ≠ id))) ∧
    (∀ parent id, ¬ doc.CanHang id parent →
      doc.append parent id = doc ∧ doc.prepend parent id = doc) ∧
    (∀ anchor id parent, doc.HasRoom anchor id → doc.parent? anchor = some parent →
      ∃ first rest, (doc.children parent).filter (· ≠ id) = first ++ anchor :: rest ∧
        PutBelow doc (doc.insertBefore anchor id) id parent
          (first ++ id :: anchor :: rest) ∧
        PutBelow doc (doc.insertAfter anchor id) id parent
          (first ++ anchor :: id :: rest)) ∧
    (∀ anchor id, ¬ doc.HasRoom anchor id →
      doc.insertBefore anchor id = doc ∧ doc.insertAfter anchor id = doc) ∧
    (∀ id, doc.contains id = true → Deleted doc (doc.delete id) id) ∧
    ∀ id, doc.contains id = false → doc.delete id = doc := by
  refine ⟨fun parent id h ↦ ⟨forest.putBelow_append h, forest.putBelow_prepend h⟩,
    fun parent id h ↦ ?_, fun anchor id parent hroom hanchor ↦ ?_,
    fun anchor id h ↦ ⟨forest.insertBeside_of_not_hasRoom h, forest.insertBeside_of_not_hasRoom h⟩,
    fun id h ↦ forest.deleted_delete h, fun id h ↦ delete_of_stale h⟩
  · rw [← forest.canAttach_iff_canHang, Bool.not_eq_true] at h
    exact ⟨append_of_not_canAttach h, prepend_of_not_canAttach h⟩
  · have hmem : anchor ∈ (doc.children parent).filter (· ≠ id) :=
      List.mem_filter.mpr ⟨forest.mem_children hanchor, decide_eq_true hroom.2.2.1⟩
    obtain ⟨first, rest, hsplit⟩ := List.append_of_mem hmem
    exact ⟨first, rest, hsplit, forest.putBelow_insertBeside hroom hanchor hsplit,
      forest.putBelow_insertBeside hroom hanchor hsplit⟩

/-- The first pragma goes from before the outer loop to after it, the last one below the loops, the
outer loop does not go below the inner one, and the inner one is deleted with its variable and
body. -/
theorem edits_exact_nestBetweenPragmas :
    (nestBetweenPragmas.insertAfter ⟨2⟩ ⟨1⟩).children ⟨0⟩ = [⟨2⟩, ⟨1⟩, ⟨8⟩] ∧
      (nestBetweenPragmas.append ⟨4⟩ ⟨8⟩).children ⟨0⟩ = [⟨1⟩, ⟨2⟩] ∧
      nestBetweenPragmas.prepend ⟨5⟩ ⟨2⟩ = nestBetweenPragmas ∧
      (nestBetweenPragmas.delete ⟨5⟩).size + 3 = nestBetweenPragmas.size := by
  have forest : nestBetweenPragmas.Forest := forest_ofElement _
  obtain ⟨hends, hendless, hbeside, -, hdelete, -⟩ := edits_exact forest
  have hroom : nestBetweenPragmas.HasRoom ⟨2⟩ ⟨1⟩ :=
    ⟨⟨⟨0⟩, by decide +kernel⟩, by decide +kernel, by decide, by
      rw [← forest.isAncestor_iff]
      decide +kernel⟩
  obtain ⟨first, rest, hsplit, -, hafter⟩ := hbeside ⟨2⟩ ⟨1⟩ ⟨0⟩ hroom (by decide +kernel)
  have hothers : (nestBetweenPragmas.children ⟨0⟩).filter (· ≠ ⟨1⟩) = [⟨2⟩, ⟨8⟩] := by
    decide +kernel
  have hlast : nestBetweenPragmas.CanHang ⟨8⟩ ⟨4⟩ :=
    forest.canAttach_iff_canHang.mp (by decide +kernel)
  have hstuck : ¬ nestBetweenPragmas.CanHang ⟨2⟩ ⟨5⟩ := by
    rw [← forest.canAttach_iff_canHang]
    decide +kernel
  refine ⟨?_, ?_, (hendless ⟨5⟩ ⟨2⟩ hstuck).2, ?_⟩
  · rw [hothers] at hsplit
    obtain ⟨rfl, rfl⟩ : first = [] ∧ rest = [⟨8⟩] := by
      simpa [List.cons_eq_append_iff] using hsplit
    exact hafter.children_parent
  · rw [(hends ⟨4⟩ ⟨8⟩ hlast).1.children_former ⟨0⟩ (by decide +kernel) (by decide)]
    decide +kernel
  · have hlength : (nestBetweenPragmas.descendants ⟨5⟩).length = 2 := by decide +kernel
    simpa only [hlength] using (hdelete ⟨5⟩ (by decide +kernel)).size_add

end LoopDirectives.Document
