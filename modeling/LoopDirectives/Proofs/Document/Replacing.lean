import LoopDirectives.Proofs.Document.Edits

/-!
# Replacing a node

A node is replaced by moving another one in front of it and then deleting it. Where the move is
possible the other node ends up in its place (`Forest.replaced_replace`). Whether the move was made
is not asked afterwards, only whether the other node hangs somewhere: a node that hangs elsewhere
and cannot be moved makes the first one go away without a successor (`replace_allOrNothing_iff`).
-/

namespace LoopDirectives.Document

variable {doc before after : Document} {old new id parent x upper : NodeId} {position : Nat}

/-! ### What is below a node after a move -/

namespace Moved

variable (moved : Moved before after id parent position) (forest : before.Forest)

include moved forest

theorem mem_subtree_iff_of_notMem (hx : x ∉ before.subtree id) :
    x ∈ after.subtree upper ↔ x ∈ before.subtree upper := by
  have hparent (y : NodeId) (hy : y ∉ before.subtree id) : after.parent? y = before.parent? y :=
    moved.parent?_of_ne fun heq ↦ hy (heq ▸ forest.self_mem_subtree y)
  rw [(moved.forest forest).mem_subtree_iff, forest.mem_subtree_iff,
    above_iff_of_parent?_eq hparent (fun y holder hy hholder hmem ↦
      hy ((forest.mem_subtree_of_parent? hholder).mpr (Or.inr hmem))) hx]

end Moved

/-- The node hangs somewhere, and the other one can be moved in front of it. -/
def HasRoom (doc : Document) (old new : NodeId) : Prop :=
  (∃ parent, doc.parent? old = some parent) ∧ doc.contains new = true ∧ old ≠ new ∧
    ¬ doc.Above new old

/-- What a document shows when `new` has taken the place of `old`, which is gone with all that is
left below it, and nothing else has changed. -/
structure Replaced (before after : Document) (old new : NodeId) : Prop where
  place : ∃ parent first rest, before.parent? old = some parent ∧
    (before.children parent).filter (· ≠ new) = first ++ old :: rest ∧
    after.parent? new = some parent ∧ after.children parent = first ++ new :: rest
  contains_iff : ∀ x, after.contains x = true ↔
    before.contains x = true ∧ (x ∈ before.subtree old → x ∈ before.subtree new)
  label_eq : ∀ x, after.contains x = true → after.label x = before.label x
  parent?_eq : ∀ x, after.contains x = true → x ≠ new → after.parent? x = before.parent? x

section

variable (forest : doc.Forest)

include forest

theorem hasRoom_iff_canAttach (h : doc.parent? old = some parent) :
    doc.HasRoom old new ↔ old ≠ new ∧ doc.canAttach new parent := by
  rw [canAttach_iff, ← Bool.not_eq_true, forest.isAncestor_iff, HasRoom, above_iff_of_parent? h]
  simp [h, forest.contains_parent h]
  tauto

/-- Assumes: the new node has room in the place of the old one. Then it gets the place. -/
theorem replaced_replace (hroom : doc.HasRoom old new) :
    Replaced doc (doc.replace old new) old new := by
  obtain ⟨parent, hold⟩ := hroom.1
  obtain ⟨hne, hattach⟩ := (hasRoom_iff_canAttach forest hold).mp hroom
  obtain ⟨position, hposition, moved⟩ : ∃ position, _ ∧
      Moved doc (doc.insertBefore old new) new parent (position + 0) :=
    forest.moved_insertBeside hold hne hattach
  have hmoved := moved.forest forest
  have hholder : (doc.insertBefore old new).parent? old = some parent :=
    (moved.parent?_of_ne hne).trans hold
  have hreplace : doc.replace old new = (doc.insertBefore old new).delete old := by
    simp [replace, moved.parent?_self]
  -- Of what was below the old node, the part that moves away is all that is left.
  have hgone (x : NodeId) : x ∈ (doc.insertBefore old new).subtree old ↔
      x ∈ doc.subtree old ∧ x ∉ doc.subtree new := by
    by_cases hx : x ∈ doc.subtree new
    · exact iff_of_false ((hmoved.apart_of_parent? moved.parent?_self hholder hne.symm).disjoint
        hmoved (moved.mem_subtree_self forest hx)) fun h ↦ h.2 hx
    · rw [moved.mem_subtree_iff_of_notMem forest hx, and_iff_left hx]
  have hkept {x : NodeId} (hx : (doc.replace old new).contains x) :
      x ∉ (doc.insertBefore old new).subtree old :=
    (hmoved.contains_delete_iff.mp (hreplace ▸ hx)).2
  obtain ⟨first, rest, hsplit, hlength⟩ := exists_split_of_getElem? hposition
  refine ⟨⟨parent, first, rest, hold, hsplit, ?_, ?_⟩, fun x ↦ ?_, fun x hx ↦ ?_,
    fun x hx hxne ↦ ?_⟩
  · rw [hreplace, hmoved.parent?_delete, moved.parent?_self]
    exact fun h ↦ ((hgone new).mp h).2 (forest.self_mem_subtree new)
  · have hchildren : (doc.insertBefore old new).children parent =
        (first ++ [new]) ++ old :: rest := by
      rw [moved.children_parent, hsplit, ← hlength]
      simp
    rw [hreplace, hmoved.children_delete (hmoved.not_mem_subtree_of_parent? hholder), hchildren,
      filter_ne_of_nodup (hchildren ▸ hmoved.nodup_children parent), List.append_assoc]
    rfl
  · rw [hreplace, hmoved.contains_delete_iff, moved.contains_eq, hgone, not_and_not_right]
  · rw [hreplace, hmoved.label_delete (hkept hx), moved.label_eq]
  · rw [hreplace, hmoved.parent?_delete (hkept hx), moved.parent?_of_ne hxne]

theorem replace_of_not_hasRoom (h : ¬ doc.HasRoom old new) :
    doc.replace old new =
      if (doc.parent? new).isSome then doc.delete old else doc := by
  have hstays : doc.insertBefore old new = doc := by
    cases hold : doc.parent? old with
    | none => exact insertBeside_of_parent?_eq_none hold
    | some parent =>
      rw [hasRoom_iff_canAttach forest hold] at h
      simp [insertBefore, insertBeside, hold]
      tauto
  rw [replace, hstays]

/-- Replacing a node is all or nothing but where the other node hangs somewhere and there is no room
for it: then the node is deleted and nothing takes its place. -/
theorem replace_allOrNothing_iff (old new : NodeId) :
    (doc.HasRoom old new → Replaced doc (doc.replace old new) old new) ∧
    (¬ doc.HasRoom old new → doc.replace old new =
      if (doc.parent? new).isSome then doc.delete old else doc) ∧
    (Replaced doc (doc.replace old new) old new ∨ doc.replace old new = doc ↔
      doc.HasRoom old new ∨ doc.parent? new = none ∨ doc.contains old = false) := by
  refine ⟨replaced_replace forest, replace_of_not_hasRoom forest, ?_⟩
  by_cases hroom : doc.HasRoom old new
  · exact iff_of_true (Or.inl (replaced_replace forest hroom)) (Or.inl hroom)
  have hreplace := replace_of_not_hasRoom forest hroom
  cases hnew : doc.parent? new with
  | none => exact iff_of_true (Or.inr (by rw [hreplace, hnew]; rfl)) (Or.inr (Or.inl rfl))
  | some holder =>
    rw [hnew, Option.isSome_some, if_pos rfl] at hreplace
    rw [or_iff_right hroom, or_iff_right (Option.some_ne_none holder)]
    constructor
    · rintro (replaced | hsame)
      · exfalso
        obtain ⟨parent, first, rest, hold, hsplit, hparent, -⟩ := replaced.place
        have hne : old ≠ new := by
          have hmem : old ∈ (doc.children parent).filter (· ≠ new) := hsplit ▸ by simp
          simpa using (List.mem_filter.mp hmem).2
        have habove : doc.Above new old := by
          by_contra habove
          exact hroom ⟨⟨parent, hold⟩, contains_of_parent? hnew, hne, habove⟩
        rw [hreplace] at hparent
        have hsibling := (forest.parent?_delete_eq_some_iff.mp hparent).1
        exact forest.not_above_sibling hsibling hold habove
      · rw [hreplace] at hsame
        rw [← Bool.not_eq_true]
        intro hlive
        rw [← hsame] at hlive
        exact (forest.contains_delete_iff.mp hlive).2 (forest.self_mem_subtree old)
    · intro hstale
      exact Or.inr (hreplace.trans (delete_of_stale hstale))

end

def loopWithBody : Document :=
  (ofElement (.node { tag := "body" } [.node { tag := "FdoStatement" }
    [.node { tag := "body" } [.node { tag := "exitStatement" } []]]])).1

/-- The body of a loop that is to be replaced by the loop is deleted. -/
theorem replace_allOrNothing_iff_loopWithBody :
    loopWithBody.replace ⟨2⟩ ⟨1⟩ = loopWithBody.delete ⟨2⟩ ∧
      ¬ (Replaced loopWithBody (loopWithBody.replace ⟨2⟩ ⟨1⟩) ⟨2⟩ ⟨1⟩ ∨
        loopWithBody.replace ⟨2⟩ ⟨1⟩ = loopWithBody) := by
  have hroom : ¬ loopWithBody.HasRoom ⟨2⟩ ⟨1⟩ := fun h ↦
    h.2.2.2 (above_of_parent? (by decide +kernel))
  obtain ⟨-, hdelete, hiff⟩ :=
    replace_allOrNothing_iff (forest_ofElement _ : loopWithBody.Forest) ⟨2⟩ ⟨1⟩
  refine ⟨(hdelete hroom).trans (if_pos (by decide +kernel)), fun h ↦ ?_⟩
  rcases hiff.mp h with h | h | h
  · exact hroom h
  · exact absurd h (by decide +kernel)
  · exact absurd h (by decide +kernel)

end LoopDirectives.Document
