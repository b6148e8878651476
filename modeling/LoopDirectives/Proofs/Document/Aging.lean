import LoopDirectives.Proofs.Document.Scope

/-!
# Stale identities stay stale

An identity is handed out once. When its node has been deleted, no edit brings it back to life:
`Ages` says this of two documents, and it holds along every run of edits (`Scope.Steps.ages`).
-/

namespace LoopDirectives.Document

variable {scope : Scope} {before middle after : Document}

/-- No identity that was handed out before comes back to life. -/
structure Ages (before after : Document) : Prop where
  size_le : before.slots.size ≤ after.slots.size
  contains : ∀ x, x.index < before.slots.size → after.contains x = true → before.contains x = true

theorem not_contains_delete (doc : Document) (id : NodeId) :
    (doc.delete id).contains id = false := by
  refine eq_false_of_ne_true fun h ↦ ?_
  obtain ⟨bound, hsize⟩ := Nat.exists_eq_add_one_of_ne_zero
    (Nat.ne_zero_of_lt (index_lt_size (contains_of_delete h)))
  have hlive := (contains_detach doc id id).trans (contains_of_delete h)
  obtain ⟨node, hnode⟩ := contains_iff.mp hlive
  rw [delete, hsize, freeAll, hnode] at h
  have hfreed := contains_of_freeAll h
  rw [contains, node?_free, if_pos rfl] at hfreed
  cases hfreed

theorem Ages.refl (doc : Document) : Ages doc doc :=
  ⟨Nat.le_refl _, fun _ _ h ↦ h⟩

theorem Ages.trans (first : Ages before middle) (second : Ages middle after) :
    Ages before after :=
  ⟨Nat.le_trans first.size_le second.size_le, fun x hx h ↦
    first.contains x hx (second.contains x (Nat.lt_of_lt_of_le hx first.size_le) h)⟩

theorem Ages.not_contains (ages : Ages before after) {x : NodeId}
    (hindex : x.index < before.slots.size) (hgone : before.contains x = false) :
    after.contains x = false := by
  refine eq_false_of_ne_true fun hcontains ↦ ?_
  rw [ages.contains x hindex hcontains] at hgone
  cases hgone

/-- A move brings no stale identity to life. -/
theorem Moved.ages {id parent : NodeId} {position : Nat}
    (moved : Moved before after id parent position) : Ages before after :=
  ⟨Nat.le_of_eq moved.size_eq.symm, fun x _ h ↦ (moved.contains_eq x).symm.trans h⟩

def Scope.whole : Scope where
  inside _ := True
  holder _ := False
  ledger _ := False
  size := 0
  inside_of_new _ _ := trivial

theorem Forest.guards_whole {doc : Document} (forest : doc.Forest) :
    Scope.whole.Guards doc :=
  ⟨forest, Nat.zero_le _, fun _ _ ↦ trivial, fun _ _ ↦ Or.inl trivial⟩

/-- One step on a forest brings no stale identity to life. -/
theorem Scope.Step.ages (forest : before.Forest) (step : scope.Step before after) :
    Ages before after := by
  cases step with
  | plant element =>
    have planted := forest.planted_plant element
    exact ⟨planted.size_le, fun x hx h ↦ (planted.readings_old hx).1.symm.trans h⟩
  | relabel id change hid =>
    exact ⟨by rw [size_relabel], fun x _ h ↦ by rwa [contains_relabel] at h⟩
  | append parent id hid hparent =>
    rcases forest.append_cases parent id with heq | hmoved
    · rw [heq]
      exact .refl before
    · exact hmoved.ages
  | insertBeside anchor id offset hanchor hnew =>
    rcases forest.insertBeside_cases anchor id offset with heq | ⟨parent, position, -, -, -, hmoved⟩
    · rw [heq]
      exact .refl before
    · exact hmoved.ages
  | delete id hid =>
    exact ⟨by rw [size_delete], fun x _ h ↦ (forest.contains_delete_iff.mp h).1⟩

/-- Nor does a run of steps. -/
theorem Scope.Steps.ages (forest : before.Forest) (steps : scope.Steps before after) :
    Ages before after := by
  induction steps with
  | refl => exact .refl before
  | tail steps step ih =>
    exact ih.trans (step.ages (Scope.Steps.forest forest steps))

end LoopDirectives.Document
