import LoopDirectives.Proofs.Transformation.Demotion

/-!
# Keeping some dimensions of a reference

The positions of the dimensions to be kept are counted from `1` among the indices and ranges of a
reference, whatever other children stand between them. They are checked before anything is deleted,
so a reference is narrowed to the dimensions asked for (`Narrowed`) or left as it is.
-/

namespace LoopDirectives.Reference

open Document List

variable {doc after : Document} {kept : List Nat} {reference index : NodeId}

/-- What a document shows when a reference has been narrowed to the dimensions at the positions to
be kept, in their order, and nothing else has changed. -/
structure Narrowed (before after : Document) (kept : List Nat) (reference : NodeId) : Prop where
  indices_eq : indices after reference = retained before kept reference
  children_eq : after.children reference = (before.children reference).filter fun child ↦
    child ∉ indices before reference ∨ child ∈ retained before kept reference
  label_eq : after.label reference = before.label reference
  parent?_eq : after.parent? reference = before.parent? reference
  position?_eq : after.position? reference = before.position? reference
  subtree_eq : ∀ child ∈ after.children reference, ∀ x ∈ before.subtree child,
    after.node? x = before.node? x
  node?_eq : ∀ x, after.contains x = true → x ≠ reference → after.node? x = before.node? x
  contains_iff : ∀ x, after.contains x = true ↔ before.contains x = true ∧
    ∀ index ∈ indices before reference, index ∉ retained before kept reference →
      x ∉ before.subtree index

theorem InRank.contains (h : InRank doc kept reference) : doc.contains reference := by
  by_contra hstale
  have hok := keep_of_inRank h
  rw [keep_of_stale (Bool.eq_false_iff.mpr hstale)] at hok
  cases hok

section

variable (forest : doc.Forest)

include forest

theorem mem_dropped_iff : index ∈ dropped doc kept reference ↔
    index ∈ indices doc reference ∧ index ∉ retained doc kept reference := by
  rw [← filter_notMem_dropped forest, mem_filter, decide_eq_true_eq, not_and, not_not]
  refine ⟨fun h ↦ ⟨?_, fun _ ↦ h⟩, fun h ↦ h.2 h.1⟩
  obtain ⟨entry, hentry, rfl⟩ := mem_map.mp h
  exact fst_mem_of_mem_zipIdx (mem_of_mem_filter hentry)

theorem narrowed_deleteAll_dropped (hlive : doc.contains reference) :
    Narrowed doc (doc.deleteAll (dropped doc kept reference)) kept reference := by
  have pruned := forest.pruned_deleteAll (dropped doc kept reference)
  have hparent {index : NodeId} (h : index ∈ dropped doc kept reference) :
      doc.parent? index = some reference :=
    forest.parent?_of_mem (mem_children_of_mem_dropped h)
  have hkept : (doc.deleteAll (dropped doc kept reference)).contains reference :=
    (pruned.contains_iff reference).mpr ⟨hlive, fun index hindex ↦
      forest.not_mem_subtree_of_parent? (hparent hindex)⟩
  have hsame (x : NodeId)
      (hx : (doc.deleteAll (dropped doc kept reference)).contains x)
      (hne : x ≠ reference) :=
    pruned.node?_eq forest hx fun index hindex heq ↦ hne
      (Option.some.inj (heq.symm.trans (hparent hindex)))
  refine ⟨?_, ?_, pruned.label_eq reference hkept, pruned.parent?_eq reference hkept, ?_,
    fun child hchild x hx ↦ ?_, hsame, fun x ↦ ?_⟩
  · rw [indices_of_pruned pruned hkept, filter_notMem_dropped forest]
  · rw [pruned.children_eq reference hkept]
    refine filter_congr fun child _ ↦ ?_
    rw [decide_eq_decide, mem_dropped_iff forest]
    tauto
  · rw [position?, position?, pruned.parent?_eq reference hkept]
    cases hholder : doc.parent? reference with
    | none => rfl
    | some holder =>
      have hholderKept := pruned.forest.contains_parent
        ((pruned.parent?_eq reference hkept).trans hholder)
      have hchildren := (readings_eq (hsame holder hholderKept (forest.parent_ne hholder))).2.2.2
      simp only [Option.bind_eq_bind, Option.bind_some, hchildren]
  · rw [pruned.children_eq reference hkept, mem_filter, decide_eq_true_eq] at hchild
    have hholder := forest.parent?_of_mem hchild.1
    refine hsame x ((pruned.contains_iff x).mpr
      ⟨forest.contains_of_mem_subtree (contains_of_parent? hholder) hx, fun index hindex ↦ ?_⟩) ?_
    · exact (forest.apart_of_parent? hholder (hparent hindex)
        fun heq ↦ hchild.2 (heq ▸ hindex)).disjoint forest hx
    · exact fun heq ↦ forest.not_mem_subtree_of_parent? hholder (heq ▸ hx)
  · rw [pruned.contains_iff]
    simp only [mem_dropped_iff forest, and_imp]

end

/-- A reference whose rank the positions to be kept are within is narrowed to them, in whatever
order and how often they are given. Otherwise there is an error, and the document stays. -/
theorem keep_exact (forest : doc.Forest) (kept : List Nat) (reference : NodeId) :
    (InRank doc kept reference → ∃ after, keep doc kept reference = .ok after ∧
      Narrowed doc after kept reference) ∧
    (¬ InRank doc kept reference → ∃ cause, keep doc kept reference = .error cause ∧
      (Outcome.ofExcept doc (keep doc kept reference)).state = doc) := by
  refine ⟨fun hrank ↦ ⟨_, keep_of_inRank hrank, narrowed_deleteAll_dropped forest hrank.contains⟩,
    fun hrank ↦ ?_⟩
  cases hcheck : checkKept doc kept reference with
  | ok => exact absurd (checkKept_eq_ok_iff.mp hcheck) hrank
  | error cause =>
    have hkeep : keep doc kept reference = .error cause := by
      rw [keep, hcheck]
      rfl
    exact ⟨cause, hkeep, by rw [hkeep]; rfl⟩

/-- A reference of three dimensions, with a comment between the second and the third. -/
def mixedReference : Document :=
  let index (name : String) : Element := .branch "arrayIndex" [.var name]
  (ofElement (.branch "FassignStatement" [.arrayRef "a"
    [index "i", .branch "indexRange" [], .branch "comment" [], index "k"]])).1

/-- Asked for the third dimension, the first and again the third, the reference loses the range; it
has no fourth dimension. -/
theorem keep_exact_mixedReference :
    (∃ after, keep mixedReference [3, 1, 3] ⟨1⟩ = .ok after ∧
      after.children ⟨1⟩ = [⟨2⟩, ⟨4⟩, ⟨7⟩, ⟨8⟩] ∧ after.contains ⟨6⟩ = false) ∧
      ∃ cause, keep mixedReference [1, 4] ⟨1⟩ = .error cause := by
  have forest : mixedReference.Forest := forest_ofElement _
  have hrank : InRank mixedReference [3, 1, 3] ⟨1⟩ := ⟨by decide +kernel, by decide +kernel⟩
  have hout : ¬ InRank mixedReference [1, 4] ⟨1⟩ := fun h ↦
    absurd (h.2 4 (by simp)).2 (by decide +kernel)
  obtain ⟨after, hkeep, narrowed⟩ := (keep_exact forest [3, 1, 3] ⟨1⟩).1 hrank
  obtain ⟨cause, herror, -⟩ := (keep_exact forest [1, 4] ⟨1⟩).2 hout
  refine ⟨⟨after, hkeep, narrowed.children_eq.trans (by decide +kernel), ?_⟩, cause, herror⟩
  refine eq_false_of_ne_true fun hlive ↦ ?_
  exact ((narrowed.contains_iff ⟨6⟩).mp hlive).2 ⟨6⟩ (by decide +kernel) (by decide +kernel)
    (forest.self_mem_subtree ⟨6⟩)

end LoopDirectives.Reference
