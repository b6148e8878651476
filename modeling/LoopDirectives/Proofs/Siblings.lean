import Mathlib.Data.List.DropRight
import LoopDirectives.Proofs.Document.Order
import LoopDirectives.Proofs.Document.Planting
import LoopDirectives.Proofs.Sample

/-!
# Assignments up to an end pragma

The array assignments up to an end are those that follow `start` and precede some end. An end is
any pragma with the text, so what lies between the first end and the last one is found too
(`arrayAssignmentsUntil_eq`).
-/

namespace LoopDirectives.Siblings

open Document List

variable {doc : Document} {start x : NodeId} {finish : String}

def isEnd (doc : Document) (finish : String) (node : NodeId) : Bool :=
  doc.isKind node .pragma && doc.text node == finish

/-- The siblings after `start` before the first end; none if there is no end. -/
def window (doc : Document) (start : NodeId) (finish : String) : List NodeId :=
  let after := doc.followingSiblings start
  if after.any (isEnd doc finish) then after.takeWhile (!isEnd doc finish ·) else []

/-- The siblings after `start` from the first end up to the last one. -/
def overrun (doc : Document) (start : NodeId) (finish : String) : List NodeId :=
  ((doc.followingSiblings start).dropWhile (!isEnd doc finish ·)).rdropWhile
    (!isEnd doc finish ·)

theorem isEnd_eq_false_of_isArrayAssignment (h : isArrayAssignment doc x) :
    isEnd doc finish x = false := by
  obtain ⟨hkind, -⟩ := Bool.and_eq_true_iff.mp h
  simp [isEnd, isKind, beq_iff_eq.mp hkind]

theorem exists_last_end {isEnd : NodeId → Bool} {nodes : List NodeId}
    (h : nodes.any isEnd) :
    ∃ others last rest,
      (nodes.dropWhile (!isEnd ·)).rdropWhile (!isEnd ·) = others ++ [last] ∧
      isEnd last ∧ (∀ x ∈ rest, isEnd x = false) ∧
      nodes = nodes.takeWhile (!isEnd ·) ++ others ++ last :: rest := by
  have hne : (nodes.dropWhile (!isEnd ·)).rdropWhile (!isEnd ·) ≠ [] := by
    intro hnil
    rw [rdropWhile_eq_nil_iff] at hnil
    obtain ⟨x, hx, hend⟩ := any_eq_true.mp h
    rw [← takeWhile_append_dropWhile (p := (!isEnd ·)) (l := nodes), mem_append] at hx
    simpa [hend] using hx.elim mem_takeWhile_imp (hnil x)
  refine ⟨_, _, (nodes.dropWhile (!isEnd ·)).rtakeWhile (!isEnd ·),
    (dropLast_append_getLast hne).symm, by simpa using rdropWhile_last_not _ _ hne,
    fun x hx ↦ by simpa using mem_rtakeWhile_imp hx, ?_⟩
  rw [append_assoc, append_cons, dropLast_append_getLast,
    rdropWhile_append_rtakeWhile, takeWhile_append_dropWhile]

section

variable (forest : doc.Forest) {first rest : List NodeId} {last : NodeId}
  (hsplit : doc.followingSiblings start = first ++ last :: rest)

include forest hsplit

theorem mem_precedingSiblings_iff (hx : x ∈ doc.followingSiblings start) :
    x ∈ doc.precedingSiblings last ↔ x ∈ first := by
  obtain ⟨parent, hstart, hlast⟩ := forest.exists_parent?_of_mem_siblings
    (Or.inr (hsplit ▸ mem_append_right first mem_cons_self))
  have hchildren := forest.children_eq_siblings hstart
  have hnodup := nodup_append.mp (hchildren ▸ forest.nodup_children parent)
  rw [hsplit, ← cons_append, ← append_assoc] at hchildren
  rw [(forest.siblings_of_children_eq hlast hchildren).1, mem_append, mem_cons]
  have hbefore : x ∉ doc.precedingSiblings start := fun hmem ↦
    hnodup.2.2 x hmem x (mem_cons_of_mem _ hx) rfl
  have hne : x ≠ start := by
    rintro rfl
    exact (nodup_cons.mp hnodup.2.1).1 hx
  rw [or_iff_right hbefore, or_iff_right hne]

variable (hlast : isEnd doc finish last)
  (hrest : ∀ x ∈ rest, isEnd doc finish x = false)

include hlast hrest

theorem mem_flatMap_precedingSiblings_iff (hx : x ∈ doc.followingSiblings start) :
    x ∈ ((doc.followingSiblings start).filter (isEnd doc finish)).flatMap
      doc.precedingSiblings ↔ x ∈ first := by
  rw [mem_flatMap]
  refine ⟨?_, fun hfirst ↦ ⟨last, by simp [hsplit, hlast],
    (mem_precedingSiblings_iff forest hsplit hx).mpr hfirst⟩⟩
  rintro ⟨mark, hmark, hbefore⟩
  obtain ⟨hmem, hend⟩ := mem_filter.mp hmark
  rw [hsplit, mem_append, mem_cons] at hmem
  rcases hmem with hmem | rfl | hmem
  · obtain ⟨front, back, rfl⟩ := append_of_mem hmem
    rw [append_assoc, cons_append] at hsplit
    exact mem_append_left _ ((mem_precedingSiblings_iff forest hsplit hx).mp hbefore)
  · exact (mem_precedingSiblings_iff forest hsplit hx).mp hbefore
  · simp [hrest mark hmem] at hend

theorem arrayAssignmentsUntil_of_last_end :
    arrayAssignmentsUntil doc start finish = first.filter (isArrayAssignment doc) := by
  have hnodup := nodup_append.mp (hsplit ▸ forest.nodup_followingSiblings start)
  change common _ ((((doc.followingSiblings start).filter
    (isEnd doc finish)).flatMap _).filter _) = _
  have hfound : ∀ x ∈ (doc.followingSiblings start).filter (isArrayAssignment doc),
      ((((doc.followingSiblings start).filter (isEnd doc finish)).flatMap
        doc.precedingSiblings).filter (isArrayAssignment doc)).contains x =
          decide (x ∈ first) := by
    intro x hx
    obtain ⟨hx, hassign⟩ := mem_filter.mp hx
    rw [Bool.eq_iff_iff, contains_iff_mem, mem_filter, and_iff_left hassign,
      mem_flatMap_precedingSiblings_iff forest hsplit hlast hrest hx, decide_eq_true_eq]
  have hbehind : (last :: rest).filter (· ∈ first) = [] :=
    filter_eq_nil_iff.mpr fun x hx hmem ↦ hnodup.2.2 x (of_decide_eq_true hmem) x hx rfl
  rw [common, filter_congr hfound, filter_comm, hsplit, filter_append, hbehind,
    append_nil, filter_eq_self.mpr fun x ↦ decide_eq_true]

end

/-- What is found are the array assignments of the window, and those between the first end and the
last one. -/
theorem arrayAssignmentsUntil_eq (forest : doc.Forest) (start : NodeId) (finish : String) :
    arrayAssignmentsUntil doc start finish =
        (window doc start finish).filter (isArrayAssignment doc) ++
          (overrun doc start finish).filter (isArrayAssignment doc) ∧
      (arrayAssignmentsUntil doc start finish =
          (window doc start finish).filter (isArrayAssignment doc) ↔
        ∀ x ∈ overrun doc start finish, isArrayAssignment doc x = false) := by
  suffices heq : _ from ⟨heq, by rw [heq, List.append_right_eq_self]; simp⟩
  rw [window, overrun]
  cases h : (doc.followingSiblings start).any (isEnd doc finish) with
  | false =>
    have hends : (doc.followingSiblings start).filter (isEnd doc finish) = [] := by
      simpa using h
    rw [List.dropWhile_eq_nil_iff.mpr (by simpa using h)]
    change common _ ((((doc.followingSiblings start).filter
      (isEnd doc finish)).flatMap _).filter _) = _
    rw [hends]
    simp [common]
  | true =>
    obtain ⟨others, last, rest, hover, hlast, hrest, hsplit⟩ := exists_last_end h
    have hother : isArrayAssignment doc last = false := by
      by_contra hassign
      simp [isEnd_eq_false_of_isArrayAssignment (by simpa using hassign)] at hlast
    rw [arrayAssignmentsUntil_of_last_end forest hsplit hlast hrest, hover]
    simp [hother]

def twoEnds : Document :=
  let assignment (array : String) : Element := .branch "FassignStatement" [.arrayRef array []]
  (ofElement (.branch "body" [.pragma "lsm block", assignment "a", .pragma "lsm end block",
    assignment "b", .pragma "lsm end block"])).1

/-- The assignment behind the first end is found too. -/
theorem arrayAssignmentsUntil_eq_twoEnds :
    arrayAssignmentsUntil twoEnds ⟨1⟩ "lsm end block" ≠
      (window twoEnds ⟨1⟩ "lsm end block").filter (isArrayAssignment twoEnds) := by
  have hiff := (arrayAssignmentsUntil_eq (forest_ofElement _ : twoEnds.Forest) ⟨1⟩
    "lsm end block").2
  intro h
  exact absurd (hiff.mp h ⟨7⟩ (by decide +kernel)) (by decide +kernel)

end LoopDirectives.Siblings
