import LoopDirectives.Loop.Basic
import LoopDirectives.Proofs.Document.Axes

/-!
# The search for nests

A nest binds names when there is a chain of loops in it, each directly in the first body of the one
before, with a variable of each name in order (`IsNest`). The test for nests goes through the names
from the outside and decides this for any number of them (`bindsAll_iff`), so the search finds the
outermost nests that come after a node (`nestsBefore_exact`).
-/

namespace LoopDirectives.Loop

open Document List

variable {doc : Document} {start finish node : NodeId} {name : String} {names : List String}

/-- The loops have variables of the names, and each stands directly in the first body of the one
before. -/
structure BindInTurn (doc : Document) (names : List String) (loops : List NodeId) : Prop where
  binds : List.Forall₂ (fun name loop ↦ doc.isKind loop .doLoop = true ∧
    ∃ var ∈ doc.children loop, doc.isKind var .var = true ∧
      Text.sameLetters (doc.text var) name = true) names loops
  nested : loops.IsChain fun outer inner ↦
    ∃ body, doc.childOf? outer .body = some body ∧ inner ∈ doc.children body

/-- The node is the outermost loop of a chain that binds the names. -/
def IsNest (doc : Document) (names : List String) (node : NodeId) : Prop :=
  ∃ inner, BindInTurn doc names (node :: inner)

/-- The node is such a loop after `start`, and no node above it is another one after `start`. -/
def IsOutermost (doc : Document) (start : NodeId) (names : List String) (node : NodeId) :
    Prop :=
  doc.ComesAfter start node ∧ IsNest doc names node ∧
    ∀ upper, doc.Above upper node → doc.ComesAfter start upper →
      ¬ IsNest doc names upper

theorem binds_iff : binds doc name node ↔ ∃ var ∈ doc.children node,
    doc.isKind var .var = true ∧ Text.sameLetters (doc.text var) name = true := by
  simp [binds]

theorem not_isNest_nil : ¬ IsNest doc [] node := by
  rintro ⟨inner, chain⟩
  cases chain.binds

theorem bindsAll_cons_cons {second : String} : bindsAll doc (name :: second :: names) node =
    (doc.isKind node .doLoop && binds doc name node &&
      (doc.childOf? node .body).any fun body ↦
        (doc.children body).any (bindsAll doc (second :: names))) :=
  rfl

/-- By induction on the names: what is left of a chain without its first loop is a chain for the
other names. -/
theorem bindsAll_iff : bindsAll doc names node ↔ IsNest doc names node := by
  induction names generalizing node with
  | nil => exact iff_of_false Bool.false_ne_true not_isNest_nil
  | cons name rest ih =>
    cases rest with
    | nil =>
      change (doc.isKind node .doLoop && binds doc name node) = true ↔ _
      rw [Bool.and_eq_true, binds_iff]
      constructor
      · intro h
        exact ⟨[], .cons h .nil, .singleton _⟩
      · rintro ⟨inner, hbinds, -⟩
        exact (forall₂_cons.mp hbinds).1
    | cons second rest =>
      simp only [bindsAll_cons_cons, Bool.and_eq_true, binds_iff, Option.any_eq_true,
        any_eq_true, ih]
      constructor
      · rintro ⟨h, body, hbody, loop, hloop, inner, chain⟩
        exact ⟨loop :: inner, .cons h chain.binds, .cons_cons ⟨body, hbody, hloop⟩ chain.nested⟩
      · rintro ⟨inner, hbinds, hnested⟩
        obtain ⟨h, hrest⟩ := forall₂_cons.mp hbinds
        obtain ⟨loop, others, -, -, rfl⟩ := forall₂_cons_left_iff.mp hrest
        obtain ⟨⟨body, hbody, hloop⟩, hothers⟩ := isChain_cons_cons.mp hnested
        exact ⟨h, body, hbody, loop, hloop, others, hrest, hothers⟩

theorem mem_nestsBefore_iff (forest : doc.Forest) :
    node ∈ nestsBefore doc start finish names ↔
      IsOutermost doc start names node ∧
        0 < doc.line node ∧ doc.line node < doc.line finish := by
  rw [Nat.pos_iff_ne_zero, IsOutermost]
  simp [nestsBefore, bindsAll_iff, forest.mem_following_iff, forest.mem_ancestors_iff]
  tauto

/-- The search finds, in document order and none twice, the outermost nests for the names on a known
line before that of `finish`. For no names it finds nothing, and of what it finds nothing is inside
another. -/
theorem nestsBefore_exact (forest : doc.Forest) (start finish : NodeId)
    (names : List String) :
    (nestsBefore doc start finish names).Sublist
      (doc.subtree (doc.topmost start)) ∧
    (nestsBefore doc start finish names).Nodup ∧
    (∀ node, node ∈ nestsBefore doc start finish names ↔
      IsOutermost doc start names node ∧
        0 < doc.line node ∧ doc.line node < doc.line finish) ∧
    nestsBefore doc start finish [] = [] ∧
    ∀ outer ∈ nestsBefore doc start finish names,
      ∀ inner ∈ nestsBefore doc start finish names, ¬ doc.Above outer inner := by
  have hsublist : (nestsBefore doc start finish names).Sublist
      (doc.subtree (doc.topmost start)) := by
    rw [(forest.subtree_topmost start).2]
    exact ((List.filter_sublist.trans List.filter_sublist).trans List.filter_sublist).trans
      (List.sublist_append_right ..)
  refine ⟨hsublist, hsublist.nodup (forest.nodup_subtree _), fun node ↦ mem_nestsBefore_iff forest,
    List.eq_nil_iff_forall_not_mem.mpr fun node hnode ↦ ?_,
    fun outer houter inner hinner habove ↦ ?_⟩
  · exact not_isNest_nil ((mem_nestsBefore_iff forest).mp hnode).1.2.1
  obtain ⟨⟨hafter, hnest, -⟩, -⟩ := (mem_nestsBefore_iff forest).mp houter
  obtain ⟨⟨-, -, hinside⟩, -⟩ := (mem_nestsBefore_iff forest).mp hinner
  exact hinside outer habove hafter hnest

/-- The loop over `i` is found as the outer one of a nest over `I` and `j`. -/
theorem nestsBefore_exact_nestBetweenPragmas :
    IsOutermost nestBetweenPragmas ⟨1⟩ ["I", "j"] ⟨2⟩ := by
  have forest : nestBetweenPragmas.Forest := forest_ofElement _
  obtain ⟨-, -, hmem, -⟩ := nestsBefore_exact forest ⟨1⟩ ⟨8⟩ ["I", "j"]
  exact ((hmem ⟨2⟩).mp (by decide +kernel)).1

end LoopDirectives.Loop
