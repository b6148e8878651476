import LoopDirectives.Proofs.Document.Axes
import LoopDirectives.Proofs.Transformation.Steps

/-!
# Pragmas around a statement

Cleaning around a loop follows its siblings in both directions as long as they are pragmas of other
tools, and deletes those reached that mention a keyword (`Pragma.IsDoomed`), though it deletes while
it walks and the second walk starts in what the first one has left.

The search for a pragma before a statement goes back among the siblings and on from the node above
them. What it passes is a part of document order, taken backwards (`Pragma.reverse_passed_sublist`).
-/

namespace LoopDirectives

open Document List

theorem Text.occursIn_iff {part text : List Char} : occursIn part text ↔ part <:+: text := by
  induction text with
  | nil => simp [occursIn]
  | cons c rest ih => simp [occursIn, ih, infix_cons_iff]

namespace Pragma

variable {doc : Document} {marker keyword : String} {id parent loop x y : NodeId}
  {siblings nearer further : List NodeId} {keywords : List String}

theorem mentions_iff {text : String} :
    mentions keywords text ↔ ∃ keyword ∈ keywords, keyword.toList <:+: text.toList := by
  simp [mentions, Text.occursIn_iff]

/-! ### Cleaning around a loop -/

/-- The node is a pragma that is not reserved. -/
def IsForeign (doc : Document) (marker : String) (node : NodeId) : Prop :=
  doc.kind node = .pragma ∧ isReserved marker (doc.text node) = false

/-- The node is a foreign pragma of the list, and so are all nodes in front of it. -/
def IsReached (doc : Document) (marker : String) (siblings : List NodeId) (node : NodeId) :
    Prop :=
  ∃ nearer further, siblings = nearer ++ node :: further ∧
    ∀ passed ∈ nearer ++ [node], IsForeign doc marker passed

theorem mem_foreignRun_iff :
    x ∈ foreignRun doc marker siblings ↔ IsReached doc marker siblings x := by
  constructor
  · intro hx
    obtain ⟨nearer, later, hrun⟩ := append_of_mem hx
    obtain ⟨rest, hrest⟩ : foreignRun doc marker siblings <+: siblings :=
      takeWhile_prefix _
    rw [hrun, append_assoc, cons_append] at hrest
    refine ⟨nearer, later ++ rest, hrest.symm, fun y hy ↦ ?_⟩
    have hy : y ∈ foreignRun doc marker siblings := by
      rw [hrun, append_cons]
      exact mem_append_left _ hy
    obtain ⟨-, hkind, hreserved⟩ := mem_of_mem_foreignRun hy
    exact ⟨of_decide_eq_true hkind, hreserved⟩
  · rintro ⟨nearer, further, rfl, hpassed⟩
    rw [foreignRun, append_cons, takeWhile_append_of_pos]
    · simp
    · intro y hy
      simpa [isKind, IsForeign] using hpassed y hy

theorem IsReached.mem (h : IsReached doc marker siblings x) : x ∈ siblings := by
  obtain ⟨nearer, further, rfl, -⟩ := h
  simp

theorem IsReached.mem_of_append {barrier : NodeId} (hbarrier : ¬ IsForeign doc marker barrier)
    (h : IsReached doc marker (nearer ++ barrier :: further) x) : x ∈ nearer := by
  have hstop : (doc.isKind barrier .pragma && !isReserved marker (doc.text barrier)) =
      false := by
    simpa [isKind, IsForeign] using hbarrier
  have hrun := mem_foreignRun_iff.mpr h
  rw [foreignRun, takeWhile_append, takeWhile_cons_of_neg (by simpa using hstop)] at hrun
  split at hrun
  · simpa using hrun
  · exact takeWhile_subset _ hrun

/-- The node is a foreign pragma reached back from the loop that mentions a keyword of the first
list, or reached onwards from it that mentions one of the second. -/
def IsDoomed (doc : Document) (marker : String) (loop : NodeId) (before after : List String)
    (node : NodeId) : Prop :=
  IsReached doc marker (doc.precedingSiblings loop).reverse node ∧
      (∃ keyword ∈ before, keyword.toList <:+: (doc.text node).toList) ∨
    IsReached doc marker (doc.followingSiblings loop) node ∧
      ∃ keyword ∈ after, keyword.toList <:+: (doc.text node).toList

section

variable {before after : List String}

theorem parent?_of_isDoomed (forest : doc.Forest)
    (h : IsDoomed doc marker loop before after x) :
    ∃ parent, doc.parent? loop = some parent ∧ doc.parent? x = some parent := by
  rcases h with ⟨hback, -⟩ | ⟨honwards, -⟩
  · exact forest.exists_parent?_of_mem_siblings (Or.inl (mem_reverse.mp hback.mem))
  · exact forest.exists_parent?_of_mem_siblings (Or.inr honwards.mem)

theorem exists_pruned_cleanAround (forest : doc.Forest)
    (hloop : doc.kind loop = .doLoop) (before after : List String) :
    ∃ doomed, Pruned doc (cleanAround doc marker loop before after) doomed ∧
      ∀ x, x ∈ doomed ↔ IsDoomed doc marker loop before after x := by
  rw [cleanAround_eq forest (decide_eq_true hloop)]
  refine ⟨_, forest.pruned_deleteAll _, fun x ↦ ?_⟩
  simp only [mem_append, doomedOf, mem_filter, mem_foreignRun_iff, mentions_iff, IsDoomed]

section

variable (forest : doc.Forest)

include forest

theorem not_isDoomed_of_barrier {barrier : NodeId} (hbarrier : ¬ IsForeign doc marker barrier)
    (hsiblings : (doc.precedingSiblings loop).reverse = nearer ++ barrier :: further ∨
      doc.followingSiblings loop = nearer ++ barrier :: further)
    (hx : x ∈ barrier :: further) : ¬ IsDoomed doc marker loop before after x := by
  intro hdoomed
  obtain ⟨parent, hloop, -⟩ := parent?_of_isDoomed forest hdoomed
  have hnodup := forest.nodup_children parent
  rw [forest.children_eq_siblings hloop, nodup_append, nodup_cons] at hnodup
  obtain ⟨hback, ⟨-, honwards⟩, hdisjoint⟩ := hnodup
  have hstops {siblings : List NodeId} (hnodup : siblings.Nodup)
      (hsplit : siblings = nearer ++ barrier :: further) :
      ¬ IsReached doc marker siblings x := by
    rintro hreached
    rw [hsplit] at hnodup hreached
    exact (nodup_append.mp hnodup).2.2 x (hreached.mem_of_append hbarrier) x hx rfl
  have hother (hpreceding : x ∈ doc.precedingSiblings loop) :
      x ∉ doc.followingSiblings loop := fun hfollowing ↦
    hdisjoint x hpreceding x (mem_cons_of_mem _ hfollowing) rfl
  rcases hsiblings with hsplit | hsplit <;> rcases hdoomed with ⟨hreached, -⟩ | ⟨hreached, -⟩
  · exact hstops (nodup_reverse.mpr hback) hsplit hreached
  · refine hother (mem_reverse.mp ?_) hreached.mem
    exact hsplit ▸ mem_append_right _ hx
  · refine hother (mem_reverse.mp hreached.mem) ?_
    exact hsplit ▸ mem_append_right _ hx
  · exact hstops honwards hsplit hreached

/-- A loop is cleaned of the doomed pragmas around it, each with what is below it, and nothing else
changes but the list of its siblings. No pragma beyond a reserved one or beyond another statement is
doomed. Around any other node nothing changes. -/
theorem cleanAround_exact (marker : String) (loop : NodeId) (before after : List String) :
    (doc.kind loop ≠ .doLoop → cleanAround doc marker loop before after = doc) ∧
    (doc.kind loop = .doLoop → ∃ doomed,
      (∀ x, x ∈ doomed ↔ IsDoomed doc marker loop before after x) ∧
      Pruned doc (cleanAround doc marker loop before after) doomed ∧
      (∀ x, doc.parent? loop ≠ some x → doc.contains x = true →
        (∀ pragma ∈ doomed, x ∉ doc.subtree pragma) →
        (cleanAround doc marker loop before after).node? x = doc.node? x) ∧
      ∀ nearer barrier further,
        ((doc.precedingSiblings loop).reverse = nearer ++ barrier :: further ∨
          doc.followingSiblings loop = nearer ++ barrier :: further) →
        ¬ IsForeign doc marker barrier → ∀ x ∈ barrier :: further, x ∉ doomed) := by
  refine ⟨fun hloop ↦ ?_, fun hloop ↦ ?_⟩
  · exact if_neg (by simpa [isKind] using hloop)
  · obtain ⟨doomed, pruned, hdoomed⟩ := exists_pruned_cleanAround forest hloop before after
    refine ⟨doomed, hdoomed, pruned, fun x hx hlive hclear ↦ ?_, ?_⟩
    · refine pruned.node?_eq forest ((pruned.contains_iff x).mpr ⟨hlive, hclear⟩) fun id hid ↦ ?_
      obtain ⟨parent, hparent, hsame⟩ := parent?_of_isDoomed forest ((hdoomed id).mp hid)
      rwa [hsame, ← hparent]
    · intro nearer barrier further hsiblings hbarrier x hx hmem
      exact not_isDoomed_of_barrier forest hbarrier hsiblings hx ((hdoomed x).mp hmem)

end

end

/-- A loop with a pragma after it and four before it, of which the second is reserved and the third
holds a reserved one. -/
def pragmasAroundLoop : Document :=
  let pragma (text : String) (below : List Element) : Element :=
    .node { tag := "FpragmaStatement", text? := some text } below
  (ofElement (.node { tag := "body" } [pragma "acc data" [], pragma "LSM fuse" [],
    pragma "acc loop" [pragma "lsm fuse" []], pragma "omp simd" [],
    .node { tag := "FdoStatement" } [.node { tag := "body" } []], pragma "acc end" []])).1

/-- Of the pragmas that mention `acc` the one next to the loop but one goes and the one beyond the
reserved pragma does not; nothing changes around a pragma. -/
theorem cleanAround_exact_pragmasAroundLoop :
    cleanAround pragmasAroundLoop "lsm" ⟨5⟩ ["acc"] ["acc"] = pragmasAroundLoop ∧
      IsDoomed pragmasAroundLoop "lsm" ⟨6⟩ ["acc"] ["acc"] ⟨3⟩ ∧
      (cleanAround pragmasAroundLoop "lsm" ⟨6⟩ ["acc"] ["acc"]).contains ⟨3⟩ = false ∧
      ¬ IsDoomed pragmasAroundLoop "lsm" ⟨6⟩ ["acc"] ["acc"] ⟨1⟩ := by
  have forest : pragmasAroundLoop.Forest := forest_ofElement _
  have hback : (pragmasAroundLoop.precedingSiblings ⟨6⟩).reverse = [⟨5⟩, ⟨3⟩, ⟨2⟩, ⟨1⟩] := by
    decide +kernel
  obtain ⟨doomed, hdoomed, pruned, -, hbarrier⟩ :=
    (cleanAround_exact forest "lsm" ⟨6⟩ ["acc"] ["acc"]).2 (by decide +kernel)
  have hreached : IsDoomed pragmasAroundLoop "lsm" ⟨6⟩ ["acc"] ["acc"] ⟨3⟩ := by
    refine Or.inl ⟨mem_foreignRun_iff.mp (by decide +kernel), mentions_iff.mp (by decide +kernel)⟩
  refine ⟨(cleanAround_exact forest "lsm" ⟨5⟩ ["acc"] ["acc"]).1 (by decide +kernel), hreached,
    pruned.not_contains forest ((hdoomed ⟨3⟩).mpr hreached), fun hfar ↦ ?_⟩
  refine hbarrier [⟨5⟩, ⟨3⟩] ⟨2⟩ [⟨1⟩] (Or.inl hback) (fun hforeign ↦ ?_) ⟨1⟩ (by simp)
    ((hdoomed ⟨1⟩).mpr hfar)
  exact absurd hforeign.2 (by decide +kernel)

/-- A reserved pragma that stands below a doomed one goes with it. -/
theorem not_cleanAround_only_doomed :
    isReserved "lsm" (pragmasAroundLoop.text ⟨4⟩) = true ∧
      ¬ ∀ x, pragmasAroundLoop.contains x = true →
        ¬ IsDoomed pragmasAroundLoop "lsm" ⟨6⟩ ["acc"] ["acc"] x →
        (cleanAround pragmasAroundLoop "lsm" ⟨6⟩ ["acc"] ["acc"]).contains x = true := by
  refine ⟨by decide +kernel, fun honly ↦ ?_⟩
  have hkept := honly ⟨4⟩ (by decide +kernel) fun hdoomed ↦ by
    obtain ⟨parent, hloop, hpragma⟩ := parent?_of_isDoomed (forest_ofElement _) hdoomed
    exact absurd (hloop.trans hpragma.symm) (by decide +kernel)
  revert hkept
  decide +kernel

/-! ### Searching back -/

/-- The nodes that a search back from the node passes, nearest first. -/
def passed (doc : Document) (id : NodeId) : List NodeId :=
  (doc.precedingSiblings id).reverse ++ (doc.ancestors id).flatMap fun anchor ↦
    anchor :: (doc.precedingSiblings anchor).reverse

/-- The node is above the other one, or a sibling before it or before a node above it. -/
def LiesBefore (doc : Document) (id x : NodeId) : Prop :=
  doc.Above x id ∨
    ∃ anchor, (anchor = id ∨ doc.Above anchor id) ∧ x ∈ doc.precedingSiblings anchor

/-- The node is a pragma whose text has the keyword in it, in any case. -/
def Names (doc : Document) (keyword : String) (node : NodeId) : Prop :=
  doc.kind node = .pragma ∧
    Text.lowerChars keyword.toList <:+: Text.lowerChars (doc.text node).toList

theorem sublist_reverse_of_find? {found : NodeId → Bool} (hx : siblings.find? found = some x)
    (hy : y ∈ siblings) (hfound : found y) (hne : y ≠ x) : [y, x].Sublist siblings.reverse := by
  obtain ⟨-, later, earlier, rfl, hlater⟩ := find?_eq_some_iff_append.mp hx
  have hearlier : y ∈ earlier := by
    rcases mem_append.mp hy with hy | hy
    · simpa [hfound] using hlater y hy
    · exact (mem_cons.mp hy).resolve_left hne
  rw [reverse_append, reverse_cons, append_assoc, singleton_append]
  exact (singleton_sublist.mpr (mem_reverse.mpr hearlier)).append
    (singleton_sublist.mpr mem_cons_self)

theorem isAbout_iff : isAbout doc keyword x ↔ Names doc keyword x := by
  simp [isAbout, Names, isKind, Text.occursIn_iff]

section

variable (forest : doc.Forest)

include forest

theorem mem_passed_iff : x ∈ passed doc id ↔ LiesBefore doc id x := by
  simp only [passed, LiesBefore, mem_append, mem_reverse, mem_flatMap, mem_cons,
    forest.mem_ancestors_iff]
  grind

theorem passed_of_parent? (h : doc.parent? id = some parent) :
    passed doc id =
      (doc.precedingSiblings id).reverse ++ parent :: passed doc parent := by
  simp [passed, forest.ancestors_of_parent? h]

/-- The search goes back through what precedes the node in document order. The induction follows the
chain of the nodes above it. -/
theorem reverse_passed_sublist (id : NodeId) :
    (passed doc id).reverse.Sublist (doc.preceding id) := by
  induction hchain : doc.ancestors id generalizing id with
  | nil =>
    cases hparent : doc.parent? id with
    | none => simp [passed, hchain, precedingSiblings_of_parent?_eq_none hparent]
    | some parent => simp [forest.ancestors_of_parent? hparent] at hchain
  | cons upper chain ih =>
    cases hparent : doc.parent? id with
    | none => simp [ancestors_of_parent?_eq_none hparent] at hchain
    | some parent =>
      rw [forest.ancestors_of_parent? hparent, List.cons.injEq] at hchain
      rw [passed_of_parent? forest hparent, forest.preceding_of_parent? hparent,
        reverse_append, reverse_cons, reverse_reverse, append_assoc, singleton_append]
      exact (ih parent hchain.2).append ((forest.sublist_flatMap_subtree _).cons_cons parent)

/-- The pragma found is the last in document order among those that lie before the node and name the
keyword, and none is found exactly if there are none. -/
theorem previous?_last (keyword : String) (id : NodeId) :
    (∀ x, previous? doc keyword id = some x →
      (LiesBefore doc id x ∧ Names doc keyword x) ∧
      ∀ y, LiesBefore doc id y ∧ Names doc keyword y → y ≠ x →
        [y, x].Sublist (doc.subtree (doc.topmost id))) ∧
    (previous? doc keyword id = none ↔
      ¬ ∃ x, LiesBefore doc id x ∧ Names doc keyword x) := by
  have hsearch : previous? doc keyword id =
    (passed doc id).find? (isAbout doc keyword) := rfl
  rw [hsearch]
  constructor
  · intro x hx
    have hmem : LiesBefore doc id x := (mem_passed_iff forest).mp (mem_of_find?_eq_some hx)
    refine ⟨⟨hmem, isAbout_iff.mp (find?_some hx)⟩, fun y ⟨hy, hnames⟩ hne ↦ ?_⟩
    have hpair := sublist_reverse_of_find? hx ((mem_passed_iff forest).mpr hy)
      (isAbout_iff.mpr hnames) hne
    refine (hpair.trans (reverse_passed_sublist forest id)).trans ?_
    rw [forest.subtree_topmost_eq_append_cons]
    exact sublist_append_left ..
  · rw [find?_eq_none]
    simp only [mem_passed_iff forest, isAbout_iff, not_exists, not_and]

end

/-- From the body of the loop the search finds the nearest pragma before it that mentions the word;
the one after the loop does not count. -/
theorem previous?_last_pragmasAroundLoop :
    previous? pragmasAroundLoop "ACC" ⟨7⟩ = some ⟨3⟩ ∧ Names pragmasAroundLoop "ACC" ⟨3⟩ ∧
      [⟨1⟩, ⟨3⟩].Sublist (pragmasAroundLoop.subtree (pragmasAroundLoop.topmost ⟨7⟩)) ∧
      ¬ ∃ x, LiesBefore pragmasAroundLoop ⟨7⟩ x ∧ Names pragmasAroundLoop "end" x := by
  have forest : pragmasAroundLoop.Forest := forest_ofElement _
  have hfound : previous? pragmasAroundLoop "ACC" ⟨7⟩ = some ⟨3⟩ := by decide +kernel
  obtain ⟨⟨-, hnames⟩, hlast⟩ := (previous?_last forest "ACC" ⟨7⟩).1 ⟨3⟩ hfound
  have hbefore : LiesBefore pragmasAroundLoop ⟨7⟩ ⟨1⟩ :=
    (mem_passed_iff forest).mp (by decide +kernel)
  refine ⟨hfound, hnames, hlast ⟨1⟩ ⟨hbefore, isAbout_iff.mp (by decide +kernel)⟩ (by decide), ?_⟩
  exact (previous?_last forest "end" ⟨7⟩).2.mp (by decide +kernel)

end Pragma

end LoopDirectives
