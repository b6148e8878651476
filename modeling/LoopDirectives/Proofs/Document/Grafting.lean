import LoopDirectives.Proofs.Document.Batch
import LoopDirectives.Proofs.Document.Recast

/-!
# Putting new nodes in the places of others

New trees are planted, each root is put behind the node whose place it is to take (`Placed`), and
then these nodes are deleted; what is left is the document with the nodes replaced
(`Placed.recast`). `Substituted` says which elements have come in the places of others.
Substitutions in parts apart from one another compose (`Substituted.trans`).
-/

namespace LoopDirectives.Document

open List

variable {doc before middle placed after : Document} {id parent part root x : NodeId}
  {ids parts roots : List NodeId} {rename again : NodeId → NodeId}

/-! ### Putting a node behind another one -/

/-- What stands where the node stood, when the root has taken the place of the part. -/
def putFor (part root x : NodeId) : NodeId :=
  if x = part then root else x

theorem filter_notMem_cons (h : part ∉ ids) :
    ids.filter (· ∉ part :: parts) = (ids.filter (· ∉ parts)).map (putFor part root) := by
  have hne {x : NodeId} (hx : x ∈ ids) : x ≠ part := ne_of_mem_of_not_mem hx h
  have hput : ∀ x ∈ ids.filter (· ∉ parts), putFor part root x = x := fun x hx ↦
    if_neg (hne (mem_of_mem_filter hx))
  rw [map_congr_left hput, map_id']
  exact filter_congr fun x hx ↦ by simp [hne hx]

theorem filter_split_notMem_cons {first rest : List NodeId}
    (hnodup : (first ++ part :: rest).Nodup) (hpart : part ∉ parts)
    (hroot : root ∉ part :: parts) :
    (first ++ part :: root :: rest).filter (· ∉ part :: parts) =
      ((first ++ part :: rest).filter (· ∉ parts)).map (putFor part root) := by
  rw [perm_middle.nodup_iff, nodup_cons, mem_append, not_or] at hnodup
  rw [filter_append, filter_append, map_append, filter_cons_of_neg (by simp),
    filter_cons_of_pos (by simpa using hroot), filter_cons_of_pos (by simpa using hpart),
    map_cons, putFor, if_pos rfl, filter_notMem_cons hnodup.1.1, filter_notMem_cons hnodup.1.2]

/-! ### Roots behind the nodes whose places they are to take -/

/-- What a document shows when new roots have been planted and some of them put behind the parts.
The children are given as they will be seen when the parts are gone. -/
structure Placed (before middle placed : Document) (roots parts : List NodeId)
    (rename : NodeId → NodeId) : Prop where
  planted : Planted before middle roots none
  forest : placed.Forest
  size_eq : placed.slots.size = middle.slots.size
  contains_eq : ∀ x, placed.contains x = middle.contains x
  label_eq : ∀ x, placed.label x = middle.label x
  parent?_eq : ∀ x, (∀ part ∈ parts, rename part ≠ x) → placed.parent? x = middle.parent? x
  children : ∀ x, (placed.children x).filter (· ∉ parts) = (middle.children x).map rename
  rename_of_notMem : ∀ x, x ∉ parts → rename x = x
  rename_mem : ∀ part ∈ parts, rename part ∈ roots
  parent?_rename : ∀ part ∈ parts, ∃ parent,
    before.parent? part = some parent ∧ placed.parent? (rename part) = some parent

theorem Planted.placed_nil (planted : Planted before middle roots none) (forest : before.Forest) :
    Placed before middle middle roots [] fun x ↦ x where
  planted := planted
  forest := planted.forest_of_forest forest
  size_eq := rfl
  contains_eq _ := rfl
  label_eq _ := rfl
  parent?_eq _ _ := rfl
  children _ := by simp
  rename_of_notMem _ _ := rfl
  rename_mem := by simp
  parent?_rename := by simp

theorem Forest.not_mem_subtree_of_new (forest : doc.Forest)
    (hnew : doc.slots.size ≤ id.index) (hx : doc.contains x) :
    x ∉ doc.subtree id := by
  intro hmem
  rcases (forest.mem_subtree_iff id x).mp hmem with rfl | habove
  · exact Nat.not_lt.mpr hnew (index_lt_size hx)
  · exact Nat.not_lt.mpr hnew (index_lt_size (forest.contains_above habove))

namespace Placed

variable (place : Placed before middle placed roots parts rename)

include place

theorem rename_new (hpart : part ∈ parts) : before.slots.size ≤ (rename part).index :=
  (place.planted.root_new _ (place.rename_mem part hpart)).1

theorem notMem_roots (hx : before.contains x) : x ∉ roots := fun hroot ↦
  Nat.not_lt.mpr (place.planted.root_new x hroot).1 (index_lt_size hx)

theorem contains_of_mem (hpart : part ∈ parts) : before.contains part := by
  obtain ⟨parent, hparent, -⟩ := place.parent?_rename part hpart
  exact contains_of_parent? hparent

theorem keepsClear : KeepsClear before placed [] := by
  have hold {x : NodeId} (hx : before.Clear [] x) := place.planted.readings_old (index_lt_size hx.1)
  refine ⟨place.forest, fun x hx ↦ ?_, fun x hx ↦ ?_, fun x hx ↦ ?_⟩
  · rw [place.contains_eq, (hold hx).1, hx.1]
  · rw [place.label_eq, (hold hx).2.1]
  · rw [place.parent?_eq, (hold hx).2.2.1]
    rintro part hpart rfl
    exact place.notMem_roots hx.1 (place.rename_mem part hpart)

variable (forest : before.Forest)

include forest

theorem mem_subtree_iff (hx : before.contains x) :
    x ∈ placed.subtree id ↔ x ∈ before.subtree id :=
  place.keepsClear.mem_subtree_iff forest ⟨hx, by simp⟩

/-- Assumes: a planted root without a place. Put after a part, it stands for the part. -/
theorem insertAfter (hpart : before.parent? part = some parent) (hnew : part ∉ parts)
    (hroot : root ∈ roots) (hfree : ∀ other ∈ parts, rename other ≠ root) :
    Placed before middle (placed.insertAfter part root) roots (part :: parts)
      (putFor part root ∘ rename) := by
  have hlive := contains_of_parent? hpart
  have hout := place.notMem_roots hlive
  have hother : root ∉ part :: parts := by
    rw [mem_cons, not_or]
    exact ⟨ne_of_mem_of_not_mem hroot hout,
      fun hmem ↦ place.notMem_roots (place.contains_of_mem hmem) hroot⟩
  have hnone : placed.parent? root = none :=
    (place.parent?_eq root hfree).trans (place.planted.parent?_root root hroot)
  have hnext (x : NodeId) (hx : x ∈ parts) : (putFor part root ∘ rename) x = rename x :=
    if_neg (ne_of_mem_of_not_mem (place.rename_mem x hx) hout)
  have hself : (putFor part root ∘ rename) part = root := by
    rw [Function.comp_apply, place.rename_of_notMem part hnew, putFor, if_pos rfl]
  have hplaced : placed.parent? part = some parent :=
    (place.keepsClear.parent? part ⟨hlive, by simp⟩).trans hpart
  have hbelow : parent ∉ placed.subtree root := by
    have hparent := forest.contains_parent hpart
    rw [place.mem_subtree_iff forest hparent]
    exact forest.not_mem_subtree_of_new (place.planted.root_new root hroot).1 hparent
  rw [place.forest.mem_subtree_iff, not_or] at hbelow
  obtain ⟨position, hposition, moved⟩ : ∃ position, _ ∧
      Moved placed (placed.insertAfter part root) root parent (position + 1) :=
    place.forest.moved_insertBeside hplaced (ne_of_mem_of_not_mem hroot hout).symm
      (place.forest.canAttach_of_not_above
        ((place.contains_eq root).trans (place.planted.contains_root hroot))
        (place.forest.contains_parent hplaced) (Ne.symm hbelow.1) hbelow.2)
  have hfilter (x : NodeId) : (placed.children x).filter (· ≠ root) = placed.children x := by
    refine filter_eq_self.mpr fun child hchild ↦ decide_eq_true ?_
    rintro rfl
    simp [place.forest.parent?_of_mem hchild] at hnone
  refine ⟨place.planted, moved.forest place.forest, moved.size_eq.trans place.size_eq,
    fun x ↦ (moved.contains_eq x).trans (place.contains_eq x),
    fun x ↦ (moved.label_eq x).trans (place.label_eq x), fun x hx ↦ ?_, fun x ↦ ?_, fun x hx ↦ ?_,
    forall_mem_cons.mpr ⟨?_, fun x hx ↦ ?_⟩, forall_mem_cons.mpr ⟨?_, fun x hx ↦ ?_⟩⟩
  · obtain ⟨hne, hothers⟩ := forall_mem_cons.mp hx
    rw [moved.parent?_of_ne fun heq ↦ hne (hself.trans heq.symm), place.parent?_eq]
    exact fun other hmem heq ↦ hothers other hmem ((hnext other hmem).trans heq)
  · rw [← map_map, ← place.children]
    by_cases hx : x = parent
    · subst hx
      rw [hfilter] at hposition
      obtain ⟨first, rest, hsplit, hlength⟩ := exists_split_of_getElem? hposition
      have hnodup := place.forest.nodup_children x
      rw [hsplit] at hnodup
      rw [moved.children_parent, hfilter, hsplit, ← hlength,
        ← filter_split_notMem_cons hnodup hnew hother]
      simp [take_append, take_of_length_le]
    · rw [moved.children_of_ne x hx, hfilter, filter_notMem_cons]
      intro hchild
      rw [place.forest.parent?_of_mem hchild] at hplaced
      exact hx (Option.some.inj hplaced)
  · rw [mem_cons, not_or] at hx
    rw [Function.comp_apply, place.rename_of_notMem x hx.2, putFor, if_neg hx.1]
  · rwa [hself]
  · rw [hnext x hx]
    exact place.rename_mem x hx
  · exact ⟨parent, hpart, by rw [hself, moved.parent?_self]⟩
  · obtain ⟨holder, hold, hrenamed⟩ := place.parent?_rename x hx
    exact ⟨holder, hold, by rw [hnext x hx, moved.parent?_of_ne (hfree x hx), hrenamed]⟩

/-! ### The parts replaced -/

theorem contains_iff (hx : x.index < before.slots.size) :
    (placed.deleteAll parts).contains x ↔ before.Clear parts x := by
  rw [(place.forest.pruned_deleteAll parts).contains_iff, place.contains_eq,
    (place.planted.readings_old hx).1]
  refine and_congr_right fun hlive ↦ forall₂_congr fun part _ ↦ not_congr ?_
  exact place.mem_subtree_iff forest hlive

theorem mem_subtree_root (h : x ∈ middle.subtree root) : x ∈ placed.subtree root := by
  refine (place.forest.mem_subtree_iff root x).mpr
    ((((place.planted.forest_of_forest forest).mem_subtree_iff root x).mp h).imp_right
      fun habove ↦ habove.mono fun child parent hparent ↦ ?_)
  rw [place.parent?_eq, hparent]
  rintro part hpart rfl
  simp [place.planted.parent?_root _ (place.rename_mem part hpart)] at hparent

/-- Assumes: every planted root has a part whose place it takes. Without the parts, it is a recast.
-/
theorem recast (hroots : ∀ root ∈ roots, ∃ part ∈ parts, rename part = root) :
    Recast before (placed.deleteAll parts) parts rename := by
  have pruned := place.forest.pruned_deleteAll parts
  have hlive {x : NodeId} (hx : before.Clear parts x) :=
    (place.contains_iff forest (index_lt_size hx.1)).mpr hx
  refine ⟨⟨pruned.forest, fun x hx ↦ hlive hx, fun x hx ↦ ?_, fun x hx ↦ ?_⟩, ?_, fun x hx ↦ ?_,
    place.rename_of_notMem, fun part ↦ place.rename_new, fun x hx ↦ ?_⟩
  · rw [pruned.label_eq x (hlive hx), place.keepsClear.label x ⟨hx.1, by simp⟩]
  · rw [pruned.parent?_eq x (hlive hx), place.keepsClear.parent? x ⟨hx.1, by simp⟩]
  · rw [size_deleteAll, place.size_eq]
    exact place.planted.size_le
  · rw [pruned.children_eq x (hlive hx), place.children,
      (place.planted.readings_old (index_lt_size hx.1)).2.2.2]
  · by_cases hold : x.index < before.slots.size
    · exact Or.inl ((place.contains_iff forest hold).mp hx)
    · have hmiddle := ((pruned.contains_iff x).mp hx).1
      rw [place.contains_eq] at hmiddle
      obtain ⟨root, hroot, hbelow⟩ := place.planted.exists_root
        (place.planted.forest_of_forest forest) (Nat.not_lt.mp hold) hmiddle
      obtain ⟨part, hpart, rfl⟩ := hroots root hroot
      refine Or.inr ⟨part, hpart, (pruned.mem_subtree_iff place.forest hx).mpr ?_⟩
      exact place.mem_subtree_root forest hbelow

variable (hung : before.Hung parts)

include hung

theorem not_mem_subtree (hpart : part ∈ parts) (hx : x ∈ middle.subtree (rename part))
    {other : NodeId} (hother : other ∈ parts) : x ∉ placed.subtree other := by
  have hlive := hung.contains hother
  have hout := forest.not_mem_subtree_of_new (place.rename_new hpart) hlive
  refine Apart.disjoint ⟨fun hmem ↦ ?_, ?_⟩ place.forest (place.mem_subtree_root forest hx)
  · obtain ⟨parent, hparent, hrenamed⟩ := place.parent?_rename part hpart
    have hclear := hung.clear_parent forest hpart hparent
    rcases (place.forest.mem_subtree_of_parent? hrenamed).mp hmem with heq | hmem
    · exact hout (heq ▸ forest.self_mem_subtree _)
    · exact hclear.2 other hother ((place.mem_subtree_iff forest hclear.1).mp hmem)
  · rwa [place.mem_subtree_iff forest hlive]

theorem element_rename (hpart : part ∈ parts) :
    (placed.deleteAll parts).element (rename part) = middle.element (rename part) := by
  have pruned := place.forest.pruned_deleteAll parts
  have hmiddle := place.planted.forest_of_forest forest
  have hroot := place.rename_mem part hpart
  refine hmiddle.element_congr pruned.forest fun x hx ↦ ?_
  have hnew : before.slots.size ≤ x.index ∧ middle.contains x := by
    rcases (hmiddle.mem_subtree_iff _ x).mp hx with rfl | habove
    · exact ⟨place.rename_new hpart, place.planted.contains_root hroot⟩
    · refine ⟨Nat.not_lt.mp fun hold ↦ ?_, habove.contains⟩
      have hlive := forest.contains_above ((place.planted.above_cases forest habove).1 hold)
      exact Nat.not_lt.mpr (place.rename_new hpart) (index_lt_size hlive)
  have hlive : (placed.deleteAll parts).contains x :=
    (pruned.contains_iff x).mpr ⟨(place.contains_eq x).trans hnew.2,
      fun _ hother ↦ place.not_mem_subtree forest hung hpart hx hother⟩
  refine ⟨(pruned.label_eq x hlive).trans (place.label_eq x), ?_⟩
  rw [pruned.children_eq x hlive, place.children]
  -- The parts are old, and a new node has no old children.
  refine (map_congr_left fun child hchild ↦ place.rename_of_notMem child fun hmem ↦ ?_).trans
    (map_id _)
  have hparent := hmiddle.parent?_of_mem hchild
  rw [(place.planted.readings_old (index_lt_size (hung.contains hmem))).2.2.1] at hparent
  exact Nat.not_lt.mpr hnew.1 (index_lt_size (forest.contains_parent hparent))

end Placed

theorem Pruned.element_of_apart (pruned : Pruned before after ids) (forest : before.Forest)
    (hlive : before.contains x) (hapart : ∀ id ∈ ids, before.Apart x id) :
    after.element x = before.element x := by
  refine forest.element_congr pruned.forest fun y hy ↦ ?_
  have hclear : after.contains y := (pruned.contains_iff y).mpr
    ⟨forest.contains_of_mem_subtree hlive hy, fun id hid ↦ (hapart id hid).disjoint forest hy⟩
  refine ⟨pruned.label_eq y hclear, (pruned.children_eq y hclear).trans ?_⟩
  refine filter_eq_self.mpr fun child hchild ↦ decide_eq_true fun hid ↦ ?_
  exact (hapart child hid).2
    (forest.mem_subtree_trans (forest.mem_subtree_of_mem_children hchild) hy)

theorem Recast.rootedAt (recast : Recast before after parts rename) (forest : before.Forest)
    (hung : before.Hung parts) (rooted : before.RootedAt roots) : after.RootedAt roots := by
  intro x hlive hparent
  rcases recast.cover x hlive with hx | ⟨part, hpart, hx⟩
  · exact rooted x hx.1 ((recast.parent? x hx).symm.trans hparent)
  · obtain ⟨holder, hholder⟩ := hung.exists_parent? part hpart
    rcases (recast.forest.mem_subtree_iff _ x).mp hx with rfl | habove
    · simp [recast.parent?_rename forest hung hpart hholder] at hparent
    · exact absurd habove (not_above_of_parent?_eq_none hparent)

/-! ### Which elements have come -/

/-- What a document shows when the first node of each pair has been replaced by what the second
was. -/
structure Substituted (before after : Document) (pairs : List (NodeId × NodeId))
    (rename : NodeId → NodeId) : Prop
    extends Recast before after (pairs.map Prod.fst) rename where
  clear : ∀ x, x.index < before.slots.size → after.contains x = true →
    before.Clear (pairs.map Prod.fst) x
  element : ∀ pair ∈ pairs, after.element (rename pair.1) = before.element pair.2

/-- Two substitutions compose if the later parts and sources are apart from the earlier parts. -/
theorem Substituted.trans {pairs others : List (NodeId × NodeId)}
    (first : Substituted before middle pairs rename)
    (second : Substituted middle after others again) (forest : before.Forest)
    (hpairs : before.Hung (pairs.map Prod.fst)) (hothers : before.Hung (others.map Prod.fst))
    (hapart : ∀ other ∈ others.map Prod.fst, ∀ part ∈ pairs.map Prod.fst, before.Apart other part)
    (hsources : ∀ other ∈ others, before.contains other.2 ∧
      ∀ part ∈ pairs.map Prod.fst, before.Apart other.2 part) :
    Substituted before after (pairs ++ others) (again ∘ rename) := by
  refine ⟨?_, fun x hold hx ↦ ?_, fun pair hpair ↦ ?_⟩
  · rw [map_append]
    exact first.toRecast.trans second.toRecast forest hothers hapart
  · have hlater := second.clear x (Nat.lt_of_lt_of_le hold first.size_le) hx
    have hclear := first.clear x hold hlater.1
    rw [map_append, clear_append_iff]
    refine ⟨hclear, hclear.1, fun other hother ↦ ?_⟩
    rw [← first.mem_subtree_iff forest hclear]
    exact hlater.2 other hother
  · rw [Function.comp_apply]
    rcases mem_append.mp hpair with hpair | hpair
    · have hpart := mem_map_of_mem (f := Prod.fst) hpair
      rw [first.toRecast.again_rename second.toRecast hothers hpart, ← first.element pair hpair]
      exact first.toRecast.element_rename_of_later second.toRecast forest hothers hapart hpairs
        hpart
    · rw [first.toRecast.rename_of_apart forest hapart (mem_map_of_mem hpair),
        second.element pair hpair]
      exact first.toRecast.element_of_apart forest (hsources pair hpair).1 (hsources pair hpair).2

end LoopDirectives.Document
