import Mathlib.Data.List.Pairwise
import LoopDirectives.Proofs.Document.Deleting

/-!
# Parts of a document that are put in place of others

Some nodes of a document, apart from one another, are replaced together with what is below them. The
other nodes are clear of these parts (`Clear`): they stay alive with their labels and parents
(`KeepsClear`) and keep their places (`KeepsPlaces`). `Recast` is the strongest: one new node stands
in the place of each part, and nothing else has happened. Such replacements compose
(`Recast.trans`).
-/

namespace LoopDirectives.Document

open List

variable {doc before middle after : Document} {parts others : List NodeId}
  {rename again : NodeId → NodeId} {part parent x y : NodeId}

/-! ### Nodes clear of the parts -/

/-- The node is alive and not below any of the parts. -/
def Clear (doc : Document) (parts : List NodeId) (x : NodeId) : Prop :=
  doc.contains x = true ∧ ∀ part ∈ parts, x ∉ doc.subtree part

instance : Decidable (doc.Clear parts x) :=
  inferInstanceAs (Decidable (_ ∧ _))

theorem Clear.mono (hx : doc.Clear others x) (hparts : ∀ part ∈ parts, part ∈ others) :
    doc.Clear parts x :=
  ⟨hx.1, fun part hpart ↦ hx.2 part (hparts part hpart)⟩

theorem clear_append_iff :
    doc.Clear (parts ++ others) x ↔ doc.Clear parts x ∧ doc.Clear others x := by
  simp only [Clear, mem_append, or_imp, forall_and]
  tauto

section

variable (hx : doc.Clear parts x) (forest : doc.Forest)

include hx forest

theorem Clear.notMem : x ∉ parts :=
  fun hmem ↦ hx.2 x hmem (forest.self_mem_subtree x)

theorem Clear.of_parent? (h : doc.parent? x = some parent) : doc.Clear parts parent := by
  refine ⟨forest.contains_parent h, fun part hpart hmem ↦ hx.2 part hpart ?_⟩
  exact (forest.mem_subtree_of_parent? h).mpr (Or.inr hmem)

theorem Clear.child (h : y ∈ doc.children x) (hy : y ∉ parts) : doc.Clear parts y := by
  refine ⟨forest.contains_child h, fun part hpart hmem ↦ ?_⟩
  rcases (forest.mem_subtree_of_parent? (forest.parent?_of_mem h)).mp hmem with rfl | hmem
  · exact hy hpart
  · exact hx.2 part hpart hmem

end

instance : Std.Symm doc.Apart :=
  ⟨fun _ _ h ↦ h.symm⟩

/-- The parts hang somewhere and are apart from one another. -/
structure Hung (doc : Document) (parts : List NodeId) : Prop where
  exists_parent? : ∀ part ∈ parts, ∃ parent, doc.parent? part = some parent
  pairwise_apart : parts.Pairwise doc.Apart

namespace Hung

variable (hung : doc.Hung parts)

include hung

theorem contains (hpart : part ∈ parts) : doc.contains part := by
  obtain ⟨parent, hparent⟩ := hung.exists_parent? part hpart
  exact contains_of_parent? hparent

theorem apart (hx : x ∈ parts) (hy : y ∈ parts) (hne : x ≠ y) : doc.Apart x y :=
  hung.pairwise_apart.forall hx hy hne

theorem clear_parent (forest : doc.Forest) (hpart : part ∈ parts)
    (h : doc.parent? part = some parent) : doc.Clear parts parent := by
  refine ⟨forest.contains_parent h, fun other hother hmem ↦ ?_⟩
  by_cases heq : part = other
  · exact forest.not_mem_subtree_of_parent? h (heq ▸ hmem)
  · exact (hung.apart hpart hother heq).1 ((forest.mem_subtree_of_parent? h).mpr (Or.inr hmem))

end Hung

theorem hung_singleton (h : doc.parent? part = some parent) : doc.Hung [part] :=
  ⟨by simpa using ⟨parent, h⟩, pairwise_singleton ..⟩

theorem hung_append_iff : doc.Hung (parts ++ others) ↔
    doc.Hung parts ∧ doc.Hung others ∧
      ∀ other ∈ others, ∀ part ∈ parts, doc.Apart other part := by
  constructor
  · intro hung
    obtain ⟨hparts, hothers, hcross⟩ := pairwise_append.mp hung.pairwise_apart
    exact ⟨⟨fun part hpart ↦ hung.exists_parent? part (mem_append_left _ hpart), hparts⟩,
      ⟨fun part hpart ↦ hung.exists_parent? part (mem_append_right _ hpart), hothers⟩,
      fun other hother part hpart ↦ (hcross part hpart other hother).symm⟩
  · rintro ⟨hparts, hothers, hcross⟩
    refine ⟨fun part hpart ↦ ?_, pairwise_append.mpr ⟨hparts.pairwise_apart,
      hothers.pairwise_apart, fun part hpart other hother ↦ (hcross other hother part hpart).symm⟩⟩
    exact (mem_append.mp hpart).elim (hparts.exists_parent? part)
      (hothers.exists_parent? part)

/-! ### Keeping the clear nodes -/

/-- The nodes clear of the parts stay alive with their labels and their parents. -/
structure KeepsClear (before after : Document) (parts : List NodeId) : Prop where
  forest : after.Forest
  contains : ∀ x, before.Clear parts x → after.contains x = true
  label : ∀ x, before.Clear parts x → after.label x = before.label x
  parent? : ∀ x, before.Clear parts x → after.parent? x = before.parent? x

namespace KeepsClear

variable {upper : NodeId} (keeps : KeepsClear before after parts)

include keeps

theorem kind_eq (hx : before.Clear parts x) : after.kind x = before.kind x := by
  rw [kind, kind, keeps.label x hx]

section

variable (forest : before.Forest) (hx : before.Clear parts x)

include forest hx

theorem above_iff : after.Above upper x ↔ before.Above upper x :=
  above_iff_of_parent?_eq keeps.parent? (fun _ _ h ↦ h.of_parent? forest) hx

theorem mem_subtree_iff : x ∈ after.subtree upper ↔ x ∈ before.subtree upper := by
  rw [keeps.forest.mem_subtree_iff, forest.mem_subtree_iff, keeps.above_iff forest hx]

theorem clear_of_mem_subtree (h : x ∈ after.subtree upper) : before.Clear parts upper := by
  rcases (forest.mem_subtree_iff upper x).mp ((keeps.mem_subtree_iff forest hx).mp h) with
    rfl | habove
  · exact hx
  · refine ⟨forest.contains_above habove, fun part hpart hmem ↦ hx.2 part hpart ?_⟩
    exact forest.mem_subtree_trans (forest.mem_subtree_of_above habove) hmem

end

/-- Nodes that are clear of parts all of which have come in place of others, or are such parts
themselves, are clear of the parts that were there before. -/
theorem clear (forest : before.Forest) (hothers : ∀ part ∈ others, ¬ before.Clear parts part)
    (hx : before.Clear parts x) : after.Clear others x :=
  ⟨keeps.contains x hx, fun part hpart hmem ↦
    hothers part hpart (keeps.clear_of_mem_subtree forest hx hmem)⟩

end KeepsClear

/-! ### Keeping the places of the clear nodes -/

/-- The clear nodes stay where they are. Below the nodes of `ranges` other nodes may come and go, so
there it is the order of the clear nodes that is kept. -/
structure KeepsPlaces (before after : Document) (parts ranges : List NodeId) : Prop
    extends KeepsClear before after parts where
  length_children : ∀ x, before.Clear parts x → x ∉ ranges →
    (after.children x).length = (before.children x).length
  getElem?_children : ∀ x, before.Clear parts x → x ∉ ranges → ∀ (index : Nat) (child : NodeId),
    (before.children x)[index]? = some child → before.Clear parts child →
      (after.children x)[index]? = some child
  order : ∀ x, before.Clear parts x →
    (after.children x).filter (before.Clear parts ·) =
      (before.children x).filter (before.Clear parts ·)

namespace KeepsPlaces

variable {ranges : List NodeId}

theorem refl (forest : doc.Forest) : KeepsPlaces doc doc parts ranges where
  forest := forest
  contains _ hx := hx.1
  label _ _ := rfl
  parent? _ _ := rfl
  length_children _ _ _ := rfl
  getElem?_children _ _ _ _ _ hchild _ := hchild
  order _ _ := rfl

theorem filter_filter_of_imp {ids : List NodeId} {fine coarse : NodeId → Bool}
    (h : ∀ id, fine id → coarse id) :
    (ids.filter coarse).filter fine = ids.filter fine := by
  rw [filter_filter]
  refine filter_congr fun id _ ↦ ?_
  cases hfine : fine id with
  | false => rfl
  | true => simp [h id hfine]

theorem mono {wider : List NodeId} (keeps : KeepsPlaces before after parts ranges)
    (hparts : ∀ part ∈ parts, part ∈ others) (hranges : ∀ range ∈ ranges, range ∈ wider) :
    KeepsPlaces before after others wider where
  forest := keeps.forest
  contains x hx := keeps.contains x (hx.mono hparts)
  label x hx := keeps.label x (hx.mono hparts)
  parent? x hx := keeps.parent? x (hx.mono hparts)
  length_children x hx hout := keeps.length_children x (hx.mono hparts) (hout ∘ hranges x)
  getElem?_children x hx hout index child hchild hclear :=
    keeps.getElem?_children x (hx.mono hparts) (hout ∘ hranges x) index child hchild
      (hclear.mono hparts)
  order x hx := by
    have himp : ∀ id, decide (before.Clear others id) →
        decide (before.Clear parts id) := fun id hid ↦
      decide_eq_true ((of_decide_eq_true hid).mono hparts)
    rw [← filter_filter_of_imp himp, keeps.order x (hx.mono hparts), filter_filter_of_imp himp]

/-- Assumes: the later parts are not clear of the earlier ones, and no range is added. -/
theorem trans {later within : List NodeId} (first : KeepsPlaces before middle parts ranges)
    (second : KeepsPlaces middle after later within) (forest : before.Forest)
    (hlater : ∀ part ∈ later, ¬ before.Clear parts part)
    (hwithin : ∀ range ∈ within, range ∈ ranges) : KeepsPlaces before after parts ranges := by
  have hclear {x : NodeId} (hx : before.Clear parts x) : middle.Clear later x :=
    first.clear forest hlater hx
  refine ⟨⟨second.forest, fun x hx ↦ ?_, fun x hx ↦ ?_, fun x hx ↦ ?_⟩, fun x hx hout ↦ ?_,
    fun x hx hout index child hchild hkept ↦ ?_, fun x hx ↦ ?_⟩
  · exact second.contains x (hclear hx)
  · exact (second.label x (hclear hx)).trans (first.label x hx)
  · exact (second.parent? x (hclear hx)).trans (first.parent? x hx)
  · exact (second.length_children x (hclear hx) (hout ∘ hwithin x)).trans
      (first.length_children x hx hout)
  · exact second.getElem?_children x (hclear hx) (hout ∘ hwithin x) index child
      (first.getElem?_children x hx hout index child hchild hkept) (hclear hkept)
  · have himp : ∀ id, decide (before.Clear parts id) →
        decide (middle.Clear later id) := fun id hid ↦
      decide_eq_true (hclear (of_decide_eq_true hid))
    rw [← first.order x hx, ← filter_filter_of_imp himp, second.order x (hclear hx),
      filter_filter_of_imp himp]

theorem children_eq (keeps : KeepsPlaces before after parts ranges) (hx : before.Clear parts x)
    (hout : x ∉ ranges) (hchildren : ∀ child ∈ before.children x, before.Clear parts child) :
    after.children x = before.children x := by
  have hlength := keeps.length_children x hx hout
  refine ext_getElem? fun index ↦ ?_
  cases hchild : (before.children x)[index]? with
  | none =>
    rw [List.getElem?_eq_none_iff] at hchild ⊢
    omega
  | some child =>
    exact keeps.getElem?_children x hx hout index child hchild
      (hchildren child (mem_of_getElem? hchild))

end KeepsPlaces

/-! ### Replacing the parts -/

/-- What a document shows when a new node, with whatever is below it, stands in the place of each
part, and nothing else has changed. -/
structure Recast (before after : Document) (parts : List NodeId) (rename : NodeId → NodeId) : Prop
    extends KeepsClear before after parts where
  size_le : before.slots.size ≤ after.slots.size
  children : ∀ x, before.Clear parts x → after.children x = (before.children x).map rename
  rename_of_notMem : ∀ x, x ∉ parts → rename x = x
  rename_new : ∀ part ∈ parts, before.slots.size ≤ (rename part).index
  cover : ∀ x, after.contains x = true →
    before.Clear parts x ∨ ∃ part ∈ parts, x ∈ after.subtree (rename part)

theorem Forest.recast_nil (forest : doc.Forest) : Recast doc doc [] id where
  forest := forest
  contains _ hx := hx.1
  label _ _ := rfl
  parent? _ _ := rfl
  size_le := Nat.le_refl _
  children x _ := (map_id _).symm
  rename_of_notMem _ _ := rfl
  rename_new := by simp
  cover x hx := Or.inl ⟨hx, by simp⟩

theorem Recast.not_clear_rename (recast : Recast before after parts rename)
    (hpart : part ∈ parts) : ¬ before.Clear parts (rename part) := by
  intro hclear
  exact Nat.not_lt.mpr (recast.rename_new part hpart) (index_lt_size hclear.1)

theorem Recast.congr (recast : Recast before after parts rename)
    (h : ∀ x, x ∈ parts ↔ x ∈ others) : Recast before after others rename := by
  have hclear {x : NodeId} (hx : before.Clear others x) : before.Clear parts x :=
    hx.mono fun part hpart ↦ (h part).mp hpart
  refine ⟨⟨recast.forest, fun x hx ↦ recast.contains x (hclear hx),
    fun x hx ↦ recast.label x (hclear hx), fun x hx ↦ recast.parent? x (hclear hx)⟩,
    recast.size_le, fun x hx ↦ recast.children x (hclear hx),
    fun x hx ↦ recast.rename_of_notMem x (hx ∘ (h x).mp),
    fun part hpart ↦ recast.rename_new part ((h part).mpr hpart), fun x hx ↦ ?_⟩
  rcases recast.cover x hx with hx | ⟨part, hpart, hx⟩
  · exact Or.inl (hx.mono fun part hpart ↦ (h part).mpr hpart)
  · exact Or.inr ⟨part, (h part).mp hpart, hx⟩

namespace Recast

variable (recast : Recast before after parts rename) (forest : before.Forest)

include recast forest

theorem not_mem_subtree_rename (hpart : part ∈ parts) (hx : before.Clear parts x) :
    x ∉ after.subtree (rename part) := by
  intro hmem
  exact recast.not_clear_rename hpart (recast.clear_of_mem_subtree forest hx hmem)

section

variable (hung : before.Hung parts) (hpart : part ∈ parts)

include hung hpart

theorem parent?_rename (h : before.parent? part = some parent) :
    after.parent? (rename part) = some parent := by
  refine recast.forest.parent?_of_mem ?_
  rw [recast.children parent (hung.clear_parent forest hpart h)]
  exact mem_map_of_mem (forest.mem_children h)

theorem contains_rename : after.contains (rename part) := by
  obtain ⟨parent, hparent⟩ := hung.exists_parent? part hpart
  exact contains_of_parent? (recast.parent?_rename forest hung hpart hparent)

theorem apart_rename (hx : before.Clear parts x) (hbelow : part ∉ before.subtree x) :
    after.Apart (rename part) x := by
  refine ⟨fun hmem ↦ ?_, recast.not_mem_subtree_rename forest hpart hx⟩
  obtain ⟨parent, hparent⟩ := hung.exists_parent? part hpart
  rcases (recast.forest.mem_subtree_of_parent?
    (recast.parent?_rename forest hung hpart hparent)).mp hmem with heq | hmem
  · exact recast.not_mem_subtree_rename forest hpart hx (heq ▸ recast.forest.self_mem_subtree _)
  · rw [recast.mem_subtree_iff forest (hung.clear_parent forest hpart hparent)] at hmem
    exact hbelow ((forest.mem_subtree_of_parent? hparent).mpr (Or.inr hmem))

end

section Apart

variable (hlive : before.contains x) (hapart : ∀ part ∈ parts, before.Apart x part)

include hlive hapart

theorem readings_of_apart (hy : y ∈ before.subtree x) :
    after.label y = before.label y ∧ after.children y = before.children y := by
  have hclear : before.Clear parts y := ⟨forest.contains_of_mem_subtree hlive hy,
    fun part hpart ↦ (hapart part hpart).disjoint forest hy⟩
  refine ⟨recast.label y hclear, (recast.children y hclear).trans ?_⟩
  refine (map_congr_left fun child hchild ↦ recast.rename_of_notMem child fun hmem ↦ ?_).trans
    (map_id _)
  exact (hapart child hmem).2
    (forest.mem_subtree_trans (forest.mem_subtree_of_mem_children hchild) hy)

theorem element_of_apart : after.element x = before.element x :=
  forest.element_congr recast.forest fun _ ↦ recast.readings_of_apart forest hlive hapart

theorem childOf?_of_apart (hy : y ∈ before.subtree x) (kind : Kind) :
    after.childOf? y kind = before.childOf? y kind :=
  childOf?_congr (recast.readings_of_apart forest hlive hapart hy).2
    (fun _ hchild ↦ (recast.readings_of_apart forest hlive hapart
      (forest.mem_subtree_trans (forest.mem_subtree_of_mem_children hchild) hy)).1) kind

end Apart

theorem keepsPlaces (ranges : List NodeId) : KeepsPlaces before after parts ranges where
  toKeepsClear := recast.toKeepsClear
  length_children x hx _ := by rw [recast.children x hx, length_map]
  getElem?_children x hx _ index child hchild hclear := by
    rw [recast.children x hx, getElem?_map, hchild, Option.map_some,
      recast.rename_of_notMem child (hclear.notMem forest)]
  order x hx := by
    have hsame : ∀ child, decide (before.Clear parts (rename child)) =
        decide (before.Clear parts child) := by
      intro child
      by_cases hchild : child ∈ parts
      · rw [decide_eq_false (recast.not_clear_rename hchild),
          decide_eq_false fun hclear ↦ hclear.notMem forest hchild]
      · rw [recast.rename_of_notMem child hchild]
    rw [recast.children x hx, filter_map]
    refine (congrArg (List.map rename) (filter_congr fun child _ ↦ hsame child)).trans ?_
    refine (map_congr_left fun child hchild ↦ recast.rename_of_notMem child ?_).trans
      (map_id _)
    exact (of_decide_eq_true (mem_filter.mp hchild).2).notMem forest

theorem hung_of_apart (hung : before.Hung others)
    (hapart : ∀ other ∈ others, ∀ part ∈ parts, before.Apart other part) : after.Hung others := by
  have hclear : ∀ other ∈ others, before.Clear parts other := fun other hother ↦
    ⟨hung.contains hother, fun part hpart ↦ (hapart other hother part hpart).1⟩
  refine ⟨fun other hother ↦ ?_, hung.pairwise_apart.imp_of_mem fun hx hy h ↦ ?_⟩
  · rw [recast.parent? other (hclear other hother)]
    exact hung.exists_parent? other hother
  · rw [Apart, recast.mem_subtree_iff forest (hclear _ hx),
      recast.mem_subtree_iff forest (hclear _ hy)]
    exact h

end Recast

/-! ### Replacing one set of parts after another -/

theorem Recast.again_rename (first : Recast before middle parts rename)
    (second : Recast middle after others again) (hothers : before.Hung others)
    (hpart : part ∈ parts) : again (rename part) = rename part :=
  second.rename_of_notMem _ fun hmem ↦ Nat.not_lt.mpr (first.rename_new part hpart)
    (index_lt_size (hothers.contains hmem))

section Trans

variable {other : NodeId} (first : Recast before middle parts rename)
  (second : Recast middle after others again) (forest : before.Forest)

include first forest

theorem Recast.rename_of_apart
    (hapart : ∀ other ∈ others, ∀ part ∈ parts, before.Apart other part) (hother : other ∈ others) :
    rename other = other :=
  first.rename_of_notMem other fun hmem ↦
    (hapart other hother other hmem).1 (forest.self_mem_subtree other)

variable (hothers : before.Hung others)
  (hapart : ∀ other ∈ others, ∀ part ∈ parts, before.Apart other part)

include hothers hapart

theorem Recast.apart_rename_of_later (hung : before.Hung parts) (hpart : part ∈ parts)
    (hother : other ∈ others) : middle.Apart (rename part) other :=
  first.apart_rename forest hung hpart
    ⟨hothers.contains hother, fun part hpart ↦ (hapart other hother part hpart).1⟩
    (hapart other hother part hpart).2

include second

theorem Recast.element_rename_of_later (hung : before.Hung parts) (hpart : part ∈ parts) :
    after.element (rename part) = middle.element (rename part) :=
  second.element_of_apart first.forest (first.contains_rename forest hung hpart)
    fun _ hother ↦ first.apart_rename_of_later forest hothers hapart hung hpart hother

/-- Two recastings compose, and so do their renamings. -/
theorem Recast.trans : Recast before after (parts ++ others) (again ∘ rename) := by
  have hlater {x : NodeId} (hx : before.Clear (parts ++ others) x) : middle.Clear others x := by
    obtain ⟨hparts, hx⟩ := clear_append_iff.mp hx
    refine ⟨first.contains x hparts, fun other hother ↦ ?_⟩
    rw [first.mem_subtree_iff forest hparts]
    exact hx.2 other hother
  have hearlier {x : NodeId} (hx : before.Clear (parts ++ others) x) : before.Clear parts x :=
    (clear_append_iff.mp hx).1
  have hrename : ∀ part ∈ parts, again (rename part) = rename part := fun part hpart ↦
    first.again_rename second hothers hpart
  have hother : ∀ other ∈ others, rename other = other := fun other hother ↦
    first.rename_of_apart forest hapart hother
  refine ⟨⟨second.forest, fun x hx ↦ ?_, fun x hx ↦ ?_, fun x hx ↦ ?_⟩, ?_, fun x hx ↦ ?_,
    fun x hx ↦ ?_, fun part hpart ↦ ?_, fun x hx ↦ ?_⟩
  · exact second.contains x (hlater hx)
  · exact (second.label x (hlater hx)).trans (first.label x (hearlier hx))
  · exact (second.parent? x (hlater hx)).trans (first.parent? x (hearlier hx))
  · exact Nat.le_trans first.size_le second.size_le
  · rw [second.children x (hlater hx), first.children x (hearlier hx), map_map]
  · rw [mem_append, not_or] at hx
    rw [Function.comp_apply, first.rename_of_notMem x hx.1, second.rename_of_notMem x hx.2]
  · rw [Function.comp_apply]
    rcases mem_append.mp hpart with hpart | hpart
    · rw [hrename part hpart]
      exact first.rename_new part hpart
    · rw [hother part hpart]
      exact Nat.le_trans first.size_le (second.rename_new part hpart)
  · rcases second.cover x hx with hclear | ⟨other, hmem, hx⟩
    · rcases first.cover x hclear.1 with hfirst | ⟨part, hpart, hbelow⟩
      · refine Or.inl (clear_append_iff.mpr ⟨hfirst, hfirst.1, fun other hmem ↦ ?_⟩)
        rw [← first.mem_subtree_iff forest hfirst]
        exact hclear.2 other hmem
      · refine Or.inr ⟨part, mem_append_left _ hpart, ?_⟩
        rw [Function.comp_apply, hrename part hpart, second.mem_subtree_iff first.forest hclear]
        exact hbelow
    · refine Or.inr ⟨other, mem_append_right _ hmem, ?_⟩
      rw [Function.comp_apply, hother other hmem]
      exact hx

end Trans

/-! ### Replacing parts by nodes like them -/

/-- When what stands in the places of the parts has the same elements, the clear nodes have the
elements that they had. -/
theorem KeepsClear.element_eq (keeps : KeepsClear before after parts) (forest : before.Forest)
    (hchildren : ∀ x, before.Clear parts x → after.children x = (before.children x).map rename)
    (hrename : ∀ x, before.Clear parts x → rename x = x)
    (hparts : ∀ part ∈ parts, after.element (rename part) = before.element part)
    (element : Element) {x : NodeId} (helement : before.element x = element)
    (hx : before.Clear parts x) : after.element x = before.element x := by
  rw [keeps.forest.element_eq, forest.element_eq, keeps.label x hx, hchildren x hx, map_map]
  refine congrArg (Tree.node _) (map_congr_left fun child hchild ↦ ?_)
  rw [Function.comp_apply]
  by_cases hpart : child ∈ parts
  · exact hparts child hpart
  · have hsize : sizeOf (before.element child) < sizeOf element := by
      rw [← helement, forest.element_eq x, Tree.node.sizeOf_spec]
      have hmem := sizeOf_lt_of_mem (mem_map_of_mem (f := before.element) hchild)
      omega
    have hclear := hx.child forest hchild hpart
    rw [hrename child hclear]
    exact KeepsClear.element_eq keeps forest hchildren hrename hparts (before.element child) rfl
      hclear
termination_by sizeOf element

end LoopDirectives.Document
