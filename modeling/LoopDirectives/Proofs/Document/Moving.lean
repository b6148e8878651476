import LoopDirectives.Proofs.Document.Forest

/-!
# Moving nodes within a forest

Every move takes a node away from its parent and puts it among the children of another node, or does
nothing at all. `Moved` says once what a move shows afterwards; `append`, `prepend` and
`insertBeside` are moves to different positions, and a move keeps a forest a forest
(`Moved.forest`).
-/

namespace LoopDirectives.Document

open List

variable {doc before after : Document} {id parent anchor : NodeId} {offset : Nat}
  {ids : List NodeId}

/-! ### Taking a node away from its parent -/

section Detach

variable (doc : Document) (id : NodeId)

@[simp] theorem size_detach : (doc.detach id).slots.size = doc.slots.size := by
  unfold detach
  split <;> simp

@[simp] theorem contains_detach (x : NodeId) :
    (doc.detach id).contains x = doc.contains x := by
  unfold detach
  split <;> simp

@[simp] theorem label_detach (x : NodeId) :
    (doc.detach id).label x = doc.label x := by
  unfold detach
  split
  · rfl
  · rw [label_modify_parent?, label_modify_children]

theorem parent?_detach (x : NodeId) :
    (doc.detach id).parent? x = if x = id then none else doc.parent? x := by
  unfold detach
  split
  · next hparent =>
    split
    · next hx => rw [hx, hparent]
    · rfl
  · next parent hparent =>
    by_cases hx : x = id
    · subst hx
      simp only [parent?, node?_modify, if_true]
      cases doc.node? x <;> simp
    · rw [if_neg hx, parent?_modify_of_ne _ _ _ hx, parent?_modify_children]

theorem detach_of_parent?_eq_none (h : doc.parent? id = none) :
    doc.detach id = doc := by
  simp [detach, h]

theorem detach_of_stale (h : doc.contains id = false) : doc.detach id = doc :=
  detach_of_parent?_eq_none doc id (parent?_of_stale h)

end Detach

theorem Forest.children_detach (forest : doc.Forest) (id x : NodeId) :
    (doc.detach id).children x = (doc.children x).filter (· ≠ id) := by
  unfold detach
  split
  · next hparent =>
    refine (filter_eq_self.mpr fun child hchild ↦ decide_eq_true ?_).symm
    rintro rfl
    exact absurd (forest.parent?_of_mem hchild) (by simp [hparent])
  · next parent hparent =>
    rw [children_modify_parent?]
    by_cases hx : x = parent
    · subst hx
      obtain ⟨node, hnode⟩ := contains_iff.mp (forest.contains_parent hparent)
      simp [children, node?_modify, hnode]
    · have hnot : id ∉ doc.children x := fun hmem ↦
        hx (Option.some.inj ((forest.parent?_of_mem hmem).symm.trans hparent))
      rw [filter_eq_self.mpr fun child hchild ↦ decide_eq_true ?_]
      · exact children_modify_of_ne _ _ _ hx
      · rintro rfl
        exact hnot hchild

theorem Forest.detach (forest : doc.Forest) (id : NodeId) : (doc.detach id).Forest where
  mem_children_iff parent child := by
    rw [forest.children_detach, mem_filter, forest.mem_children_iff, parent?_detach]
    by_cases h : child = id <;> simp [h]
  nodup_children parent := by
    rw [forest.children_detach]
    exact (forest.nodup_children parent).filter _
  acyclic x hx := by
    refine forest.acyclic x (hx.mono fun child parent hstep ↦ ?_)
    rw [parent?_detach] at hstep
    split at hstep
    · cases hstep
    · exact hstep

/-! ### Moves -/

theorem canAttach_iff : doc.canAttach id parent ↔
    doc.contains id ∧ doc.contains parent ∧ id ≠ parent ∧
      doc.isAncestor id parent = false := by
  simp [canAttach, and_assoc]

/-- What a document shows after a node has moved to a position among the children of `parent`. -/
structure Moved (before after : Document) (id parent : NodeId) (position : Nat) : Prop where
  canAttach : before.canAttach id parent = true
  size_eq : after.slots.size = before.slots.size
  contains_eq : ∀ x, after.contains x = before.contains x
  label_eq : ∀ x, after.label x = before.label x
  parent?_eq : ∀ x, after.parent? x = if x = id then some parent else before.parent? x
  children_of_ne : ∀ x, x ≠ parent → after.children x = (before.children x).filter (· ≠ id)
  children_parent : after.children parent =
    ((before.children parent).filter (· ≠ id)).take position ++
      id :: ((before.children parent).filter (· ≠ id)).drop position

theorem Forest.moved_attachAt (forest : doc.Forest)
    (hattach : doc.canAttach id parent) (position : Nat) :
    Moved doc ((doc.detach id).attachAt parent position id) id parent position := by
  obtain ⟨hid, hparent, hne, -⟩ := canAttach_iff.mp hattach
  have hkept (x : NodeId) := forest.children_detach id x
  set detached := doc.detach id with hdetached
  refine ⟨hattach, ?_, fun x ↦ ?_, fun x ↦ ?_, fun x ↦ ?_, fun x hx ↦ ?_, ?_⟩
  · simp [attachAt, hdetached]
  · simp [attachAt, hdetached]
  · rw [attachAt, label_modify_parent?, label_modify_children, hdetached, label_detach]
  · by_cases hx : x = id
    · subst hx
      obtain ⟨node, hnode⟩ := contains_iff.mp ((contains_detach doc x x).trans hid)
      simp [attachAt, parent?, node?_modify, hne, hdetached, hnode]
    · have hother : detached.parent? x = doc.parent? x := by
        rw [hdetached, parent?_detach, if_neg hx]
      rw [if_neg hx, ← hother, attachAt, parent?_modify_of_ne _ _ _ hx, parent?_modify_children]
  · rw [attachAt, children_modify_parent?, ← hkept, children_modify_of_ne _ _ _ hx]
  · rw [attachAt, children_modify_parent?, ← hkept]
    obtain ⟨node, hnode⟩ := contains_iff.mp ((contains_detach doc id parent).trans hparent)
    simp [children, node?_modify, hdetached, hnode]

namespace Moved

variable {position : Nat} {x : NodeId} (moved : Moved before after id parent position)

include moved

theorem parent?_self : after.parent? id = some parent := by
  rw [moved.parent?_eq, if_pos rfl]

theorem parent?_of_ne (h : x ≠ id) : after.parent? x = before.parent? x := by
  rw [moved.parent?_eq, if_neg h]

theorem mem_children_parent_iff (x : NodeId) :
    x ∈ after.children parent ↔ x = id ∨ x ∈ before.children parent ∧ x ≠ id := by
  rw [moved.children_parent, mem_append, mem_cons, or_left_comm, ← mem_append,
    take_append_drop, mem_filter, decide_eq_true_eq]

/-- Whatever is above a node after the move was above it before, or the chain goes through the
moved node: the first is above the new place and the second below the moved node. -/
theorem above_cases {upper lower : NodeId} (h : after.Above upper lower) :
    before.Above upper lower ∨
      (upper = parent ∨ before.Above upper parent) ∧ (lower = id ∨ before.Above id lower) := by
  have hparent (x holder : NodeId) (hstep : after.parent? x = some holder) :
      before.parent? x = some holder ∨ x ∈ [id] ∧ holder = parent := by
    rw [moved.parent?_eq] at hstep
    split at hstep
    · next hx => exact Or.inr ⟨mem_singleton.mpr hx, (Option.some.inj hstep).symm⟩
    · exact Or.inl hstep
  simpa using above_cases_of_parent?_eq hparent h

theorem not_above_parent (hparent : ¬ before.Above id parent) (hx : ¬ before.Above x parent) :
    ¬ after.Above x parent := by
  intro hafter
  rcases moved.above_cases hafter with hbefore | ⟨-, heq | hbelow⟩
  · exact hx hbefore
  · exact (canAttach_iff.mp moved.canAttach).2.2.1 heq.symm
  · exact hparent hbelow

/-- A move in a forest gives a forest. -/
theorem forest (hforest : before.Forest) : after.Forest := by
  obtain ⟨-, -, hne, hancestor⟩ := canAttach_iff.mp moved.canAttach
  have hparent : ¬ before.Above id parent := by
    rw [← hforest.isAncestor_iff, hancestor]
    exact Bool.false_ne_true
  refine ⟨fun holder child ↦ ?_, fun holder ↦ ?_, fun x hx ↦ ?_⟩
  · by_cases hholder : holder = parent
    · subst hholder
      rw [moved.mem_children_parent_iff, moved.parent?_eq, hforest.mem_children_iff]
      by_cases hchild : child = id <;> simp [hchild]
    · rw [moved.children_of_ne holder hholder, moved.parent?_eq, mem_filter,
        hforest.mem_children_iff]
      by_cases hchild : child = id
      · simp [hchild, Ne.symm hholder]
      · simp [hchild]
  · by_cases hholder : holder = parent
    · subst hholder
      have hrest : ((before.children holder).filter (· ≠ id)).Nodup :=
        (hforest.nodup_children holder).filter _
      rw [moved.children_parent]
      refine (perm_middle.nodup_iff).mpr ?_
      rw [take_append_drop]
      refine nodup_cons.mpr ⟨fun hmem ↦ ?_, hrest⟩
      exact absurd (mem_filter.mp hmem).2 (by simp)
    · rw [moved.children_of_ne holder hholder]
      exact (hforest.nodup_children holder).filter _
  · rcases moved.above_cases hx with habove | ⟨rfl | hupper, hlower | hlower⟩
    · exact hforest.acyclic x habove
    · exact hne hlower.symm
    · exact hparent hlower
    · exact hparent (hlower ▸ hupper)
    · exact hparent (hlower.trans hupper)

theorem mem_subtree_self (hforest : before.Forest) (hx : x ∈ before.subtree id) :
    x ∈ after.subtree id := by
  have hafter := moved.forest hforest
  rcases (hforest.mem_subtree_iff id x).mp hx with rfl | habove
  · exact hafter.self_mem_subtree x
  have hstep {y holder : NodeId} (hbelow : before.Above id y)
      (h : before.parent? y = some holder) : after.parent? y = some holder :=
    (moved.parent?_of_ne (hforest.ne_of_above hbelow).symm).trans h
  refine hafter.mem_subtree_of_above ?_
  induction habove with
  | single h => exact above_of_parent? (hstep (above_of_parent? h) h)
  | tail hupper h ih =>
    exact (ih (hforest.mem_subtree_of_above hupper)).trans
      (above_of_parent? (hstep (hupper.tail h) h))

end Moved

/-! ### The moves of a document -/

theorem append_of_not_canAttach (h : doc.canAttach id parent = false) :
    doc.append parent id = doc := by
  simp [append, h]

theorem prepend_of_not_canAttach (h : doc.canAttach id parent = false) :
    doc.prepend parent id = doc := by
  simp [prepend, h]

theorem insertBeside_of_parent?_eq_none (h : doc.parent? anchor = none) :
    doc.insertBeside anchor id offset = doc := by
  simp [insertBeside, h]

theorem insertBeside_of_not_canAttach (hanchor : doc.parent? anchor = some parent)
    (h : doc.canAttach id parent = false) :
    doc.insertBeside anchor id offset = doc := by
  simp [insertBeside, hanchor, h]

theorem Forest.moved_append (forest : doc.Forest) (h : doc.canAttach id parent) :
    Moved doc (doc.append parent id) id parent
      ((doc.children parent).filter (· ≠ id)).length := by
  have hmoved := forest.moved_attachAt h ((doc.detach id).children parent).length
  rw [forest.children_detach] at hmoved
  simpa only [append, h, if_true, forest.children_detach] using hmoved

theorem Forest.moved_prepend (forest : doc.Forest) (h : doc.canAttach id parent) :
    Moved doc (doc.prepend parent id) id parent 0 := by
  simpa only [prepend, h, if_true] using forest.moved_attachAt h 0

theorem exists_idxOf?_of_mem (h : id ∈ ids) : ∃ position, ids.idxOf? id = some position := by
  rw [← Option.isSome_iff_exists, Option.isSome_iff_ne_none, ne_eq, idxOf?_eq_none_iff]
  exact not_not_intro h

theorem getElem?_of_idxOf? {position : Nat} (h : ids.idxOf? id = some position) :
    ids[position]? = some id := by
  obtain ⟨hlt, hget, -⟩ := idxOf?_eq_some_iff.mp h
  rw [getElem?_eq_getElem hlt, hget]

/-- A node that can move beside an anchor gets the position of the anchor among the others, or the
one so many places further on. -/
theorem Forest.moved_insertBeside (forest : doc.Forest)
    (hanchor : doc.parent? anchor = some parent) (hne : anchor ≠ id)
    (h : doc.canAttach id parent) :
    ∃ position, ((doc.children parent).filter (· ≠ id))[position]? = some anchor ∧
      Moved doc (doc.insertBeside anchor id offset) id parent (position + offset) := by
  have hmem : anchor ∈ (doc.children parent).filter (· ≠ id) :=
    mem_filter.mpr ⟨forest.mem_children hanchor, decide_eq_true hne⟩
  obtain ⟨position, hposition⟩ := exists_idxOf?_of_mem hmem
  have hdetached : (doc.detach id).position? anchor = some position := by
    simpa only [position?, parent?_detach, hne, if_false, hanchor, Option.bind_eq_bind,
      Option.bind_some, forest.children_detach] using hposition
  refine ⟨position, getElem?_of_idxOf? hposition, ?_⟩
  simpa [insertBeside, hanchor, hne, h, hdetached] using forest.moved_attachAt h _

theorem Forest.insertBeside_cases (forest : doc.Forest) (anchor id : NodeId) (offset : Nat) :
    doc.insertBeside anchor id offset = doc ∨
      ∃ parent position, doc.parent? anchor = some parent ∧ anchor ≠ id ∧
        ((doc.children parent).filter (· ≠ id))[position]? = some anchor ∧
        Moved doc (doc.insertBeside anchor id offset) id parent (position + offset) := by
  cases hanchor : doc.parent? anchor with
  | none => exact Or.inl (insertBeside_of_parent?_eq_none hanchor)
  | some parent =>
    by_cases hne : anchor = id
    · subst hne
      left
      simp [Document.insertBeside, hanchor]
    · cases hattach : doc.canAttach id parent with
      | false => exact Or.inl (insertBeside_of_not_canAttach hanchor hattach)
      | true =>
        obtain ⟨position, hposition, hmoved⟩ := forest.moved_insertBeside hanchor hne hattach
        exact Or.inr ⟨parent, position, rfl, hne, hposition, hmoved⟩

namespace Forest

variable (forest : doc.Forest)

include forest

theorem append_cases (parent id : NodeId) : doc.append parent id = doc ∨
    Moved doc (doc.append parent id) id parent
      ((doc.children parent).filter (· ≠ id)).length := by
  cases hattach : doc.canAttach id parent with
  | false => exact Or.inl (append_of_not_canAttach hattach)
  | true => exact Or.inr (forest.moved_append hattach)

/-- Appending leaves a forest, also where the nodes do not allow it and nothing happens. -/
theorem append (parent id : NodeId) : (doc.append parent id).Forest := by
  rcases forest.append_cases parent id with heq | hmoved
  · rwa [heq]
  · exact hmoved.forest forest

/-- As for `append`. -/
theorem prepend (parent id : NodeId) : (doc.prepend parent id).Forest := by
  cases hattach : doc.canAttach id parent with
  | false =>
    rw [prepend_of_not_canAttach hattach]
    exact forest
  | true => exact (forest.moved_prepend hattach).forest forest

/-- As for `append`. -/
theorem insertBeside (anchor id : NodeId) (offset : Nat) :
    (doc.insertBeside anchor id offset).Forest := by
  rcases forest.insertBeside_cases anchor id offset with heq | ⟨_, _, -, -, -, hmoved⟩
  · rw [heq]
    exact forest
  · exact hmoved.forest forest

theorem relabel (id : NodeId) (change : Label → Label) : (doc.relabel id change).Forest where
  mem_children_iff parent child := by
    rw [children_relabel, parent?_relabel]
    exact forest.mem_children_iff parent child
  nodup_children parent := by
    rw [children_relabel]
    exact forest.nodup_children parent
  acyclic x h := by
    refine forest.acyclic x (h.mono fun child parent hstep ↦ ?_)
    rwa [parent?_relabel] at hstep

end Forest

/-! ### Cutting lists of children -/

theorem exists_split_of_getElem? {position : Nat} (h : ids[position]? = some anchor) :
    ∃ first rest, ids = first ++ anchor :: rest ∧ first.length = position := by
  obtain ⟨hlt, hget⟩ := List.getElem?_eq_some_iff.mp h
  refine ⟨ids.take position, ids.drop (position + 1), ?_,
    length_take_of_le (Nat.le_of_lt hlt)⟩
  rw [← hget, ← drop_eq_getElem_cons hlt, take_append_drop]

theorem filter_ne_of_nodup {first rest : List NodeId} (h : (first ++ id :: rest).Nodup) :
    (first ++ id :: rest).filter (· ≠ id) = first ++ rest := by
  rw [perm_middle.nodup_iff, nodup_cons] at h
  have hne : ∀ x ∈ first ++ rest, decide (x ≠ id) :=
    fun x hx ↦ decide_eq_true fun heq ↦ h.1 (heq ▸ hx)
  rw [filter_append, filter_cons_of_neg (by simp), ← filter_append,
    filter_eq_self.mpr hne]

theorem append_push_push (doc : Document) (label inner : Label) :
    ((doc.push { label }).push { label := inner }).append doc.fresh
        (doc.push { label }).fresh =
      (doc.plant none (.node label [.node inner []])).1 := by
  have hnode (x : NodeId) : ((doc.push { label }).push { label := inner }).node? x =
      if x = (doc.push { label }).fresh then some { label := inner }
      else if x = doc.fresh then some { label } else doc.node? x := by
    rw [node?_push, node?_push]
  have hne : doc.fresh ≠ (doc.push { label }).fresh := by simp [fresh, push]
  have hattach : ((doc.push { label }).push { label := inner }).canAttach
      (doc.push { label }).fresh doc.fresh := by
    have hsize : ((doc.push { label }).push { label := inner }).slots.size =
        doc.slots.size + 2 := by simp [push]
    simp [canAttach, contains, isAncestor, ancestors, ancestorsWithin, parent?, hnode, hne,
      hne.symm, hsize]
  simp only [append, hattach, if_true]
  rw [detach_of_parent?_eq_none _ _ (by simp [parent?, hnode])]
  refine ext_node? (by simp [attachAt, plant, plantAll, push]) fun x ↦ ?_
  simp only [attachAt, plant, plantAll, node?_modify, hnode, node?_push, children, hne]
  by_cases hfirst : x = doc.fresh <;>
    by_cases hsecond : x = (doc.push { label }).fresh <;> simp_all

end LoopDirectives.Document
