import LoopDirectives.Proofs.Document.Deleting
import LoopDirectives.Proofs.Document.Planting

/-!
# Edits within a scope

A scope says which nodes of a document may be touched. A node outside it can at most get or lose
nodes that are inside. `Scope.Step` lists the edits that keep to a scope, and `Scope.Steps` is a run
of them. A document guarded by a scope (`Scope.Guards`) stays so along a run (`Steps.guards`), and
every live node outside stays alive with its label and its parent and keeps its children outside in
front of those inside (`Steps.spares`).
-/

namespace LoopDirectives.Document

open List

/-- What may be touched by an edit. -/
structure Scope where
  /-- The nodes that may be changed, moved and deleted. -/
  inside : NodeId → Prop
  /-- The nodes outside that nodes inside may hang below. -/
  holder : NodeId → Prop
  /-- The nodes outside that get new nodes, and nothing else, at the end of their children. -/
  ledger : NodeId → Prop
  /-- The number of identities handed out when the scope is laid down. -/
  size : Nat
  inside_of_new : ∀ x : NodeId, size ≤ x.index → inside x

namespace Scope

variable {scope : Scope} {doc before middle after : Document}
  {id parent anchor x upper lower new : NodeId} {kept ids holders nodes fixed : List NodeId}
  {position : Nat}

/-- Whether a node inside the scope may hang below another node. -/
def Admits (scope : Scope) (parent child : NodeId) : Prop :=
  scope.inside parent ∨ scope.holder parent ∨ scope.ledger parent ∧ scope.size ≤ child.index

/-- A list of children begins with the given nodes, all outside, and goes on inside the scope. -/
def Splits (scope : Scope) (kept children : List NodeId) : Prop :=
  (∀ x ∈ kept, ¬ scope.inside x) ∧ ∃ rest, children = kept ++ rest ∧ ∀ x ∈ rest, scope.inside x

/-- What a document is like as long as all edits keep to the scope. -/
structure Guards (scope : Scope) (doc : Document) : Prop where
  forest : doc.Forest
  size_le : scope.size ≤ doc.slots.size
  below : ∀ {parent child : NodeId}, doc.parent? child = some parent →
    scope.inside parent → scope.inside child
  above : ∀ {parent child : NodeId}, doc.parent? child = some parent →
    scope.inside child → scope.Admits parent child

/-- What edits that keep to the scope do not change. -/
structure Spares (scope : Scope) (before after : Document) : Prop where
  contains : ∀ x, before.contains x = true → ¬ scope.inside x → after.contains x = true
  label : ∀ x, before.contains x = true → ¬ scope.inside x → after.label x = before.label x
  parent? : ∀ x, before.contains x = true → ¬ scope.inside x → after.parent? x = before.parent? x
  children : ∀ x, before.contains x = true → ¬ scope.inside x → ∀ kept,
    scope.Splits kept (before.children x) → scope.Splits kept (after.children x)

inductive Step (scope : Scope) : Document → Document → Prop
  | plant (doc : Document) (element : Element) :
    Step scope doc (doc.plant none element).1
  | relabel (doc : Document) (id : NodeId) (change : Label → Label) (hid : scope.inside id) :
    Step scope doc (doc.relabel id change)
  | append (doc : Document) (parent id : NodeId) (hid : scope.inside id)
    (hparent : scope.Admits parent id) : Step scope doc (doc.append parent id)
  | insertBeside (doc : Document) (anchor id : NodeId) (offset : Nat)
    (hanchor : scope.inside anchor) (hnew : scope.size ≤ id.index) :
    Step scope doc (doc.insertBeside anchor id offset)
  | delete (doc : Document) (id : NodeId) (hid : scope.inside id) :
    Step scope doc (doc.delete id)

abbrev Steps (scope : Scope) : Document → Document → Prop :=
  Relation.ReflTransGen scope.Step

/-! ### Lists of children -/

section

variable {children : List NodeId} (hsplits : scope.Splits kept children)

include hsplits

theorem Splits.filter (hid : scope.inside id) : scope.Splits kept (children.filter (· ≠ id)) := by
  obtain ⟨hkept, rest, rfl, hrest⟩ := hsplits
  refine ⟨hkept, rest.filter (· ≠ id), ?_, fun x hx ↦ hrest x (mem_of_mem_filter hx)⟩
  have hne : ∀ x ∈ kept, decide (x ≠ id) := fun x hx ↦ by
    simpa using fun heq : x = id ↦ hkept x hx (heq ▸ hid)
  rw [filter_append, filter_eq_self.mpr hne]

theorem Splits.insert (hid : scope.inside id) (hposition : kept.length ≤ position) :
    scope.Splits kept (children.take position ++ id :: children.drop position) := by
  obtain ⟨hkept, rest, rfl, hrest⟩ := hsplits
  refine ⟨hkept, rest.take (position - kept.length) ++ id :: rest.drop (position - kept.length),
    ?_, ?_⟩
  · rw [take_append, take_of_length_le hposition, drop_append,
      drop_of_length_le hposition, nil_append, append_assoc]
  · intro x hx
    rcases mem_append.mp hx with htake | hdrop
    · exact hrest x (mem_of_mem_take htake)
    · rcases mem_cons.mp hdrop with rfl | hdrop
      · exact hid
      · exact hrest x (mem_of_mem_drop hdrop)

theorem Splits.length_le (hget : children[position]? = some x) (hx : scope.inside x) :
    kept.length ≤ position := by
  obtain ⟨hkept, rest, rfl, -⟩ := hsplits
  by_contra hlt
  rw [getElem?_append_left (Nat.not_le.mp hlt)] at hget
  exact hkept x (mem_of_getElem? hget) hx

end

/-! ### What one edit keeps -/

section

variable (guards : scope.Guards doc)

include guards

theorem Guards.inside_of_above (habove : doc.Above upper lower) (hupper : scope.inside upper) :
    scope.inside lower := by
  induction habove with
  | single hstep => exact guards.below hstep hupper
  | tail _ hstep ih => exact guards.below hstep ih

theorem Guards.inside_of_mem_subtree (hx : x ∈ doc.subtree id) (hid : scope.inside id) :
    scope.inside x := by
  rcases (guards.forest.mem_subtree_iff id x).mp hx with rfl | habove
  · exact hid
  · exact guards.inside_of_above habove hid

theorem Guards.inside_of_mem_children (hx : x ∈ doc.children id) (hid : scope.inside id) :
    scope.inside x :=
  guards.below (guards.forest.parent?_of_mem hx) hid

theorem Guards.plant (element : Element) : scope.Guards (doc.plant none element).1 := by
  have hplanted := guards.forest.planted_plant element
  have hnew {y : NodeId} (hy : doc.slots.size ≤ y.index) : scope.inside y :=
    scope.inside_of_new y (Nat.le_trans guards.size_le hy)
  refine ⟨guards.forest.plant element, Nat.le_trans guards.size_le hplanted.size_le, ?_, ?_⟩
  · intro parent child hparent hinside
    rcases hplanted.parent?_cases hparent with ⟨-, hold⟩ | ⟨-, hnone⟩ | ⟨hle, hlt⟩
    · exact guards.below hold hinside
    · cases hnone
    · exact hnew (Nat.le_trans hle (Nat.le_of_lt hlt))
  · intro parent child hparent hinside
    rcases hplanted.parent?_cases hparent with ⟨-, hold⟩ | ⟨-, hnone⟩ | ⟨hle, -⟩
    · exact guards.above hold hinside
    · cases hnone
    · exact Or.inl (hnew hle)

theorem Guards.relabel (id : NodeId) (change : Label → Label) :
    scope.Guards (doc.relabel id change) := by
  refine ⟨guards.forest.relabel id change, ?_, ?_, ?_⟩
  · rw [size_relabel]
    exact guards.size_le
  · intro parent child hparent
    rw [parent?_relabel] at hparent
    exact guards.below hparent
  · intro parent child hparent
    rw [parent?_relabel] at hparent
    exact guards.above hparent

end

theorem Guards.moved (guards : scope.Guards before) {position : Nat}
    (moved : Moved before after id parent position) (hid : scope.inside id)
    (hparent : scope.Admits parent id) : scope.Guards after := by
  refine ⟨moved.forest guards.forest, moved.size_eq ▸ guards.size_le, ?_, ?_⟩
  · intro upper lower hupper hinside
    rw [moved.parent?_eq] at hupper
    split at hupper
    · next heq => exact heq ▸ hid
    · exact guards.below hupper hinside
  · intro upper lower hupper hinside
    rw [moved.parent?_eq] at hupper
    split at hupper
    · next heq =>
      cases hupper
      exact heq ▸ hparent
    · exact guards.above hupper hinside

theorem Guards.delete (guards : scope.Guards doc) (id : NodeId) :
    scope.Guards (doc.delete id) := by
  refine ⟨guards.forest.delete id, ?_, ?_, ?_⟩
  · rw [size_delete]
    exact guards.size_le
  · intro parent child hparent
    exact guards.below (guards.forest.parent?_delete_eq_some_iff.mp hparent).1
  · intro parent child hparent
    exact guards.above (guards.forest.parent?_delete_eq_some_iff.mp hparent).1

theorem spares_plant (guards : scope.Guards doc) (element : Element) :
    scope.Spares doc (doc.plant none element).1 := by
  have hold {y : NodeId} (hy : doc.contains y) :=
    (guards.forest.planted_plant element).readings_old (index_lt_size hy)
  refine ⟨fun y hy _ ↦ (hold hy).1.trans hy, fun y hy _ ↦ (hold hy).2.1,
    fun y hy _ ↦ (hold hy).2.2.1, fun y hy _ kept hsplits ↦ ?_⟩
  rw [(hold hy).2.2.2]
  exact hsplits

theorem spares_relabel (doc : Document) (change : Label → Label) (hid : scope.inside id) :
    scope.Spares doc (doc.relabel id change) := by
  refine ⟨fun y hy _ ↦ ?_, fun y _ hout ↦ ?_, fun y _ _ ↦ ?_, fun y _ _ kept hsplits ↦ ?_⟩
  · rwa [contains_relabel]
  · exact label_relabel_of_ne _ _ _ fun heq ↦ hout (heq ▸ hid)
  · rw [parent?_relabel]
  · rwa [children_relabel]

theorem spares_moved (moved : Moved before after id parent position) (hid : scope.inside id)
    (hposition : ∀ kept, scope.Splits kept ((before.children parent).filter (· ≠ id)) →
      kept.length ≤ position) : scope.Spares before after := by
  refine ⟨fun y hy _ ↦ ?_, fun y _ _ ↦ moved.label_eq y, fun y _ hout ↦ ?_,
    fun y _ _ kept hsplits ↦ ?_⟩
  · rwa [moved.contains_eq]
  · exact moved.parent?_of_ne fun heq ↦ hout (heq ▸ hid)
  · have hfiltered := hsplits.filter hid
    by_cases heq : y = parent
    · subst heq
      rw [moved.children_parent]
      exact hfiltered.insert hid (hposition kept hfiltered)
    · rwa [moved.children_of_ne y heq]

theorem spares_delete (guards : scope.Guards doc) (hid : scope.inside id) :
    scope.Spares doc (doc.delete id) := by
  have hkeep {y : NodeId} (hout : ¬ scope.inside y) : y ∉ doc.subtree id := fun hy ↦
    hout (guards.inside_of_mem_subtree hy hid)
  refine ⟨fun y hy hout ↦ guards.forest.contains_delete_iff.mpr ⟨hy, hkeep hout⟩,
    fun y _ hout ↦ guards.forest.label_delete (hkeep hout),
    fun y _ hout ↦ guards.forest.parent?_delete (hkeep hout), fun y _ hout kept hsplits ↦ ?_⟩
  rw [guards.forest.children_delete (hkeep hout)]
  exact hsplits.filter hid

theorem Spares.refl (scope : Scope) (doc : Document) : scope.Spares doc doc :=
  ⟨fun _ hx _ ↦ hx, fun _ _ _ ↦ rfl, fun _ _ _ ↦ rfl, fun _ _ _ _ hsplits ↦ hsplits⟩

theorem Spares.trans (first : scope.Spares before middle) (second : scope.Spares middle after) :
    scope.Spares before after := by
  refine ⟨fun y hy hout ↦ ?_, fun y hy hout ↦ ?_, fun y hy hout ↦ ?_, fun y hy hout kept hk ↦ ?_⟩
  · exact second.contains y (first.contains y hy hout) hout
  · exact (second.label y (first.contains y hy hout) hout).trans (first.label y hy hout)
  · exact (second.parent? y (first.contains y hy hout) hout).trans (first.parent? y hy hout)
  · exact second.children y (first.contains y hy hout) hout kept (first.children y hy hout kept hk)

theorem Admits.of_new {child : NodeId} (hadmits : scope.Admits parent child)
    (hnew : scope.size ≤ x.index) : scope.Admits parent x :=
  hadmits.imp_right (Or.imp_right fun hledger ↦ ⟨hledger.1, hnew⟩)

theorem Step.guards_and_spares (guards : scope.Guards before) (step : scope.Step before after) :
    scope.Guards after ∧ scope.Spares before after := by
  cases step with
  | plant element => exact ⟨guards.plant element, spares_plant guards element⟩
  | relabel id change hid => exact ⟨guards.relabel id change, spares_relabel before change hid⟩
  | append parent id hid hparent =>
    rcases guards.forest.append_cases parent id with heq | hmoved
    · rw [heq]
      exact ⟨guards, Spares.refl scope before⟩
    · refine ⟨guards.moved hmoved hid hparent, spares_moved hmoved hid fun kept hsplits ↦ ?_⟩
      obtain ⟨-, rest, heq, -⟩ := hsplits
      rw [heq, length_append]
      exact Nat.le_add_right _ _
  | insertBeside anchor id offset hanchor hnew =>
    have hid := scope.inside_of_new id hnew
    rcases guards.forest.insertBeside_cases anchor id offset with
      heq | ⟨parent, position, hparent, -, hget, hmoved⟩
    · rw [heq]
      exact ⟨guards, Spares.refl scope before⟩
    · refine ⟨guards.moved hmoved hid ((guards.above hparent hanchor).of_new hnew),
        spares_moved hmoved hid fun kept hsplits ↦ ?_⟩
      exact Nat.le_add_right_of_le (hsplits.length_le hget hanchor)
  | delete id hid => exact ⟨guards.delete id, spares_delete guards hid⟩

/-! ### What a run keeps -/

theorem Step.forest (forest : before.Forest) (step : scope.Step before after) :
    after.Forest := by
  cases step with
  | plant element => exact forest.plant element
  | relabel id change => exact forest.relabel id change
  | append parent id => exact forest.append parent id
  | insertBeside anchor id offset => exact forest.insertBeside anchor id offset
  | delete id => exact forest.delete id

theorem Steps.forest (forest : before.Forest) (steps : scope.Steps before after) :
    after.Forest := by
  induction steps with
  | refl => exact forest
  | tail _ step ih => exact step.forest ih

theorem Steps.guards_and_spares (guards : scope.Guards before) (steps : scope.Steps before after) :
    scope.Guards after ∧ scope.Spares before after := by
  induction steps with
  | refl => exact ⟨guards, Spares.refl scope before⟩
  | tail _ step ih =>
    obtain ⟨hguards, hspares⟩ := step.guards_and_spares ih.1
    exact ⟨hguards, ih.2.trans hspares⟩

/-- A run of steps within a scope keeps what guards it. -/
theorem Steps.guards (guards : scope.Guards before) (steps : scope.Steps before after) :
    scope.Guards after :=
  (Steps.guards_and_spares guards steps).1

/-- A run of steps within a guarded scope spares everything outside. -/
theorem Steps.spares (guards : scope.Guards before) (steps : scope.Steps before after) :
    scope.Spares before after :=
  (Steps.guards_and_spares guards steps).2

theorem Guards.outside_of_parent? (guards : scope.Guards doc)
    (hparent : doc.parent? x = some parent) (hout : ¬ scope.inside x) :
    ¬ scope.inside parent :=
  fun hinside ↦ hout (guards.below hparent hinside)

section

variable (spares : scope.Spares before after)

include spares

theorem Spares.children_eq (hbefore : scope.Guards before) (hafter : scope.Guards after)
    (hlive : before.contains x) (hout : ¬ scope.inside x) (hholder : ¬ scope.holder x)
    (hledger : ¬ scope.ledger x) : after.children x = before.children x := by
  have hnone {doc : Document} (guards : scope.Guards doc) :
      ∀ child ∈ doc.children x, ¬ scope.inside child := by
    intro child hchild hinside
    rcases guards.above (guards.forest.parent?_of_mem hchild) hinside with h | h | h
    · exact hout h
    · exact hholder h
    · exact hledger h.1
  obtain ⟨-, rest, hrest, hall⟩ := spares.children x hlive hout (before.children x)
    ⟨hnone hbefore, [], by simp, by simp⟩
  cases rest with
  | nil => rw [hrest, append_nil]
  | cons first others =>
    have hfirst : first ∈ after.children x := by
      rw [hrest]
      exact mem_append_right _ (mem_cons_self ..)
    exact absurd (hall first (mem_cons_self ..)) (hnone hafter first hfirst)

theorem Spares.childOf?_eq_some (forest : before.Forest) {wanted : Kind}
    (h : before.childOf? id wanted = some x) (hid : ¬ scope.inside id)
    (hchildren : ∀ child ∈ before.children id, ¬ scope.inside child) :
    after.childOf? id wanted = some x := by
  have hlive := contains_of_mem_children (mem_of_find?_eq_some h)
  obtain ⟨-, rest, hrest, -⟩ := spares.children id hlive hid (before.children id)
    ⟨hchildren, [], by simp, by simp⟩
  have hkinds : ∀ child ∈ before.children id,
      after.isKind child wanted = before.isKind child wanted := by
    intro child hchild
    rw [isKind, isKind, kind, kind,
      spares.label child (forest.contains_child hchild) (hchildren child hchild)]
  rw [childOf?, hrest, find?_append, find?_congr hkinds, ← childOf?, h, Option.some_or]

section

variable (guards : scope.Guards before) (hlive : before.contains lower)
  (hout : ¬ scope.inside lower)

include guards hlive hout

theorem Spares.above : after.Above upper lower ↔ before.Above upper lower :=
  above_iff_of_parent?_eq
    (fun x (h : before.contains x ∧ ¬ scope.inside x) ↦ spares.parent? x h.1 h.2)
    (fun _ _ h hparent ↦
      ⟨guards.forest.contains_parent hparent, guards.outside_of_parent? hparent h.2⟩)
    ⟨hlive, hout⟩

theorem Spares.not_above_of_new (hnew : before.slots.size ≤ new.index) :
    new ≠ lower ∧ ¬ after.Above new lower := by
  have hstale := contains_eq_false_of_size_le hnew
  refine ⟨fun heq ↦ by simp [heq, hlive] at hstale, fun habove ↦ ?_⟩
  rw [spares.above guards hlive hout] at habove
  simp [guards.forest.contains_above habove] at hstale

end

theorem Spares.mem_subtree_iff (hbefore : scope.Guards before) (hafter : scope.Guards after)
    (hlive : before.contains lower) (hout : ¬ scope.inside lower) :
    lower ∈ after.subtree upper ↔ lower ∈ before.subtree upper := by
  rw [hafter.forest.mem_subtree_iff, hbefore.forest.mem_subtree_iff,
    spares.above hbefore hlive hout]

end

/-! ### Edits made of several -/

theorem steps_create (scope : Scope) (doc : Document) (label : Label) :
    scope.Steps doc (doc.create label).1 := by
  change scope.Steps doc (doc.push { label })
  rw [push_eq_plant]
  exact .single (.plant doc _)

theorem steps_copyFrom? (scope : Scope) {source copied : Document} {copy : NodeId}
    (h : doc.copyFrom? source id = some (copied, copy)) : scope.Steps doc copied := by
  rw [(copyFrom?_eq_some h).2.1]
  exact .single (.plant doc _)

theorem steps_deleteAll (doc : Document) (hids : ∀ id ∈ ids, scope.inside id) :
    scope.Steps doc (doc.deleteAll ids) := by
  induction ids generalizing doc with
  | nil => exact .refl
  | cons first rest ih =>
    exact .head (.delete doc first (hids first (mem_cons_self ..)))
      (ih (doc.delete first) fun id hid ↦ hids id (mem_cons_of_mem _ hid))

theorem steps_appendAll (doc : Document) (hids : ∀ id ∈ ids, scope.inside id)
    (hparent : ∀ id ∈ ids, scope.Admits parent id) :
    scope.Steps doc (doc.appendAll parent ids) := by
  induction ids generalizing doc with
  | nil => exact .refl
  | cons first rest ih =>
    exact .head
      (.append doc parent first (hids first (mem_cons_self ..))
        (hparent first (mem_cons_self ..)))
      (ih (doc.append parent first) (fun id hid ↦ hids id (mem_cons_of_mem _ hid))
        fun id hid ↦ hparent id (mem_cons_of_mem _ hid))

theorem steps_replace (doc : Document) {old : NodeId} (hold : scope.inside old)
    (hnew : scope.size ≤ new.index) : scope.Steps doc (doc.replace old new) := by
  have hmove : scope.Steps doc (doc.insertBefore old new) :=
    .single (.insertBeside doc old new 0 hold hnew)
  unfold Document.replace
  dsimp only
  split
  · exact hmove.tail (.delete _ old hold)
  · exact hmove

/-! ### Laying down a scope -/

/-- The scope of the nodes below the roots, the roots included, and of all new nodes. -/
def below (doc : Document) (roots holders ledgers : List NodeId) : Scope where
  inside x := doc.slots.size ≤ x.index ∨ x ∈ roots.flatMap doc.subtree
  holder x := x ∈ holders
  ledger x := x ∈ ledgers
  size := doc.slots.size
  inside_of_new _ hx := Or.inl hx

theorem inside_below_iff (doc : Document) (roots holders ledgers : List NodeId)
    (hlive : doc.contains x) :
    (below doc roots holders ledgers).inside x ↔
      ∃ root ∈ roots, x ∈ doc.subtree root := by
  have hlt := index_lt_size hlive
  simp only [below, mem_flatMap]
  exact or_iff_right (Nat.not_le.mpr hlt)

theorem guards_below (forest : doc.Forest) {roots : List NodeId} (ledgers : List NodeId)
    (hroots : ∀ root ∈ roots, ∀ parent, doc.parent? root = some parent → parent ∈ holders) :
    (below doc roots holders ledgers).Guards doc := by
  refine ⟨forest, Nat.le_refl _, ?_, ?_⟩
  · intro parent child hparent hinside
    obtain ⟨root, hroot, hmem⟩ :=
      (inside_below_iff _ _ _ _ (forest.contains_parent hparent)).mp hinside
    refine (inside_below_iff _ _ _ _ (contains_of_parent? hparent)).mpr ⟨root, hroot, ?_⟩
    exact (forest.mem_subtree_of_parent? hparent).mpr (Or.inr hmem)
  · intro parent child hparent hinside
    obtain ⟨root, hroot, hmem⟩ :=
      (inside_below_iff _ _ _ _ (contains_of_parent? hparent)).mp hinside
    rcases (forest.mem_subtree_of_parent? hparent).mp hmem with rfl | habove
    · exact Or.inr (Or.inl (hroots child hroot parent hparent))
    · exact Or.inl ((inside_below_iff _ _ _ _ (forest.contains_parent hparent)).mpr
        ⟨root, hroot, habove⟩)

/-- The scope of what is below some nodes, which hang where they hang now or below the holders. -/
def subtrees (doc : Document) (nodes holders : List NodeId) : Scope :=
  below doc nodes (holders ++ nodes.filterMap doc.parent?) []

theorem guards_subtrees (forest : doc.Forest) (nodes holders : List NodeId) :
    (subtrees doc nodes holders).Guards doc :=
  guards_below forest [] fun root hroot _ hparent ↦
    mem_append_right _ (mem_filterMap.mpr ⟨root, hroot, hparent⟩)

theorem inside_subtrees_iff (hlive : doc.contains x) :
    (subtrees doc nodes holders).inside x ↔ ∃ node ∈ nodes, x ∈ doc.subtree node :=
  inside_below_iff doc _ _ _ hlive

theorem inside_subtrees (forest : doc.Forest) (hx : x ∈ nodes)
    (hlive : doc.contains x) : (subtrees doc nodes holders).inside x :=
  (inside_subtrees_iff hlive).mpr ⟨x, hx, forest.self_mem_subtree x⟩

/-- The scope of everything but some fixed nodes. -/
def around (doc : Document) (fixed holders : List NodeId) : Scope where
  inside x := doc.slots.size ≤ x.index ∨ x ∉ fixed
  holder x := x ∈ holders
  ledger _ := False
  size := doc.slots.size
  inside_of_new _ hx := Or.inl hx

theorem inside_around_iff (hlive : doc.contains x) :
    (around doc fixed holders).inside x ↔ x ∉ fixed :=
  or_iff_right (Nat.not_le.mpr (index_lt_size hlive))

/-- A forest is guarded by the scope around fixed nodes when their parents are fixed, and so are
the children of those that hold nothing else. -/
theorem guards_around (forest : doc.Forest)
    (hparents : ∀ x ∈ fixed, ∀ parent, doc.parent? x = some parent → parent ∈ fixed)
    (hchildren : ∀ x ∈ fixed, x ∉ holders → ∀ child ∈ doc.children x, child ∈ fixed) :
    (around doc fixed holders).Guards doc := by
  refine ⟨forest, Nat.le_refl _, fun hparent hinside ↦ ?_, fun hparent hinside ↦ ?_⟩
  · rw [inside_around_iff (forest.contains_parent hparent)] at hinside
    rw [inside_around_iff (contains_of_parent? hparent)]
    exact fun hchild ↦ hinside (hparents _ hchild _ hparent)
  · rw [inside_around_iff (contains_of_parent? hparent)] at hinside
    refine (Classical.em _).symm.imp (fun hholder ↦ ?_) Or.inl
    rw [inside_around_iff (forest.contains_parent hparent)]
    exact fun hmem ↦ hinside (hchildren _ hmem hholder _ (forest.mem_children hparent))

end Scope

end LoopDirectives.Document
