import LoopDirectives.Proofs.Document.Deleting
import LoopDirectives.Proofs.Document.Planting

/-!
# Nodes that hang nowhere

`RootedAt document roots` says that every live node that hangs nowhere is one of the roots, so that
every live node is one of them or below one (`Forest.eq_or_above_of_rootedAt`). Copying and
creating add one root; moving a root below another node, or deleting it, takes it away. No other
edit adds a root.
-/

namespace LoopDirectives.Document

open List

variable {doc before after : Document} {roots : List NodeId} {id parent x : NodeId}

def RootedAt (doc : Document) (roots : List NodeId) : Prop :=
  ∀ x, doc.contains x = true → doc.parent? x = none → x ∈ roots

namespace RootedAt

theorem mono {others : List NodeId} (rooted : doc.RootedAt roots)
    (hsubset : ∀ x ∈ roots, x ∈ others) : doc.RootedAt others :=
  fun x hlive hparent ↦ hsubset x (rooted x hlive hparent)

theorem weaken (rooted : doc.RootedAt roots) (id : NodeId) :
    doc.RootedAt (id :: roots) :=
  rooted.mono fun _ ↦ mem_cons_of_mem id

theorem of_stale (rooted : doc.RootedAt (id :: roots)) (hid : doc.contains id = false) :
    doc.RootedAt roots := by
  intro x hlive hparent
  refine mem_of_ne_of_mem ?_ (rooted x hlive hparent)
  rintro rfl
  simp [hid] at hlive

theorem exists_parent? (rooted : doc.RootedAt roots) (hlive : doc.contains x)
    (hx : x ∉ roots) : ∃ parent, doc.parent? x = some parent := by
  cases hparent : doc.parent? x with
  | none => exact absurd (rooted x hlive hparent) hx
  | some parent => exact ⟨parent, rfl⟩

theorem moved {position : Nat} (rooted : before.RootedAt (id :: roots))
    (moved : Moved before after id parent position) : after.RootedAt roots := by
  intro x hlive hparent
  rw [moved.contains_eq] at hlive
  have hne : x ≠ id := by
    rintro rfl
    simp [moved.parent?_self] at hparent
  rw [moved.parent?_of_ne hne] at hparent
  exact mem_of_ne_of_mem hne (rooted x hlive hparent)

end RootedAt

namespace Forest

variable (forest : doc.Forest)

include forest

theorem exists_root (hlive : doc.contains x) :
    ∃ root, doc.contains root ∧ doc.parent? root = none ∧
      (x = root ∨ doc.Above root x) := by
  by_contra hnone
  -- Otherwise one can climb from the node for ever, though the document is finite.
  have hclimb (steps : Nat) : ∃ upper, doc.climb steps x = some upper ∧
      doc.contains upper ∧ (x = upper ∨ doc.Above upper x) := by
    induction steps with
    | zero => exact ⟨x, rfl, hlive, Or.inl rfl⟩
    | succ steps ih =>
      obtain ⟨lower, hlower, hcontains, hbelow⟩ := ih
      obtain ⟨upper, hupper⟩ := Option.ne_none_iff_exists'.mp fun hroot ↦
        hnone ⟨lower, hcontains, hroot, hbelow⟩
      exact ⟨upper, (climb_succ_eq_some_iff steps x upper).mpr ⟨lower, hlower, hupper⟩,
        forest.contains_parent hupper,
        Or.inr (hbelow.elim (· ▸ above_of_parent? hupper) (above_of_parent? hupper).trans)⟩
  obtain ⟨upper, hupper, -⟩ := hclimb doc.slots.size
  exact Nat.lt_irrefl _ (forest.climb_lt_size hlive hupper)

/-- If all nodes without a parent are one root, every live node is the root or below it. -/
theorem eq_or_above_of_rootedAt {root : NodeId} (rooted : doc.RootedAt [root])
    (hlive : doc.contains x) : x = root ∨ doc.Above root x := by
  obtain ⟨top, htop, hnone, hbelow⟩ := forest.exists_root hlive
  cases mem_singleton.mp (rooted top htop hnone)
  exact hbelow

/-! ### Creating, moving and deleting -/

theorem rootedAt_plant (rooted : doc.RootedAt roots) (element : Element) :
    (doc.plant none element).1.RootedAt (doc.fresh :: roots) := by
  have hplanted := forest.planted_plant element
  intro x hlive hparent
  by_cases hold : x.index < doc.slots.size
  · obtain ⟨hcontains, -, hsame, -⟩ := hplanted.readings_old hold
    exact mem_cons_of_mem _ (rooted x (hcontains ▸ hlive) (hsame ▸ hparent))
  · by_cases hroot : x ∈ [doc.fresh]
    · exact mem_cons.mpr (Or.inl (mem_singleton.mp hroot))
    · obtain ⟨upper, -, -, hupper⟩ :=
        hplanted.parent?_new x (Nat.not_lt.mp hold) (index_lt_size hlive) hroot
      simp [hupper] at hparent

theorem rootedAt_append (rooted : doc.RootedAt roots) (parent id : NodeId) :
    (doc.append parent id).RootedAt roots := by
  rcases forest.append_cases parent id with heq | hmoved
  · rwa [heq]
  · exact (rooted.weaken id).moved hmoved

theorem rootedAt_delete (rooted : doc.RootedAt (id :: roots)) :
    (doc.delete id).RootedAt roots := by
  intro x hlive hparent
  obtain ⟨hcontains, hmem⟩ := forest.contains_delete_iff.mp hlive
  rw [forest.parent?_delete hmem] at hparent
  have hne : x ≠ id := by
    rintro rfl
    exact hmem (forest.self_mem_subtree x)
  exact mem_of_ne_of_mem hne (rooted x hcontains hparent)

theorem rootedAt_deleteAll (rooted : doc.RootedAt roots) (ids : List NodeId) :
    (doc.deleteAll ids).RootedAt roots := by
  induction ids generalizing doc with
  | nil => exact rooted
  | cons first rest ih =>
    exact ih (forest.delete first) (forest.rootedAt_delete (rooted.weaken first))

theorem appendAll (parent : NodeId) (ids : List NodeId) :
    (doc.appendAll parent ids).Forest := by
  induction ids generalizing doc with
  | nil => exact forest
  | cons first rest ih => exact ih (forest.append parent first)

theorem rootedAt_appendAll (rooted : doc.RootedAt roots) (parent : NodeId)
    (ids : List NodeId) : (doc.appendAll parent ids).RootedAt roots := by
  induction ids generalizing doc with
  | nil => exact rooted
  | cons first rest ih =>
    exact ih (forest.append parent first) (forest.rootedAt_append rooted parent first)

/-! ### Hanging up roots

A root that can be attached where it is moved to is no root afterwards. -/

theorem canAttach_of_not_above (hid : doc.contains id)
    (hparent : doc.contains parent) (hne : id ≠ parent)
    (habove : ¬ doc.Above id parent) : doc.canAttach id parent := by
  refine canAttach_iff.mpr ⟨hid, hparent, hne, ?_⟩
  rwa [Bool.eq_false_iff, ne_eq, forest.isAncestor_iff]

theorem rootedAt_append_of_canAttach (rooted : doc.RootedAt (id :: roots))
    (hattach : doc.canAttach id parent) :
    (doc.append parent id).RootedAt roots :=
  rooted.moved (forest.moved_append hattach)

theorem rootedAt_replace {old : NodeId} (rooted : doc.RootedAt (id :: roots))
    (hold : doc.parent? old = some parent) (hne : id ≠ parent)
    (habove : ¬ doc.Above id parent) : (doc.replace old id).RootedAt roots := by
  unfold Document.replace
  dsimp only
  cases hlive : doc.contains id with
  | false =>
    have hattach : doc.canAttach id parent = false := by simp [Document.canAttach, hlive]
    rw [insertBefore, insertBeside_of_not_canAttach hold hattach, parent?_of_stale hlive]
    exact rooted.of_stale hlive
  | true =>
    by_cases heq : old = id
    · subst heq
      have hsame : doc.insertBefore old old = doc := by
        simp [insertBefore, Document.insertBeside, hold]
      rw [hsame, hold, Option.isSome_some, if_pos rfl]
      exact forest.rootedAt_delete rooted
    · obtain ⟨position, -, hmoved⟩ : ∃ position, _ ∧
          Moved doc (doc.insertBefore old id) id parent (position + 0) :=
        forest.moved_insertBeside hold heq (forest.canAttach_of_not_above hlive
          (forest.contains_parent hold) hne habove)
      rw [hmoved.parent?_self, Option.isSome_some, if_pos rfl]
      exact (forest.insertBeside old id 0).rootedAt_delete ((rooted.moved hmoved).weaken old)

theorem rootedAt_appendAll_of_not_above {ids : List NodeId}
    (rooted : doc.RootedAt (ids ++ roots)) (hparent : doc.contains parent)
    (hids : ∀ id ∈ ids, doc.contains id ∧ id ≠ parent ∧ ¬ doc.Above id parent) :
    (doc.appendAll parent ids).RootedAt roots := by
  induction ids generalizing doc with
  | nil => exact rooted
  | cons first rest ih =>
    obtain ⟨hlive, hne, habove⟩ := hids first (mem_cons_self ..)
    have hmoved := forest.moved_append (forest.canAttach_of_not_above hlive hparent hne habove)
    refine ih (forest.append parent first) (rooted.moved hmoved) ?_ fun id hid ↦ ?_
    · rwa [hmoved.contains_eq]
    · obtain ⟨hlater, hneLater, haboveLater⟩ := hids id (mem_cons_of_mem _ hid)
      exact ⟨(hmoved.contains_eq id).trans hlater, hneLater,
        hmoved.not_above_parent habove haboveLater⟩

end Forest

/-! ### Hanging up new nodes

A new node can be hung below every old one: nothing above an old node is new, as long as the old
nodes keep their parents. -/

def KeepsParents (before after : Document) : Prop :=
  ∀ x : NodeId, x.index < before.slots.size → after.parent? x = before.parent? x

namespace KeepsParents

variable {middle : Document} {upper lower : NodeId}

theorem refl (doc : Document) : KeepsParents doc doc :=
  fun _ _ ↦ rfl

theorem relabel (keeps : KeepsParents before middle) (id : NodeId) (change : Label → Label) :
    KeepsParents before (middle.relabel id change) := by
  intro x hx
  rw [parent?_relabel]
  exact keeps x hx

theorem moved {middle : Document} (keeps : KeepsParents before middle) {position : Nat}
    (moved : Moved middle after id parent position) (hnew : before.slots.size ≤ id.index) :
    KeepsParents before after := by
  intro x hx
  have hne : x ≠ id := by
    rintro rfl
    exact Nat.not_lt.mpr hnew hx
  rw [moved.parent?_of_ne hne]
  exact keeps x hx

section

variable (keeps : KeepsParents before after)

include keeps

theorem above_iff (forest : before.Forest) (hlower : lower.index < before.slots.size) :
    after.Above upper lower ↔ before.Above upper lower :=
  above_iff_of_parent?_eq keeps (fun _ _ _ h ↦ index_lt_size (forest.contains_parent h)) hlower

theorem not_above (forest : before.Forest) (hupper : before.slots.size ≤ upper.index)
    (hlower : lower.index < before.slots.size) : ¬ after.Above upper lower := fun habove ↦
  Nat.not_lt.mpr hupper
    (index_lt_size (forest.contains_above ((keeps.above_iff forest hlower).mp habove)))

theorem canAttach (hbefore : before.Forest) (hafter : after.Forest) (hid : after.contains id)
    (hparent : after.contains parent) (hnew : before.slots.size ≤ id.index)
    (hold : parent.index < before.slots.size) : after.canAttach id parent := by
  refine hafter.canAttach_of_not_above hid hparent ?_ (keeps.not_above hbefore hnew hold)
  rintro rfl
  exact Nat.not_lt.mpr hnew hold

end

end KeepsParents

end LoopDirectives.Document
