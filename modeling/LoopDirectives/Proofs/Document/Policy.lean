import LoopDirectives.Proofs.Document.Aging
import LoopDirectives.Proofs.Document.Every

/-!
# Policies for labels

A policy says which labels are good, and which are roomy, so that something may hang below them. A
document is tidy (`Policy.Tidy`) with regard to an earlier one when every label that is not good was
there before, outside the headers of loops, and whatever has something below it is roomy. Edits that
bring good labels only (`Policy.Careful`) keep this, and with it what has only good labels below it
(`Policy.Sound`) and what is roomy (`Policy.Roomy`).
-/

namespace LoopDirectives

open Document List

def headerKinds : List Kind := [.var, .lowerBound, .upperBound, .step]

/-- Which labels are good, and which may have something below them. What an import does to labels
keeps both. -/
structure Policy where
  good : Label → Prop
  roomy : Label → Prop
  good_setAttribute : ∀ {label : Label} {name : String} (value : String),
    name ∈ ["type", "ref"] → good label → good (label.setAttribute name value)
  roomy_setAttribute : ∀ {label : Label} (name value : String),
    roomy label → roomy (label.setAttribute name value)
  good_new : ∀ kind ∈ [Kind.lowerBound, .upperBound, .binary .plus], good { tag := kind.tag }
  roomy_new : ∀ kind ∈ [Kind.lowerBound, .upperBound, .binary .plus], roomy { tag := kind.tag }

namespace Policy

variable {policy : Policy} {origin doc before middle after : Document}
  {id parent anchor x : NodeId}

/-- What the policy asks of a label, given whether there is nothing below it. A body is always
roomy. -/
structure Allows (policy : Policy) (label : Label) (leaf : Bool) : Prop where
  good : policy.good label
  roomy : leaf = false ∨ label.kind = .body → policy.roomy label

def Sound (policy : Policy) (doc : Document) (id : NodeId) : Prop :=
  ∀ x ∈ doc.subtree id, doc.contains x = true → policy.good (doc.label x)

/-- The node was there at some time, and is roomy if it still is. -/
structure Roomy (policy : Policy) (doc : Document) (id : NodeId) : Prop where
  lt_size : id.index < doc.slots.size
  label : doc.contains id = true → policy.roomy (doc.label id)

/-- What a document is like as long as all edits keep to the policy. -/
structure Tidy (policy : Policy) (origin doc : Document) : Prop where
  forest : doc.Forest
  old : ∀ x, doc.contains x = true → ¬ policy.good (doc.label x) →
    origin.contains x = true ∧ doc.label x = origin.label x
  header : ∀ x, doc.kind x ∈ headerKinds → policy.Sound doc x
  roomy : ∀ x, doc.contains x = true → doc.children x ≠ [] ∨ doc.kind x = .body →
    policy.roomy (doc.label x)

/-- An edit after which the document is tidy and the roomy nodes are still roomy. -/
structure Upholds (policy : Policy) (origin before after : Document) : Prop where
  tidy : policy.Tidy origin after
  roomy : ∀ x, policy.Roomy before x → policy.Roomy after x

/-- An edit that brings nothing but good labels to where there are only good labels. -/
structure Careful (policy : Policy) (origin before after : Document) : Prop
    extends policy.Upholds origin before after where
  sound : ∀ x, policy.Sound before x → policy.Sound after x

theorem Upholds.trans (first : policy.Upholds origin before middle)
    (second : policy.Upholds origin middle after) : policy.Upholds origin before after :=
  ⟨second.tidy, fun x hx ↦ second.roomy x (first.roomy x hx)⟩

theorem Careful.trans (first : policy.Careful origin before middle)
    (second : policy.Careful origin middle after) : policy.Careful origin before after :=
  ⟨first.toUpholds.trans second.toUpholds, fun x hx ↦ second.sound x (first.sound x hx)⟩

namespace Tidy

variable (tidy : policy.Tidy origin doc)

include tidy

theorem refl : policy.Careful origin doc doc :=
  ⟨⟨tidy, fun _ hx ↦ hx⟩, fun _ hx ↦ hx⟩

theorem roomy_of_mem_children {child : NodeId} (h : child ∈ doc.children x) :
    policy.Roomy doc x :=
  ⟨index_lt_size (contains_of_mem_children h), fun hlive ↦
    tidy.roomy x hlive (Or.inl (ne_nil_of_mem h))⟩

theorem roomy_of_body (hlive : doc.contains x) (hkind : doc.kind x = .body) :
    policy.Roomy doc x :=
  ⟨index_lt_size hlive, fun _ ↦ tidy.roomy x hlive (Or.inr hkind)⟩

end Tidy

theorem Tidy.good (tidy : policy.Tidy origin doc)
    (horigin : ∀ x, origin.contains x → policy.good (origin.label x))
    (hlive : doc.contains x) : policy.good (doc.label x) := by
  by_contra hbad
  obtain ⟨hold, hlabel⟩ := tidy.old x hlive hbad
  exact hbad (hlabel ▸ horigin x hold)

section

variable (forest : doc.Forest) (sound : policy.Sound doc id)

include forest sound

theorem Sound.mono (h : x ∈ doc.subtree id) : policy.Sound doc x :=
  fun y hy hlive ↦ sound y (forest.mem_subtree_trans hy h) hlive

theorem Sound.of_mem_children (h : x ∈ doc.children id) : policy.Sound doc x :=
  sound.mono forest (forest.mem_subtree_of_mem_children h)

theorem Sound.good (hlive : doc.contains id) : policy.good (doc.label id) :=
  sound id (forest.self_mem_subtree id) hlive

end

theorem Tidy.every_element (tidy : policy.Tidy origin doc)
    (sound : policy.Sound doc id) (hlive : doc.contains id) :
    (doc.element id).Every policy.Allows := by
  refine tidy.forest.every_element_iff.mpr fun x hx ↦ ?_
  have hcontains := tidy.forest.contains_of_mem_subtree hlive hx
  refine ⟨sound x hx hcontains, fun h ↦ tidy.roomy x hcontains (h.imp_left fun hleaf ↦ ?_)⟩
  exact isEmpty_eq_false_iff.mp hleaf

/-! ### Planting -/

section Plant

variable (tidy : policy.Tidy origin doc) {element : Element}
  (helement : element.Every policy.Allows)

include tidy helement

theorem sound_planted (sound : policy.Sound doc x) :
    policy.Sound (doc.plant none element).1 x := by
  intro y hy hlive
  have planted := tidy.forest.planted_plant element
  by_cases hold : y.index < doc.slots.size
  · obtain ⟨hcontains, hlabel, -, -⟩ := planted.readings_old hold
    rw [hlabel]
    refine sound y ((tidy.forest.mem_subtree_iff x y).mpr ?_) (hcontains ▸ hlive)
    exact ((tidy.forest.plant element).mem_subtree_iff x y).mp hy |>.imp_right fun habove ↦
      (planted.above_cases tidy.forest habove).1 hold
  · exact (tidy.forest.holds_plant helement (Nat.not_lt.mp hold) hlive).good

theorem sound_of_new (hx : doc.slots.size ≤ x.index) :
    policy.Sound (doc.plant none element).1 x := by
  intro y hy hlive
  refine (tidy.forest.holds_plant helement ?_ hlive).good
  rcases ((tidy.forest.plant element).mem_subtree_iff x y).mp hy with rfl | habove
  · exact hx
  · by_contra hold
    have hcases := (tidy.forest.planted_plant element).above_cases tidy.forest habove
    have hlt := index_lt_size (tidy.forest.contains_above (hcases.1 (Nat.not_le.mp hold)))
    exact Nat.not_le.mpr hlt hx

theorem careful_plant : policy.Careful origin doc (doc.plant none element).1 := by
  have planted := tidy.forest.planted_plant element
  have hold {y : NodeId} (hy : y.index < doc.slots.size) := planted.readings_old hy
  refine ⟨⟨⟨tidy.forest.plant element, fun y hlive hbad ↦ ?_, fun y hkind ↦ ?_,
    fun y hlive hroomy ↦ ?_⟩, fun y hy ↦ ?_⟩, fun y ↦ sound_planted tidy helement⟩
  · by_cases hy : y.index < doc.slots.size
    · rw [(hold hy).1] at hlive
      rw [(hold hy).2.1] at hbad ⊢
      exact tidy.old y hlive hbad
    · exact absurd (tidy.forest.holds_plant helement (Nat.not_lt.mp hy) hlive).good hbad
  · by_cases hy : y.index < doc.slots.size
    · rw [kind, (hold hy).2.1] at hkind
      exact sound_planted tidy helement (tidy.header y hkind)
    · exact sound_of_new tidy helement (Nat.not_lt.mp hy)
  · by_cases hy : y.index < doc.slots.size
    · rw [(hold hy).1] at hlive
      rw [(hold hy).2.2.2, kind, (hold hy).2.1] at hroomy
      rw [(hold hy).2.1]
      exact tidy.roomy y hlive hroomy
    · refine (tidy.forest.holds_plant helement (Nat.not_lt.mp hy) hlive).roomy ?_
      exact hroomy.imp_left isEmpty_eq_false_iff.mpr
  · refine ⟨Nat.lt_of_lt_of_le hy.lt_size planted.size_le, fun hlive ↦ ?_⟩
    rw [(hold hy.lt_size).1] at hlive
    rw [(hold hy.lt_size).2.1]
    exact hy.label hlive

end Plant

/-! ### Relabelling -/

section Relabel

variable {change : Label → Label}

theorem mem_subtree_relabel (forest : doc.Forest) {y : NodeId}
    (h : y ∈ (doc.relabel id change).subtree x) : y ∈ doc.subtree x := by
  rw [forest.mem_subtree_iff]
  exact ((forest.relabel id change).mem_subtree_iff x y).mp h |>.imp_right fun habove ↦
    habove.mono fun _ _ hparent ↦ (parent?_relabel ..).symm.trans hparent

theorem label_relabel_cases (doc : Document) (id : NodeId) (change : Label → Label)
    (y : NodeId) :
    (doc.relabel id change).label y = doc.label y ∨
      y = id ∧ doc.contains id ∧
        (doc.relabel id change).label y = change (doc.label id) := by
  by_cases hy : y = id
  · subst hy
    cases hlive : doc.contains y with
    | false => exact Or.inl (by rw [relabel_of_stale _ _ _ hlive])
    | true => exact Or.inr ⟨rfl, rfl, label_relabel_self _ _ _ hlive⟩
  · exact Or.inl (label_relabel_of_ne _ _ _ hy)

variable (hgood : doc.contains id → policy.good (change (doc.label id)))

include hgood

theorem sound_relabel (forest : doc.Forest) (sound : policy.Sound doc x) :
    policy.Sound (doc.relabel id change) x := by
  intro y hy hlive
  rw [contains_relabel] at hlive
  rcases label_relabel_cases doc id change y with hlabel | ⟨-, hid, hlabel⟩
  · rw [hlabel]
    exact sound y (mem_subtree_relabel forest hy) hlive
  · rw [hlabel]
    exact hgood hid

theorem Tidy.relabel (tidy : policy.Tidy origin doc)
    (hkind : ∀ label, (change label).kind = label.kind)
    (hroomy : doc.contains id →
      doc.children id ≠ [] ∨ doc.kind id = .body →
      policy.roomy (change (doc.label id))) :
    policy.Tidy origin (doc.relabel id change) := by
  have hkinds (y : NodeId) : (doc.relabel id change).kind y = doc.kind y :=
    reading_label_relabel doc id change Label.kind hkind y
  refine ⟨tidy.forest.relabel id change, fun y hlive hbad ↦ ?_, fun y hy ↦ ?_, fun y hlive h ↦ ?_⟩
  · rw [contains_relabel] at hlive
    rcases label_relabel_cases doc id change y with hlabel | ⟨-, hid, hlabel⟩
    · rw [hlabel] at hbad ⊢
      exact tidy.old y hlive hbad
    · rw [hlabel] at hbad
      exact absurd (hgood hid) hbad
  · rw [hkinds] at hy
    exact sound_relabel hgood tidy.forest (tidy.header y hy)
  · rw [contains_relabel] at hlive
    rw [children_relabel, hkinds] at h
    rcases label_relabel_cases doc id change y with hlabel | ⟨rfl, -, hlabel⟩
    · rw [hlabel]
      exact tidy.roomy y hlive h
    · rw [hlabel]
      exact hroomy hlive h

end Relabel

theorem Tidy.careful_setAttribute (tidy : policy.Tidy origin doc) {name : String}
    (hname : name ∈ ["type", "ref"]) (value : String) (sound : policy.Sound doc id) :
    policy.Careful origin doc (doc.setAttribute id name value) := by
  have hgood : doc.contains id →
      policy.good ((doc.label id).setAttribute name value) := fun hlive ↦
    policy.good_setAttribute value hname (sound.good tidy.forest hlive)
  refine ⟨⟨tidy.relabel hgood (fun _ ↦ rfl) fun hlive h ↦ ?_, fun y hy ↦ ⟨?_, fun hlive ↦ ?_⟩⟩,
    fun y hy ↦ sound_relabel hgood tidy.forest hy⟩
  · exact policy.roomy_setAttribute name value (tidy.roomy id hlive h)
  · rw [setAttribute, size_relabel]
    exact hy.lt_size
  · rw [setAttribute, contains_relabel] at hlive
    rcases label_relabel_cases doc id (·.setAttribute name value) y with
      hlabel | ⟨rfl, -, hlabel⟩
    · rw [setAttribute, hlabel]
      exact hy.label hlive
    · rw [setAttribute, hlabel]
      exact policy.roomy_setAttribute name value (hy.label hlive)

/-! ### Moving -/

section Moved

variable (tidy : policy.Tidy origin before) {position : Nat}
  (moved : Moved before after id parent position)

include tidy moved

theorem mem_subtree_moved {y : NodeId} (h : y ∈ after.subtree x) :
    y ∈ before.subtree x ∨ parent ∈ before.subtree x ∧ y ∈ before.subtree id := by
  simp only [tidy.forest.mem_subtree_iff]
  rcases ((moved.forest tidy.forest).mem_subtree_iff x y).mp h with rfl | habove
  · exact Or.inl (Or.inl rfl)
  · rcases moved.above_cases habove with habove | ⟨hupper, hlower⟩
    · exact Or.inl (Or.inr habove)
    · exact Or.inr ⟨hupper.imp_left Eq.symm, hlower⟩

theorem sound_moved (hid : policy.Sound before id) (sound : policy.Sound before x) :
    policy.Sound after x := by
  intro y hy hlive
  rw [moved.contains_eq] at hlive
  rw [moved.label_eq]
  rcases mem_subtree_moved tidy moved hy with hmem | ⟨-, hmem⟩
  · exact sound y hmem hlive
  · exact hid y hmem hlive

theorem Tidy.upholds_moved (hparent : policy.Roomy before parent)
    (hid : ∀ upper, parent ∈ before.subtree upper → before.kind upper ∈ headerKinds →
      policy.Sound before id) : policy.Upholds origin before after := by
  refine ⟨⟨moved.forest tidy.forest, fun y hlive hbad ↦ ?_, fun y hkind z hz hlive ↦ ?_,
    fun y hlive h ↦ ?_⟩, fun y hy ↦ ⟨?_, fun hlive ↦ ?_⟩⟩
  · rw [moved.contains_eq] at hlive
    rw [moved.label_eq] at hbad ⊢
    exact tidy.old y hlive hbad
  · rw [kind, moved.label_eq] at hkind
    rw [moved.contains_eq] at hlive
    rw [moved.label_eq]
    rcases mem_subtree_moved tidy moved hz with hmem | ⟨hupper, hmem⟩
    · exact tidy.header y hkind z hmem hlive
    · exact hid y hupper hkind z hmem hlive
  · rw [moved.contains_eq] at hlive
    rw [kind, moved.label_eq] at h
    rw [moved.label_eq]
    by_cases hy : y = parent
    · exact hy ▸ hparent.label (hy ▸ hlive)
    · refine tidy.roomy y hlive (h.imp_left fun hchildren hnil ↦ hchildren ?_)
      rw [moved.children_of_ne y hy, hnil]
      rfl
  · rw [moved.size_eq]
    exact hy.lt_size
  · rw [moved.contains_eq] at hlive
    rw [moved.label_eq]
    exact hy.label hlive

theorem Tidy.careful_moved (hparent : policy.Roomy before parent)
    (hid : policy.Sound before id) : policy.Careful origin before after :=
  ⟨tidy.upholds_moved moved hparent fun _ _ _ ↦ hid, fun _ ↦ sound_moved tidy moved hid⟩

end Moved

namespace Tidy

variable (tidy : policy.Tidy origin doc)

include tidy

theorem upholds_append (hparent : policy.Roomy doc parent)
    (hid : ∀ upper, parent ∈ doc.subtree upper → doc.kind upper ∈ headerKinds →
      policy.Sound doc id) : policy.Upholds origin doc (doc.append parent id) := by
  rcases tidy.forest.append_cases parent id with heq | hmoved
  · rw [heq]
    exact tidy.refl.toUpholds
  · exact tidy.upholds_moved hmoved hparent hid

theorem careful_append (hparent : policy.Roomy doc parent)
    (hid : policy.Sound doc id) :
    policy.Careful origin doc (doc.append parent id) := by
  rcases tidy.forest.append_cases parent id with heq | hmoved
  · rw [heq]
    exact tidy.refl
  · exact tidy.careful_moved hmoved hparent hid

theorem careful_insertBeside (anchor : NodeId) (offset : Nat) (hid : policy.Sound doc id) :
    policy.Careful origin doc (doc.insertBeside anchor id offset) := by
  rcases tidy.forest.insertBeside_cases anchor id offset with
    heq | ⟨parent, position, hparent, -, -, hmoved⟩
  · rw [heq]
    exact tidy.refl
  · exact tidy.careful_moved hmoved
      (tidy.roomy_of_mem_children (tidy.forest.mem_children hparent)) hid

/-! ### Deleting -/

/-- Deleting a node keeps to every policy. -/
theorem careful_delete (id : NodeId) : policy.Careful origin doc (doc.delete id) := by
  have forest := tidy.forest.delete id
  have hkept {y : NodeId} (hlive : (doc.delete id).contains y) :
      doc.contains y ∧ (doc.delete id).label y = doc.label y :=
    ⟨(tidy.forest.contains_delete_iff.mp hlive).1,
      tidy.forest.label_delete (tidy.forest.contains_delete_iff.mp hlive).2⟩
  have hsound {y : NodeId} (sound : policy.Sound doc y) :
      policy.Sound (doc.delete id) y := by
    intro z hz hlive
    rw [(hkept hlive).2]
    refine sound z ((tidy.forest.mem_subtree_iff y z).mpr ?_) (hkept hlive).1
    exact (forest.mem_subtree_iff y z).mp hz |>.imp_right fun habove ↦
      habove.mono fun _ _ hparent ↦ (tidy.forest.parent?_delete_eq_some_iff.mp hparent).1
  refine ⟨⟨⟨forest, fun y hlive hbad ↦ ?_, fun y hkind ↦ ?_, fun y hlive h ↦ ?_⟩,
    fun y hy ↦ ⟨?_, fun hlive ↦ ?_⟩⟩, fun y ↦ hsound⟩
  · rw [(hkept hlive).2] at hbad ⊢
    exact tidy.old y (hkept hlive).1 hbad
  · cases hlive : (doc.delete id).contains y with
    | true =>
      rw [kind, (hkept hlive).2] at hkind
      exact hsound (tidy.header y hkind)
    | false =>
      intro z hz hcontains
      rw [subtree_of_stale hlive, mem_singleton] at hz
      rw [hz, hlive] at hcontains
      cases hcontains
  · rw [kind, (hkept hlive).2,
      tidy.forest.children_delete (tidy.forest.contains_delete_iff.mp hlive).2] at h
    rw [(hkept hlive).2]
    refine tidy.roomy y (hkept hlive).1 (h.imp_left fun hchildren hnil ↦ hchildren ?_)
    rw [hnil]
    rfl
  · rw [size_delete]
    exact hy.lt_size
  · rw [(hkept hlive).2]
    exact hy.label (hkept hlive).1

end Tidy

/-! ### Edits made of several -/

section

variable (tidy : policy.Tidy origin doc)

include tidy

theorem Tidy.careful_deleteAll (ids : List NodeId) :
    policy.Careful origin doc (doc.deleteAll ids) := by
  induction ids generalizing doc with
  | nil => exact tidy.refl
  | cons first rest ih =>
    have hfirst := tidy.careful_delete first
    exact hfirst.trans (ih hfirst.tidy)

theorem Tidy.careful_appendAll (hparent : policy.Roomy doc parent) {ids : List NodeId}
    (hids : ∀ id ∈ ids, policy.Sound doc id) :
    policy.Careful origin doc (doc.appendAll parent ids) := by
  induction ids generalizing doc with
  | nil => exact tidy.refl
  | cons first rest ih =>
    obtain ⟨hfirst, hrest⟩ := forall_mem_cons.mp hids
    have hcareful := tidy.careful_append hparent hfirst
    exact hcareful.trans (ih hcareful.tidy (hcareful.roomy parent hparent) fun id hid ↦
      hcareful.sound id (hrest id hid))

theorem Tidy.upholds_appendAll (hparent : policy.Roomy doc parent)
    (hfree : ∀ upper, parent ∈ doc.subtree upper → doc.kind upper ∉ headerKinds)
    (ids : List NodeId) : policy.Upholds origin doc (doc.appendAll parent ids) := by
  induction ids generalizing doc with
  | nil => exact tidy.refl.toUpholds
  | cons first rest ih =>
    have hfirst : policy.Upholds origin doc (doc.append parent first) :=
      tidy.upholds_append hparent fun upper hupper hkind ↦ absurd hkind (hfree upper hupper)
    refine hfirst.trans (ih hfirst.tidy (hfirst.roomy parent hparent) fun upper hupper ↦ ?_)
    rcases tidy.forest.append_cases parent first with heq | hmoved
    · rw [heq] at hupper ⊢
      exact hfree upper hupper
    · rw [kind, hmoved.label_eq]
      exact hfree upper ((mem_subtree_moved tidy hmoved hupper).elim id And.left)

theorem Tidy.careful_replace (old : NodeId) {new : NodeId} (hnew : policy.Sound doc new) :
    policy.Careful origin doc (doc.replace old new) := by
  have hmoved := tidy.careful_insertBeside old 0 hnew
  unfold Document.replace
  dsimp only
  split
  · exact hmoved.trans (hmoved.tidy.careful_delete old)
  · exact hmoved

theorem Tidy.careful_copyFrom? {source copied : Document} {copy : NodeId}
    (h : doc.copyFrom? source id = some (copied, copy))
    (helement : (source.element id).Every policy.Allows) :
    policy.Careful origin doc copied ∧ policy.Sound copied copy := by
  obtain ⟨-, rfl, rfl⟩ := copyFrom?_eq_some h
  exact ⟨careful_plant tidy helement, sound_of_new tidy helement (Nat.le_refl _)⟩

end

end Policy

end LoopDirectives
