import LoopDirectives.Proofs.Import.Supply
import LoopDirectives.Proofs.Import.TypeMeaning

/-!
# Units that grow by imports

Each step of an import keeps what the unit had (`SourceUnit.Grows`). Only the elements of tables
grow, so an element in which no table stands stays as it is, and so do the types of a unit whose
tables stand outside of them (`SourceUnit.Grows.typesExtend`).
-/

namespace LoopDirectives

open Document List

namespace SourceUnit

variable {target before after : SourceUnit} {elements : TableElements} {x node : NodeId}
  {entry : TypeEntry}

/-- All that the unit had is still there: its nodes with their labels and places, and the entries of
its tables. Only the elements of the tables may have got new children, and these are the last. -/
structure Keeps (before after : SourceUnit) : Prop where
  places : SamePlaces before after
  tables : Import.TablesExtend before after
  contains : ∀ x, before.document.contains x = true → after.document.contains x = true
  label : ∀ x, before.document.contains x = true →
    after.document.label x = before.document.label x
  parent? : ∀ x, before.document.contains x = true →
    after.document.parent? x = before.document.parent? x
  children : ∀ x, before.document.contains x = true → x ∉ before.tableNodes →
    after.document.children x = before.document.children x
  tableChildren : ∀ x ∈ before.tableNodes, before.document.contains x = true →
    before.document.children x <+: after.document.children x

theorem Keeps.refl (unit : SourceUnit) : Keeps unit unit :=
  ⟨.refl unit, .refl unit, fun _ h ↦ h, fun _ _ ↦ rfl, fun _ _ ↦ rfl, fun _ _ _ ↦ rfl,
    fun _ _ _ ↦ prefix_rfl⟩

/-- No table of the unit stands inside one of its types. -/
def Apart (unit : SourceUnit) : Prop :=
  ∀ entry ∈ unit.types.entries, ∀ table ∈ unit.tableNodes,
    table ∉ unit.document.subtree entry.node

namespace Keeps

theorem contains_eq_false (keeps : Keeps before after) (h : after.document.contains x = false) :
    before.document.contains x = false :=
  Bool.eq_false_iff.mpr fun hold ↦ Bool.eq_false_iff.mp h (keeps.contains x hold)

variable (keeps : Keeps before after) (forest : before.document.Forest)
  (hafter : after.document.Forest) (hx : before.document.contains x)

include keeps forest hafter hx

theorem mem_subtree_iff : x ∈ after.document.subtree node ↔ x ∈ before.document.subtree node := by
  rw [hafter.mem_subtree_iff, forest.mem_subtree_iff,
    above_iff_of_parent?_eq keeps.parent? (fun _ _ _ ↦ forest.contains_parent) hx]

theorem not_mem_subtree_of_new (hnode : before.document.contains node = false) :
    x ∉ after.document.subtree node := by
  rw [keeps.mem_subtree_iff forest hafter hx, forest.mem_subtree_iff]
  rintro (rfl | habove)
  · cases hnode.symm.trans hx
  · cases hnode.symm.trans (forest.contains_above habove)

theorem element_eq (hclear : ∀ table ∈ before.tableNodes, table ∉ before.document.subtree x) :
    after.document.element x = before.document.element x := by
  refine forest.element_congr hafter fun y hy ↦ ?_
  have hlive := forest.contains_of_mem_subtree hx hy
  exact ⟨keeps.label y hlive, keeps.children y hlive fun htable ↦ hclear y htable hy⟩

end Keeps

/-- The second unit keeps what the first one had, and its tables are an index as well. -/
structure Grows (elements : TableElements) (before after : SourceUnit) : Prop where
  indexed : after.IndexedBy elements
  keeps : Keeps before after

namespace Grows

variable (grows : Grows elements before after) (indexed : before.IndexedBy elements)

include grows indexed

/-- A type that is not new had its identifier before. -/
theorem mem_types (hentry : entry ∈ after.types.entries) :
    entry ∈ before.types.entries ∨ before.document.contains entry.node = false := by
  refine or_iff_not_imp_right.mpr fun hold ↦ ?_
  rw [Bool.not_eq_false] at hold
  obtain ⟨hparent, hread⟩ := grows.indexed.read?_of_mem_types hentry
  obtain ⟨-, hid, -⟩ := TypeEntry.node_of_read? hread
  rw [grows.keeps.parent? _ hold] at hparent
  rw [typeId?, Document.attribute?, grows.keeps.label _ hold] at hid
  obtain ⟨other, hother, hsame⟩ := indexed.exists_mem_types hparent hid
  have hlater := grows.indexed.get?_id (grows.keeps.tables.types.subset hother)
  rw [hsame, grows.indexed.get?_id hentry] at hlater
  rwa [Option.some.inj hlater]

theorem apart (h : before.Apart) : after.Apart := by
  intro entry hentry table htable
  rw [grows.keeps.places.tableNodes_eq] at htable
  have hlive := indexed.contains_of_mem_tableNodes htable
  rcases grows.mem_types indexed hentry with hold | hnew
  · rw [grows.keeps.mem_subtree_iff indexed.forest grows.indexed.forest hlive]
    exact h entry hold table htable
  · exact grows.keeps.not_mem_subtree_of_new indexed.forest grows.indexed.forest hlive hnew

/-- Assumes: no table is below a type. Growing adds types, and the old ones stay as they are. -/
theorem typesExtend (h : before.Apart) : Import.TypesExtend before after := by
  have hlive := indexed.readable.types
  exact ⟨grows.keeps.tables.types, fun entry hentry ↦
    (grows.keeps.contains _ (hlive entry hentry)).trans (hlive entry hentry).symm,
    fun entry hentry ↦ grows.keeps.element_eq indexed.forest grows.indexed.forest
      (hlive entry hentry) (h entry hentry)⟩

end Grows

end SourceUnit

namespace Import

open SourceUnit

variable {source target after : SourceUnit} {sourceElements elements : TableElements}
  {origin typed : Document} {copy : NodeId} {table : TableName}

theorem keeps_of_extends (forest : target.document.Forest)
    (hextends : Extends (newNodes target) target after) (htables : TablesExtend target after) :
    Keeps target after := by
  have hbefore := (serves_newNodes forest).guards
  obtain ⟨hguards, hspares⟩ := Scope.Steps.guards_and_spares hbefore hextends.steps
  refine ⟨hextends.same, htables, fun x hx ↦ hspares.contains x hx (not_inside_newNodes hx),
    fun x hx ↦ hspares.label x hx (not_inside_newNodes hx),
    fun x hx ↦ hspares.parent? x hx (not_inside_newNodes hx),
    fun x hx htable ↦ hspares.children_eq hbefore hguards hx (not_inside_newNodes hx)
      not_mem_nil htable, fun x _ hx ↦ ?_⟩
  have hsplits : (newNodes target).Splits (target.document.children x)
      (target.document.children x) :=
    ⟨fun y hy ↦ not_inside_newNodes (forest.contains_child hy), [], by simp⟩
  obtain ⟨-, added, hadded, -⟩ := hspares.children x hx (not_inside_newNodes hx) _ hsplits
  exact ⟨added, hadded.symm⟩

section Steps

variable (indexed : target.IndexedBy elements) (hcopied : Copied origin target.document typed copy)

include indexed hcopied

theorem grows_copied : Grows elements target { target with document := typed } :=
  ⟨indexedBy_copied indexed hcopied, keeps_of_extends indexed.forest
    ⟨⟨rfl, rfl, rfl, rfl, rfl⟩, hcopied.steps (serves_newNodes indexed.forest).guards⟩
    ⟨prefix_rfl, prefix_rfl, prefix_rfl⟩⟩

theorem grows_enter (htable : table ≠ .types) :
    Grows elements target (enter target typed copy table) ∧
      (enter target typed copy table).types = target.types := by
  refine ⟨⟨indexedBy_enter indexed hcopied (absurd · htable), keeps_of_extends indexed.forest
    ((serves_newNodes indexed.forest).extends_of_entered hcopied
      (entered_enter target typed copy table)) (tablesExtend_enter table (absurd · htable)).1⟩, ?_⟩
  unfold enter
  cases hinsert : { target with document := typed }.insert? copy table with
  | none => rfl
  | some after =>
    cases table with
    | types => exact absurd rfl htable
    | symbols =>
      obtain ⟨_, _, -, -, rfl⟩ := insert?_symbols_eq_some hinsert
      rfl
    | declarations =>
      obtain ⟨_, _, -, -, -, rfl⟩ := insert?_declarations_eq_some hinsert
      rfl

end Steps

theorem grows_fetches (hsource : source.IndexedBy sourceElements)
    (indexed : target.IndexedBy elements) {copies : List NodeId}
    (fetches : Fetches source target after copies) : Grows elements target after :=
  ⟨(indexedBy_fetches indexed ⟨_, hsource⟩ fetches).1, keeps_of_extends indexed.forest
    ((serves_newNodes indexed.forest).extends_fetches fetches).1 fetches.tablesExtend⟩

end Import

end LoopDirectives
