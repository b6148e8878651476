import Mathlib.Order.Bounds.Defs
import LoopDirectives.Proofs.Import.Supply
import LoopDirectives.Proofs.Import.TypeMeaning

/-!
# Renamed types

The search for a fresh identifier has no bound: it takes the candidates in turn until one is free
(`TypeTable.SearchStep`). It ends all the same, and an import that renames a type by it leaves every
entry as it is (`Import.freshId_exact`).
-/

namespace LoopDirectives

open List Relation

namespace TypeTable

/-- The search goes on from a number to the next one while the table has its candidate. -/
def SearchStep (table : TypeTable) (base : String) (number next : Nat) : Prop :=
  table.contains (candidateId base number) ∧ next = number + 1

theorem reaches_iff {table : TypeTable} {base : String} {number : Nat} :
    ReflTransGen (table.SearchStep base) 1 number ↔
      1 ≤ number ∧ ∀ smaller, 1 ≤ smaller → smaller < number →
        table.contains (candidateId base smaller) := by
  constructor
  · intro h
    induction h with
    | refl => exact ⟨le_rfl, by omega⟩
    | tail _ step ih =>
      obtain ⟨htaken, rfl⟩ := step
      refine ⟨by omega, fun smaller hpos hlt ↦ ?_⟩
      rcases Nat.lt_succ_iff_lt_or_eq.mp hlt with hlt | rfl
      · exact ih.2 smaller hpos hlt
      · exact htaken
  · rintro ⟨hpos, htaken⟩
    induction number, hpos using Nat.le_induction with
    | base => exact .refl
    | succ number hpos ih =>
      exact (ih fun smaller h hlt ↦ htaken smaller h (by omega)).tail
        ⟨htaken number hpos (by omega), rfl⟩

end TypeTable

namespace Import

open TypeTable (candidateId)

variable {before after : SourceUnit}

/-- A type of some unit is imported. -/
def Imports (before after : SourceUnit) : Prop :=
  ∃ source id result, importType source id before = .ok (after, result)

theorem tablesExtend_of_imports (h : ReflTransGen Imports before after) :
    TablesExtend before after := by
  induction h with
  | refl => exact .refl before
  | tail _ step ih =>
    obtain ⟨source, id, result, himport⟩ := step
    have hrun := (leaves_importTypeGuarded source _ [] id).of_ok
      (InPlace.commit_eq_ok_iff.mp himport)
    exact ih.trans hrun.1.tablesExtend

/-- The search for a fresh identifier looks at no more candidates than one more than there are
entries, and ends with the least number whose candidate is free. A renamed type is entered last
under that identifier, and no run of imports changes an entry or what an identifier stands for. -/
theorem freshId_exact (table : TypeTable) (base : String) :
    (∃ number, ReflTransGen (table.SearchStep base) 1 number ∧
      IsLeast {number | 1 ≤ number ∧ table.contains (candidateId base number) = false} number ∧
      table.freshId base = candidateId base number) ∧
    (∀ number, ReflTransGen (table.SearchStep base) 1 number →
      number ≤ table.entries.length + 1) ∧
    (∀ (source target : SourceUnit) (link : TypeLink) (reference? : Option String),
      target.document.Forest → target.types.element?.isSome →
      source.document.contains link.node → target.types.contains link.id →
      existing? source target link reference? = none →
      ∃ after entry, importLink source target link reference? = (after, entry.id) ∧
        entry.id = target.types.freshId link.id ∧
        after.types.entries = target.types.entries ++ [entry]) ∧
    ∀ before after, ReflTransGen Imports before after →
      before.types.entries <+: after.types.entries ∧
      ∀ id entry, before.types.get? id = some entry → after.types.get? id = some entry := by
  obtain ⟨number, hpos, hle, hfresh, hfree, htaken⟩ := table.freshId_spec base
  refine ⟨⟨number, TypeTable.reaches_iff.mpr ⟨hpos, htaken⟩, ⟨⟨hpos, hfree⟩, ?_⟩, hfresh⟩, ?_, ?_,
    fun before after h ↦ ?_⟩
  · rintro other ⟨hother, hotherFree⟩
    by_contra hlt
    cases hotherFree.symm.trans (htaken other hother (by omega))
  · -- The search does not pass a number whose candidate is free.
    intro other hreach
    by_contra hlt
    cases hfree.symm.trans ((TypeTable.reaches_iff.mp hreach).2 number hpos (by omega))
  · intro source target link reference? forest htable hlive htaken hnone
    have hnew : newId target link.id = target.types.freshId link.id := if_pos htaken
    obtain ⟨table, htable⟩ := Option.isSome_iff_exists.mp htable
    obtain ⟨_, entry, -, hid, hdeclare⟩ := declare_eq_append forest htable hlive
      (contains_newId target link.id) reference?
    refine ⟨_, entry, ?_, hid.trans hnew, congrArg (·.types.entries) hdeclare⟩
    rw [importLink, hnone, hid]
  · have hextend := (tablesExtend_of_imports h).types
    exact ⟨hextend, fun id entry ↦ TypeTable.get?_of_entries hextend⟩

/-- A program that has taken some candidates for the name of a type, with a gap. -/
def crowdedProgram : SourceUnit :=
  unitOfTypes .program
    [.basicType "K" "Freal" [], .basicType "K_1" "Freal" [], .basicType "K_3" "Freal" []]

theorem freshId_exact_crowdedProgram :
    (∃ after entry, importLink SourceUnit.gridModule crowdedProgram ⟨"K", ⟨2⟩⟩ (some "Fint") =
        (after, entry.id) ∧ entry.id = "K_2" ∧
      after.types.entries = crowdedProgram.types.entries ++ [entry]) ∧
    ∃ after result, importType SourceUnit.gridModule "A" crowdedProgram = .ok (after, result) ∧
      crowdedProgram.types.entries <+: after.types.entries := by
  obtain ⟨-, -, hrename, hrun⟩ := freshId_exact crowdedProgram.types "K"
  have hfresh : crowdedProgram.types.freshId "K" = "K_2" := by decide +kernel
  refine ⟨hfresh ▸ hrename SourceUnit.gridModule crowdedProgram ⟨"K", ⟨2⟩⟩ (some "Fint")
    (Document.forest_ofElement _) rfl rfl (by decide +kernel) (by decide +kernel), ?_⟩
  obtain ⟨⟨after, result⟩, himport, -⟩ := exists_of_any_toOption
    (show (importType SourceUnit.gridModule "A" crowdedProgram).toOption.any fun _ ↦ true by
      decide +kernel)
  exact ⟨after, result, himport, (hrun _ _ (.single ⟨_, _, _, himport⟩)).1⟩

end Import

end LoopDirectives
