import LoopDirectives.Proofs.Import.Naming
import LoopDirectives.Proofs.Library.History

/-!
# Libraries that reflect the files

While the files stay as they are, a library holds nothing that could not be read now: each of its
modules is the one that its file gives, but for the name under which it was asked for
(`Library.Reflects`). A library stays so when another module is loaded, and loading from it gives
what reading the file gives (`Library.Reflects.load`).
-/

namespace LoopDirectives

open Text

theorem SourceUnit.read_module {name other text : String} {unit : SourceUnit}
    (h : SourceUnit.read (.module name) text = .ok unit) :
    SourceUnit.read (.module other) text = .ok (unit.as (.module other)) := by
  obtain ⟨⟨doc, root⟩, hdocument, h⟩ := exists_of_bind_eq_ok h
  obtain ⟨tables, htables, h⟩ := exists_of_bind_eq_ok h
  cases h
  have htables : tableElements (.module other) doc root = .ok tables := htables
  rw [SourceUnit.read, hdocument]
  show ofDocument (.module other) doc root = _
  rw [ofDocument, htables]
  rfl

namespace Library

variable {library origin : Library} {files : Files} {unit : SourceUnit} {name variant : String}

theorem readModule_congr (h : library.directories = origin.directories) (name : String) :
    library.readModule files name = origin.readModule files name := by
  rw [readModule, readModule, path, path, candidates, candidates, h]

theorem readModule_of_sameLetters (h : sameLetters variant name)
    (hread : library.readModule files name = .ok unit) :
    library.readModule files variant = .ok (unit.as (.module variant)) := by
  have hcandidates : library.candidates files variant = library.candidates files name := by
    rw [candidates, candidates, fileName, fileName, sameLetters_iff.mp h]
  obtain ⟨path, text, hpath, htext, hread⟩ := readModule_eq_ok_iff.mp hread
  have hvariant : library.path files variant = .ok path := by
    unfold Library.path at hpath ⊢
    rw [hcandidates]
    split at hpath
    · cases hpath
    · exact hpath
  exact readModule_eq_ok_iff.mpr ⟨path, text, hvariant, htext, SourceUnit.read_module hread⟩

theorem get?_insert_cases {inserted : SourceUnit}
    (h : (library.insert inserted).get? name = some unit) :
    library.get? name = some unit ∨ unit = inserted ∧ sameLetters name inserted.name := by
  by_cases hknown : library.isLoaded inserted.name
  · rw [insert_of_isLoaded hknown] at h
    exact .inl h
  · rw [insert_of_not_isLoaded hknown, get?, List.find?_append] at h
    rw [get?]
    cases hfind : library.modules.find? (fun entry ↦ entry.1 == lower name) with
    | some entry =>
      rw [hfind] at h
      exact .inl h
    | none =>
      rw [hfind, Option.none_or, List.find?_singleton] at h
      split at h
      · next hsame =>
        cases h
        exact .inr ⟨rfl, sameLetters_iff.mpr (beq_iff_eq.mp hsame).symm⟩
      · cases h

/-- The library looks for modules where `origin` does, and every module that it holds can be read
now, under each of its names. -/
structure Reflects (files : Files) (origin library : Library) : Prop where
  directories : library.directories = origin.directories
  current : ∀ {name unit}, library.get? name = some unit →
    origin.readModule files name = .ok (unit.as (.module name))

theorem reflects_of_modules_eq_nil (h : library.modules = []) : Reflects files library library := by
  refine ⟨rfl, fun hget ↦ ?_⟩
  rw [get?, h] at hget
  cases hget

/-- Loading gives the module that the files hold, loaded before or not, and fails where reading
does. -/
theorem Reflects.load (reflects : Reflects files origin library) (name : String) :
    (∃ cause, library.load files name = .error cause ∧
      origin.readModule files name = .error cause) ∨
    ∃ later unit, library.load files name = .ok (later, unit) ∧ Reflects files origin later ∧
      origin.readModule files name = .ok (unit.as (.module name)) := by
  cases hget : library.get? name with
  | some unit =>
    exact .inr ⟨library, unit, load_of_get? files hget, reflects, reflects.current hget⟩
  | none =>
    have hload : library.load files name = do
        let unit ← origin.readModule files name
        return (library.insert unit, unit) := by
      rw [Library.load, hget, readModule_congr reflects.directories]
    cases hread : origin.readModule files name with
    | error cause =>
      rw [hread] at hload
      exact .inl ⟨cause, hload, rfl⟩
    | ok unit =>
      rw [hread] at hload
      refine .inr ⟨library.insert unit, unit, hload, ⟨?_, fun {other found} hfound ↦ ?_⟩, ?_⟩
      · rw [← reflects.directories]
        unfold insert
        split <;> rfl
      · rcases get?_insert_cases hfound with hold | ⟨rfl, hsame⟩
        · exact reflects.current hold
        · rw [name_of_readModule hread] at hsame
          exact readModule_of_sameLetters hsame hread
      · rw [← hread]
        exact readModule_of_sameLetters (sameLetters_self name) hread

end Library

end LoopDirectives
