import Mathlib.Data.List.Dedup
import LoopDirectives.Proofs.Library

/-!
# The history of a library

What becomes of a library in the course of loading and inserting modules and of changing where they
are looked for, while the files change as they like. A module that is known stays
(`get?_run`), whatever it is asked for as, and the names of the known modules are the ones that were
loaded or inserted with success (`isLoaded_run_iff`), each counted once (`size_run`).
-/

namespace LoopDirectives.Library

open Text List

/-- What is done with a library. A module is loaded from the files as they are at the time. -/
inductive Operation where
  | load (files : Files) (name : String)
  | insert (unit : SourceUnit)
  | searching (directories : List String)

/-- The library after the operation. A load that fails hands back no other one. -/
def perform (library : Library) : Operation → Library
  | .load files name =>
    match library.load files name with
    | .ok (later, _) => later
    | .error _ => library
  | .insert unit => library.insert unit
  | .searching directories => library.searching directories

/-- The name of the module that the operation loads or inserts with success. -/
def acquires? (library : Library) : Operation → Option String
  | .load files name =>
    match library.load files name with
    | .ok _ => some name
    | .error _ => none
  | .insert unit => some unit.name
  | .searching _ => none

def run (library : Library) (operations : List Operation) : Library :=
  operations.foldl perform library

/-- The names of the modules that the operations load or insert with success, in order. -/
def acquired (library : Library) : List Operation → List String
  | [] => []
  | operation :: rest =>
    (library.acquires? operation).toList ++ (library.perform operation).acquired rest

def keys (library : Library) : List String :=
  library.modules.map Prod.fst

variable {library later : Library} {unit : SourceUnit} {files : Files} {name variant : String}

/-! ### Looking a module up -/

theorem get?_of_sameLetters (library : Library) (h : sameLetters variant name) :
    library.get? variant = library.get? name := by
  rw [get?, get?, sameLetters_iff.mp h]

theorem isLoaded_of_get? (h : library.get? name = some unit) : library.isLoaded name := by
  rw [isLoaded, h]
  rfl

theorem isLoaded_iff_mem_keys : library.isLoaded name ↔ lower name ∈ library.keys := by
  rw [isLoaded, get?, Option.isSome_map, find?_isSome, keys, mem_map]
  simp only [beq_iff_eq]

theorem load_of_get? (files : Files) (h : library.get? name = some unit) :
    library.load files name = .ok (library, unit) := by
  rw [load, h]

theorem insert_of_isLoaded (h : library.isLoaded unit.name) :
    library.insert unit = library :=
  if_pos h

theorem insert_of_not_isLoaded (h : ¬ library.isLoaded unit.name) :
    library.insert unit =
      { library with modules := library.modules ++ [(lower unit.name, unit)] } :=
  if_neg h

theorem get?_insert (h : library.get? name = some unit) (other : SourceUnit) :
    (library.insert other).get? name = some unit := by
  by_cases hother : library.isLoaded other.name
  · rwa [insert_of_isLoaded hother]
  · obtain ⟨entry, hentry, rfl⟩ := Option.map_eq_some_iff.mp h
    rw [insert_of_not_isLoaded hother, get?, find?_append, hentry]
    rfl

theorem get?_insert_self (h : ¬ library.isLoaded unit.name) :
    (library.insert unit).get? unit.name = some unit := by
  have hnone : library.modules.find? (fun entry ↦ entry.1 == lower unit.name) = none := by
    rwa [isLoaded, get?, Option.isSome_map, Bool.not_eq_true, Option.isSome_eq_false_iff,
      Option.isNone_iff_eq_none] at h
  rw [insert_of_not_isLoaded h, get?, find?_append, hnone]
  simp

/-! ### What one operation does -/

theorem readModule_eq_ok_iff : library.readModule files name = .ok unit ↔
    ∃ path text, library.path files name = .ok path ∧ files.read path = .ok text ∧
      SourceUnit.read (.module name) text = .ok unit := by
  constructor
  · intro h
    obtain ⟨path, hpath, h⟩ := exists_of_bind_eq_ok h
    split at h
    · cases h
    · next text htext =>
      split at h
      · cases h
      · next hread =>
        cases h
        exact ⟨path, text, hpath, htext, hread⟩
  · rintro ⟨path, text, hpath, htext, hread⟩
    simp only [readModule, hpath, bind, Except.bind, htext, hread]
    rfl

theorem name_of_readModule (h : library.readModule files name = .ok unit) : unit.name = name := by
  obtain ⟨path, text, -, -, hread⟩ := readModule_eq_ok_iff.mp h
  rw [SourceUnit.name, (SourceUnit.fromText_of_read hread).2]

section

variable (h : library.load files name = .ok (later, unit))

include h

theorem load_cases :
    library.get? name = some unit ∧ later = library ∨
      library.isLoaded name = false ∧ library.readModule files name = .ok unit ∧
        later = library.insert unit := by
  unfold load at h
  split at h
  · next hget =>
    cases h
    exact .inl ⟨hget, rfl⟩
  · next hget =>
    obtain ⟨read, hread, h⟩ := exists_of_bind_eq_ok h
    cases h
    exact .inr ⟨by rw [isLoaded, hget]; rfl, hread, rfl⟩

theorem get?_of_load : later.get? name = some unit := by
  rcases load_cases h with ⟨hget, rfl⟩ | ⟨hnew, hread, rfl⟩
  · exact hget
  · obtain rfl := name_of_readModule hread
    exact get?_insert_self (Bool.not_eq_true _ ▸ hnew)

theorem perform_of_load : library.perform (.load files name) = later := by
  rw [perform, h]

end

theorem perform_of_load_error {cause : ModuleError} (h : library.load files name = .error cause) :
    library.perform (.load files name) = library := by
  rw [perform, h]

theorem perform_cases (library : Library) (operation : Operation) :
    (library.perform operation).modules = library.modules ∧
        (∀ name ∈ library.acquires? operation, library.isLoaded name) ∨
      ∃ unit, library.isLoaded unit.name = false ∧
        library.perform operation = library.insert unit ∧
        library.acquires? operation = some unit.name := by
  cases operation with
  | load files name =>
    cases hload : library.load files name with
    | error cause =>
      refine .inl ⟨by rw [perform_of_load_error hload], ?_⟩
      simp [acquires?, hload]
    | ok answer =>
      have hname : library.acquires? (.load files name) = some name := by rw [acquires?, hload]
      rw [perform_of_load hload, hname]
      rcases load_cases hload with ⟨hget, hsame⟩ | ⟨hnew, hread, hinsert⟩
      · refine .inl ⟨by rw [hsame], fun known hknown ↦ ?_⟩
        cases hknown
        exact isLoaded_of_get? hget
      · obtain rfl := name_of_readModule hread
        exact .inr ⟨answer.2, hnew, hinsert, rfl⟩
  | insert unit =>
    by_cases hknown : library.isLoaded unit.name
    · refine .inl ⟨by rw [perform, insert_of_isLoaded hknown], fun name hname ↦ ?_⟩
      cases hname
      exact hknown
    · exact .inr ⟨unit, Bool.not_eq_true _ ▸ hknown, rfl, rfl⟩
  | searching directories => exact .inl ⟨rfl, by simp [acquires?]⟩

theorem get?_perform (h : library.get? name = some unit) (operation : Operation) :
    (library.perform operation).get? name = some unit := by
  rcases library.perform_cases operation with ⟨hsame, -⟩ | ⟨other, -, hinsert, -⟩
  · rwa [get?, hsame]
  · rw [hinsert]
    exact get?_insert h other

theorem nodup_keys_perform (h : library.keys.Nodup) (operation : Operation) :
    (library.perform operation).keys.Nodup := by
  rcases library.perform_cases operation with ⟨hsame, -⟩ | ⟨unit, hnew, hinsert, -⟩
  · rwa [keys, hsame]
  · have hnew := Bool.not_eq_true _ ▸ hnew
    have hfresh : lower unit.name ∉ library.keys := fun hmem ↦ hnew (isLoaded_iff_mem_keys.mpr hmem)
    rw [hinsert, insert_of_not_isLoaded hnew, keys, map_append]
    refine nodup_append.mpr ⟨h, nodup_singleton _, fun key hkey other hother heq ↦ ?_⟩
    rw [heq, mem_singleton.mp hother] at hkey
    exact hfresh hkey

theorem mem_keys_perform (library : Library) (operation : Operation) (key : String) :
    key ∈ (library.perform operation).keys ↔
      key ∈ library.keys ∨ ∃ name ∈ library.acquires? operation, lower name = key := by
  rcases library.perform_cases operation with ⟨hsame, hknown⟩ | ⟨unit, hnew, hinsert, hname⟩
  · rw [keys, hsame]
    refine ⟨.inl, ?_⟩
    rintro (hkey | ⟨name, hname, rfl⟩)
    · exact hkey
    · exact isLoaded_iff_mem_keys.mp (hknown name hname)
  · rw [hinsert, insert_of_not_isLoaded (Bool.not_eq_true _ ▸ hnew), hname]
    simp [keys, eq_comm]

/-! ### What a history does -/

/-- A module that is loaded stays the same along every run of operations. -/
theorem get?_run (h : library.get? name = some unit) (operations : List Operation) :
    (library.run operations).get? name = some unit := by
  induction operations generalizing library with
  | nil => exact h
  | cons operation rest ih => exact ih (get?_perform h operation)

theorem nodup_keys_run (h : library.keys.Nodup) (operations : List Operation) :
    (library.run operations).keys.Nodup := by
  induction operations generalizing library with
  | nil => exact h
  | cons operation rest ih => exact ih (nodup_keys_perform h operation)

theorem mem_keys_run (library : Library) (operations : List Operation) (key : String) :
    key ∈ (library.run operations).keys ↔
      key ∈ library.keys ∨ key ∈ (library.acquired operations).map lower := by
  induction operations generalizing library with
  | nil => simp [run, acquired]
  | cons operation rest ih =>
    rw [run, foldl_cons, ← run, ih, mem_keys_perform, acquired, map_append,
      mem_append, or_assoc]
    simp

/-- The library with which a history starts: no module is known yet. -/
abbrev fresh (directories? : Option (List String)) : Library :=
  { directories? }

/-- From an empty library on, the loaded modules are those acquired, up to the case of letters. -/
theorem isLoaded_run_iff (directories? : Option (List String)) (operations : List Operation) :
    ((fresh directories?).run operations).isLoaded name ↔
      ∃ known ∈ (fresh directories?).acquired operations, sameLetters known name := by
  rw [isLoaded_iff_mem_keys, mem_keys_run]
  simp [keys, sameLetters_iff]

/-- Each of the acquired names counts once, up to the case of letters. -/
theorem size_run (directories? : Option (List String)) (operations : List Operation) :
    ((fresh directories?).run operations).size =
      (((fresh directories?).acquired operations).map lower).dedup.length := by
  have hnodup : ((fresh directories?).run operations).keys.Nodup :=
    nodup_keys_run (by simp [keys]) operations
  have hperm : ((fresh directories?).run operations).keys.Perm
      (((fresh directories?).acquired operations).map lower).dedup := by
    refine (perm_ext_iff_of_nodup hnodup (nodup_dedup _)).mpr fun key ↦ ?_
    rw [mem_keys_run, mem_dedup]
    simp [keys]
  rw [← hperm.length_eq, keys, length_map, size]

/-- Modules are loaded once and never replaced. Whatever was done with a library, a module that is
known is handed out by every later load, under its name in any case and whatever the files hold; it
is the one that was loaded or inserted first. Inserting another one of the name changes nothing, nor
does a load that fails, and the library holds as many modules as different names were loaded or
inserted with success. -/
theorem load_after_isLoaded (directories? : Option (List String)) (history : List Operation)
    {library : Library} (hlibrary : library = (fresh directories?).run history) :
    (∀ name, library.isLoaded name = true → ∃ unit, library.get? name = some unit ∧
      ∀ (later : List Operation) (variant : String), sameLetters variant name = true →
        (library.run later).isLoaded variant = true ∧
          ∀ files, (library.run later).load files variant = .ok (library.run later, unit)) ∧
    (∀ files name next unit, library.load files name = .ok (next, unit) →
      library.perform (.load files name) = next ∧ next.get? name = some unit) ∧
    (∀ unit, library.isLoaded unit.name = false →
      (library.insert unit).get? unit.name = some unit) ∧
    (∀ unit, library.isLoaded unit.name = true → library.insert unit = library) ∧
    (∀ files name cause, library.load files name = .error cause →
      library.perform (.load files name) = library) ∧
    (∀ name, library.isLoaded name = true ↔
      ∃ known ∈ (fresh directories?).acquired history, sameLetters known name = true) ∧
    library.size = (((fresh directories?).acquired history).map lower).dedup.length := by
  subst hlibrary
  refine ⟨fun name hname ↦ ?_, fun _ _ _ _ hload ↦ ⟨perform_of_load hload, get?_of_load hload⟩,
    fun _ hnew ↦ get?_insert_self (Bool.not_eq_true _ ▸ hnew), fun _ ↦ insert_of_isLoaded,
    fun _ _ _ ↦ perform_of_load_error, fun _ ↦ isLoaded_run_iff directories? history,
    size_run directories? history⟩
  obtain ⟨unit, hunit⟩ := Option.isSome_iff_exists.mp hname
  refine ⟨unit, hunit, fun later variant hvariant ↦ ?_⟩
  have hstays := get?_run hunit later
  rw [← get?_of_sameLetters _ hvariant] at hstays
  exact ⟨isLoaded_of_get? hstays, fun files ↦ load_of_get? files hstays⟩

def shelf : Files :=
  { origin := "/"
    home := "/"
    entries := [(["shelf"], .directory),
      (["shelf", "dims.xmod"], .text ("<OmniFortranModule><typeTable/><identifiers/>" ++
        "<declarations/></OmniFortranModule>"))] }

/-- The module is loaded, its file and the directory are gone, it is loaded again and another one
is looked for in vain. -/
def lostShelf : List Operation :=
  [.searching ["/shelf"], .load shelf "Dims", .searching [],
    .load { shelf with entries := [] } "DIMS", .load { shelf with entries := [] } "grid"]

/-- The module is handed out without its file, whatever comes after. -/
theorem load_after_isLoaded_of_lostShelf :
    ((fresh none).run lostShelf).isLoaded "dims" = true ∧ ((fresh none).run lostShelf).size = 1 ∧
      ∃ unit, ∀ later files, (((fresh none).run lostShelf).run later).load files "diMS" =
        .ok (((fresh none).run lostShelf).run later, unit) := by
  have hloaded : ((fresh none).run lostShelf).isLoaded "dims" = true := by decide +kernel
  obtain ⟨hstays, -, -, -, -, -, hsize⟩ := load_after_isLoaded none lostShelf rfl
  obtain ⟨unit, -, hunit⟩ := hstays "dims" hloaded
  refine ⟨hloaded, hsize.trans (by decide +kernel), unit, fun later files ↦ ?_⟩
  exact (hunit later "diMS" (by decide)).2 files

end LoopDirectives.Library
