import Mathlib.Data.List.Forall2
import LoopDirectives.CommandLine.Execution
import LoopDirectives.Proofs.Run.Independence

/-!
# Several units at once

The command over several input files does what it does over each of them by itself
(`run_batch`), though all units of a run share one library of modules. One unit is dealt with alike
after any others (`Sums.process`), and so are all of them, one after the other (`sums_foldl`).
-/

namespace LoopDirectives.CommandLine

open List

theorem exists_mapM {Cause Item Value : Type} {give : Item → Except Cause Value}
    {items : List Item} (h : ∀ item ∈ items, ∃ value, give item = .ok value) :
    ∃ values, items.mapM give = .ok values ∧
      List.Forall₂ (fun item value ↦ give item = .ok value) items values := by
  induction items with
  | nil => exact ⟨[], rfl, .nil⟩
  | cons item rest ih =>
    obtain ⟨value, hvalue⟩ := h item (mem_cons_self ..)
    obtain ⟨values, hvalues, hall⟩ := ih fun other hother ↦ h other (mem_cons_of_mem _ hother)
    refine ⟨value :: values, ?_, .cons hvalue hall⟩
    rw [mapM_cons, hvalue, hvalues]
    rfl

theorem map_eq_map_of_forall₂ {Item Other Value : Type} {related : Item → Other → Prop}
    {items : List Item} {others : List Other} {give : Item → Value} {giveOther : Other → Value}
    (h : List.Forall₂ related items others)
    (hgive : ∀ item other, related item other → give item = giveOther other) :
    items.map give = others.map giveOther := by
  rw [← forall₂_eq_eq_eq, forall₂_map_left_iff, forall₂_map_right_iff]
  exact h.imp hgive

/-! ### One unit -/

theorem transformInput_alike (context : Context) {origin one other : Library}
    (hone : Library.Reflects context.files origin one)
    (hother : Library.Reflects context.files origin other) (input : Input) :
    (∃ failure, transformInput context one input = .error failure ∧
      transformInput context other input = .error failure) ∨
    ∃ result otherResult, transformInput context one input = .ok result ∧
      transformInput context other input = .ok otherResult ∧
      result.1.content = otherResult.1.content ∧ result.1.report.Alike otherResult.1.report ∧
      Library.Reflects context.files origin result.2 := by
  unfold transformInput
  split
  · exact .inl ⟨_, rfl, rfl⟩
  · next program _ =>
    have alike : Workspace.Alike context.files origin { program, library := one }
        { program, library := other } :=
      ⟨rfl, hone, hother⟩
    rcases Run.transform_alike alike with
      ⟨failure, hfails, hotherFails⟩ | ⟨result, otherResult, hresult, hotherResult, hend, hreport⟩
    · rw [hfails, hotherFails]
      exact .inl ⟨failure, rfl, rfl⟩
    · rw [hresult, hotherResult]
      exact .inr ⟨_, _, rfl, rfl, congrArg SourceUnit.write hend.program, hreport, hend.reflects⟩

section Process

variable {job : Job} {state : State} {input : Input} (hok : state.writeError? = none)

include hok

theorem process_of_error {failure : FatalError}
    (h : transformInput { settings := job.settings, files := state.files } state.library input =
      .error failure) :
    state.process job input = { state with fatal := state.fatal ++ [failure] } := by
  rw [State.process, hok, h]
  rfl

theorem process_of_ok (htarget : target? job.arguments input = none) {output : Output}
    {library : Library}
    (h : transformInput { settings := job.settings, files := state.files } state.library input =
      .ok (output, library)) :
    state.process job input =
      { state with
        library
        printed := state.printed ++ [output.content]
        diagnostics := state.diagnostics ++ output.report.diagnostics
        failing := state.failing + if output.report.hasErrors then 1 else 0 } := by
  rw [State.process, hok, h, htarget]
  cases herrors : output.report.hasErrors <;> simp [State.note, State.write, herrors]

end Process

/-! ### All units -/

def State.headings (state : State) : List (String × Nat × Severity) :=
  state.diagnostics.map Diagnostic.heading

def Job.start (job : Job) (files : Files) : State :=
  { files, library := job.settings.library }

/-- Where the command stands after the unit if there is no other one. -/
def Job.alone (job : Job) (files : Files) (input : Input) : State :=
  (job.start files).process job input

theorem reflects_start (job : Job) (files : Files) :
    Library.Reflects files job.settings.library (job.start files).library :=
  Library.reflects_of_modules_eq_nil rfl

/-- What the command has done is what it would have done for each unit by itself. Nothing but
standard output was written to. -/
structure Sums (job : Job) (files : Files) (inputs : List Input) (state : State) : Prop where
  unchanged : state.files = files
  reflects : Library.Reflects files job.settings.library state.library
  writeError? : state.writeError? = none
  printed : state.printed = inputs.flatMap fun input ↦ (job.alone files input).printed
  headings : state.headings = inputs.flatMap fun input ↦ (job.alone files input).headings
  fatal : state.fatal = inputs.flatMap fun input ↦ (job.alone files input).fatal
  failing : 0 < state.failing ↔ ∃ input ∈ inputs, 0 < (job.alone files input).failing

section Sums

variable {job : Job} {files : Files} {inputs : List Input}

theorem sums_start : Sums job files [] (job.start files) :=
  ⟨rfl, reflects_start job files, rfl, rfl, rfl, rfl, by simp [Job.start]⟩

/-- A unit that goes to no file is handled as it would be by itself. -/
theorem Sums.process {state : State} (sums : Sums job files inputs state) {input : Input}
    (htarget : target? job.arguments input = none) :
    Sums job files (inputs ++ [input]) (state.process job input) := by
  obtain ⟨rfl, hreflects, hok, hprinted, hheadings, hfatal, hfailing⟩ := sums
  rcases transformInput_alike { settings := job.settings, files := state.files } hreflects
    (reflects_start job state.files) input with
    ⟨failure, hfails, hfailsAlone⟩ |
    ⟨result, resultAlone, hresult, hresultAlone, hcontent, hreport, hlibrary⟩
  · have halone : job.alone state.files input = _ := process_of_error rfl hfailsAlone
    rw [process_of_error hok hfails]
    refine ⟨rfl, hreflects, hok, ?_, ?_, ?_, ?_⟩
    · simp [halone, hprinted, Job.start]
    · simpa [halone, State.headings, Job.start] using hheadings
    · simp [halone, hfatal, Job.start]
    · simp [halone, hfailing, Job.start]
  · have halone : job.alone state.files input = _ := process_of_ok rfl htarget hresultAlone
    rw [process_of_ok hok htarget hresult]
    refine ⟨rfl, hlibrary, hok, ?_, ?_, ?_, ?_⟩
    · simp [halone, hprinted, hcontent, Job.start]
    · rw [State.headings] at hheadings
      simp [halone, State.headings, hheadings, hreport.headings, Job.start]
    · simp [halone, hfatal, Job.start]
    · dsimp only
      rw [Nat.add_pos_iff_pos_or_pos, hfailing]
      simp [halone, hreport.hasErrors, Job.start]

/-- So are all units of a job that writes no files. -/
theorem sums_foldl (htarget : ∀ input ∈ inputs, target? job.arguments input = none) :
    Sums job files inputs (inputs.foldl (State.process job) (job.start files)) := by
  -- The units so far are a beginning of the list, which grows at its end.
  suffices h : ∀ (done rest : List Input) (state : State), done ++ rest = inputs →
      Sums job files done state → Sums job files inputs (rest.foldl (State.process job) state) from
    h [] inputs _ rfl sums_start
  intro done rest
  induction rest generalizing done with
  | nil =>
    intro state hall sums
    rwa [← hall, append_nil]
  | cons input rest ih =>
    intro state hall sums
    refine ih (done ++ [input]) _ (by rw [← hall]; simp) (sums.process (htarget input ?_))
    rw [← hall]
    simp

end Sums

/-! ### The command -/

theorem ending_eq_failed_iff {state : State} (hok : state.writeError? = none) (strict : Bool) :
    (∃ cause, state.ending strict = .failed cause) ↔
      state.fatal ≠ [] ∨ strict ∧ 0 < state.failing := by
  rw [State.ending, hok, ← length_pos_iff]
  dsimp only
  split
  · simp [*]
  · split <;> simp_all

def State.result (state : State) (strict : Bool) : Result :=
  { ending := state.ending strict
    files := state.files
    printed := state.printed
    diagnostics := state.diagnostics
    fatal := state.fatal }

def Result.headings (result : Result) : List (String × Nat × Severity) :=
  result.diagnostics.map Diagnostic.heading

def Result.Fails (result : Result) : Prop :=
  ∃ cause, result.ending = .failed cause

/-- A run that comes to several separate ones: it prints and reports what they do, in their order
and up to the wording of messages, and fails exactly if one of them does. -/
structure Result.Joins (batch : Result) (separate : List Result) : Prop where
  printed : batch.printed = separate.flatMap Result.printed
  headings : batch.headings = separate.flatMap Result.headings
  fatal : batch.fatal = separate.flatMap Result.fatal
  fails : batch.Fails ↔ ∃ result ∈ separate, result.Fails

theorem joins_execute {job : Job} (htarget : ∀ input, target? job.arguments input = none)
    (files : Files) :
    (job.execute files).files = files ∧ (job.execute files).Joins
      (job.inputs.map fun input ↦ (job.alone files input).result job.arguments.strict) := by
  have sums : Sums job files job.inputs _ := sums_foldl fun input _ ↦ htarget input
  have halone (input : Input) : (job.alone files input).writeError? = none :=
    (sums_start.process (htarget input)).writeError?
  refine ⟨sums.unchanged, ?_, ?_, ?_, ?_⟩
  · rw [flatMap_map]
    exact sums.printed
  · rw [flatMap_map]
    exact sums.headings
  · rw [flatMap_map]
    exact sums.fatal
  · have hfatal : (job.inputs.flatMap fun input ↦ (job.alone files input).fatal) ≠ [] ↔
        ∃ input ∈ job.inputs, (job.alone files input).fatal ≠ [] := by
      simp [flatMap_eq_nil_iff]
    refine (ending_eq_failed_iff sums.writeError? _).trans ?_
    rw [sums.failing, sums.fatal, hfatal]
    simp only [mem_map, exists_exists_and_eq_and, Result.Fails, State.result,
      ending_eq_failed_iff (halone _)]
    constructor
    · rintro (⟨input, hinput, h⟩ | ⟨hstrict, input, hinput, h⟩)
      · exact ⟨input, hinput, .inl h⟩
      · exact ⟨input, hinput, .inr ⟨hstrict, h⟩⟩
    · rintro ⟨input, hinput, h | ⟨hstrict, h⟩⟩
      · exact .inl ⟨input, hinput, h⟩
      · exact .inr ⟨hstrict, input, hinput, h⟩

theorem joins_refused (cause : Refusal) (files : Files) {inputs : List Input} (h : inputs ≠ []) :
    Result.Joins { ending := .failed (.refused cause), files }
      (inputs.map fun _ ↦ { ending := .failed (.refused cause), files }) := by
  obtain ⟨input, rest, rfl⟩ := exists_cons_of_ne_nil h
  refine ⟨by simp, by simp [Result.headings], by simp, fun hfails ↦ ?_, fun _ ↦ ⟨_, rfl⟩⟩
  exact ⟨_, mem_cons_self .., hfails⟩

def Arguments.only (arguments : Arguments) (path : String) : Arguments :=
  { arguments with files := [path] }

section Run

variable {arguments : Arguments} {files : Files} {standardInput path : String} {inputs : List Input}
  (houtput : arguments.output? = none) (hupdate : arguments.update = false)

include houtput hupdate

theorem run_eq (hfiles : arguments.files ≠ [])
    (hinputs : arguments.files.mapM (readInput files) = .ok inputs) :
    run arguments files standardInput =
      match baseSettings arguments files with
      | .error cause => { ending := .failed (.refused cause), files }
      | .ok settings =>
        Job.execute { arguments, settings := overrideSettings arguments settings, inputs }
          files := by
  have htarget : checkTarget arguments = .ok () := by simp [checkTarget, houtput, hupdate]
  have hread : readInputs arguments files standardInput = .ok inputs := by
    rw [readInputs, if_neg (by simpa using hfiles), hinputs]
  rw [run, prepare, htarget, hread]
  cases baseSettings arguments files <;> rfl

theorem run_only_eq {input : Input} (hinput : readInput files path = .ok input)
    (inputs : List Input) : run (arguments.only path) files standardInput =
      match baseSettings arguments files with
      | .error cause => { ending := .failed (.refused cause), files }
      | .ok settings =>
        (Job.alone { arguments, settings := overrideSettings arguments settings, inputs } files
          input).result arguments.strict := by
  have hinputs : (arguments.only path).files.mapM (readInput files) = .ok [input] := by
    rw [Arguments.only, mapM_cons, hinput]
    rfl
  have honly : run (arguments.only path) files standardInput = _ :=
    run_eq houtput hupdate (cons_ne_nil _ _) hinputs
  rw [honly]
  rfl

theorem printed_only_eq_nil {text : String} {cause : UnitError}
    (htext : files.read path = .ok text) (hcause : SourceUnit.read .program text = .error cause) :
    (run (arguments.only path) files standardInput).printed = [] := by
  have hinput : readInput files path = .ok { path? := some path, content := text } := by
    rw [readInput, htext]
  rw [run_only_eq houtput hupdate hinput []]
  cases baseSettings arguments files with
  | error refusal => rfl
  | ok settings =>
    have hfails (context : Context) (library : Library) :
        transformInput context library { path? := some path, content := text } =
          .error { file := path, cause } := by
      rw [transformInput, hcause]
      rfl
    exact congrArg State.printed (process_of_error rfl (hfails _ _))

end Run

/-- The command over several readable files prints what it prints over each of them by itself, in
order and nothing for malformed ones, reports the same up to the wording of messages, and fails
exactly if it fails over one of them. -/
theorem run_batch (arguments : Arguments) (files : Files) (standardInput : String)
    (hfiles : arguments.files ≠ [])
    (hreadable : ∀ path ∈ arguments.files, ∃ text, files.read path = .ok text)
    (houtput : arguments.output? = none) (hupdate : arguments.update = false) :
    (run arguments files standardInput).Joins
        (arguments.files.map fun path ↦ run (arguments.only path) files standardInput) ∧
      (run arguments files standardInput).files = files ∧
      ∀ path text cause, files.read path = .ok text →
        SourceUnit.read .program text = .error cause →
        (run (arguments.only path) files standardInput).printed = [] := by
  obtain ⟨inputs, hinputs, hpaths⟩ : ∃ inputs, arguments.files.mapM (readInput files) = .ok inputs ∧
      List.Forall₂ (fun path input ↦ readInput files path = .ok input) arguments.files inputs := by
    refine exists_mapM fun path hpath ↦ ?_
    obtain ⟨text, htext⟩ := hreadable path hpath
    exact ⟨{ path? := some path, content := text }, by rw [readInput, htext]⟩
  have hseparate : (arguments.files.map fun path ↦ run (arguments.only path) files standardInput) =
      inputs.map _ :=
    map_eq_map_of_forall₂ hpaths fun _ _ h ↦ run_only_eq houtput hupdate h inputs
  rw [hseparate, run_eq houtput hupdate hfiles hinputs]
  refine (and_assoc.mp ⟨?_, fun path text cause ↦ printed_only_eq_nil houtput hupdate⟩)
  cases baseSettings arguments files with
  | error cause =>
    refine ⟨joins_refused cause files fun hnil ↦ hfiles ?_, rfl⟩
    rw [← List.length_eq_zero_iff, hpaths.length_eq, hnil]
    rfl
  | ok settings =>
    have htarget (input : Input) : target? arguments input = none := by
      simp [target?, houtput, hupdate]
    exact (joins_execute htarget files).symm

def boundedLoop (module : String) : String :=
  "<XcodeProgram><typeTable/><globalSymbols/><globalDeclarations>" ++
    "<FpragmaStatement lineno='4'>lsm import-bounds module(" ++ module ++
    ") array(t)</FpragmaStatement><FdoStatement><Var>i</Var><indexRange><lowerBound/>" ++
    "<upperBound/></indexRange><body/></FdoStatement></globalDeclarations></XcodeProgram>"

/-- Two units, a malformed one and a module whose array has a bound of a type that is missing. -/
def crowdedShelf : Files :=
  { origin := "/"
    home := "/"
    entries := [(["one"], .text (boundedLoop "Dims")), (["two"], .text (boundedLoop "DIMS")),
      (["three"], .text "<XcodeProgram>"),
      (["dims.xmod"], .text ("<OmniFortranModule><typeTable><FbasicType type='A' ref='Freal'>" ++
        "<indexRange><lowerBound><FintConstant type='K'>1</FintConstant></lowerBound>" ++
        "<upperBound/></indexRange></FbasicType></typeTable><identifiers><id type='A'>" ++
        "<name>t</name></id></identifiers><declarations/></OmniFortranModule>"))] }

def overShelf : Arguments :=
  { files := ["one", "three", "two"] }

/-- The run joins the separate ones and fails with the malformed unit, though the last unit finds
the module loaded under the name that the first one has for it. -/
theorem run_batch_crowdedShelf :
    (∀ path ∈ overShelf.files, ∃ text, crowdedShelf.read path = .ok text) ∧
      (run overShelf crowdedShelf "").Joins
        (overShelf.files.map fun path ↦ run (overShelf.only path) crowdedShelf "") ∧
      (run overShelf crowdedShelf "").Fails := by
  have hall : (overShelf.files.all fun path ↦
      (crowdedShelf.read path).toOption.any fun _ ↦ true) = true := by
    decide +kernel
  have hreadable : ∀ path ∈ overShelf.files, ∃ text, crowdedShelf.read path = .ok text := by
    intro path hpath
    obtain ⟨text, htext, -⟩ := exists_of_any_toOption (List.all_eq_true.mp hall path hpath)
    exact ⟨text, htext⟩
  have hmalformed : (run (overShelf.only "three") crowdedShelf "").ending =
      .failed (.failedUnits 1) := by
    decide +kernel
  have hjoins := (run_batch overShelf crowdedShelf "" (List.cons_ne_nil _ _) hreadable rfl rfl).1
  refine ⟨hreadable, hjoins, hjoins.fails.mpr ⟨_, List.mem_map_of_mem ?_, _, hmalformed⟩⟩
  simp [overShelf]

end LoopDirectives.CommandLine
