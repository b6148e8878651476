import LoopDirectives.Proofs.CommandLine.Batch
import LoopDirectives.Proofs.Run.Integrity

/-!
# Inputs that cannot be used

The command passes over a text that is no unit: the other units are transformed, written and
reported on as if it were not among the inputs (`clean_foldl`), and its failure is noted
(`fatal_foldl`). An input file that cannot be read is another matter: the command is then refused
and does nothing for the other files either (`run_of_faulty_files`).
-/

namespace LoopDirectives.CommandLine

open List

variable {job : Job} {state other : State} {input : Input} {failure : FatalError}

theorem exists_mapM_eq_error {Cause Item Value : Type} {give : Item → Except Cause Value}
    {items : List Item} {item : Item} {cause : Cause} (hitem : item ∈ items)
    (h : give item = .error cause) :
    ∃ first ∈ items, ∃ cause, give first = .error cause ∧ items.mapM give = .error cause := by
  induction items with
  | nil => cases hitem
  | cons first rest ih =>
    cases hfirst : give first with
    | error cause =>
      refine ⟨first, mem_cons_self .., cause, hfirst, ?_⟩
      rw [mapM_cons, hfirst]
      rfl
    | ok value =>
      have hrest : item ∈ rest := by
        refine mem_of_ne_of_mem ?_ hitem
        rintro rfl
        rw [h] at hfirst
        cases hfirst
      obtain ⟨later, hlater, cause, hcause, hall⟩ := ih hrest
      refine ⟨later, mem_cons_of_mem _ hlater, cause, hcause, ?_⟩
      rw [mapM_cons, hfirst, hall]
      rfl

/-! ### One unit -/

def Input.failure? (input : Input) : Option FatalError :=
  match SourceUnit.read .program input.content with
  | .error cause => some { file := input.name, cause }
  | .ok _ => none

theorem transformInput_of_failure? (h : input.failure? = some failure) (context : Context)
    (library : Library) : transformInput context library input = .error failure := by
  cases hread : SourceUnit.read .program input.content with
  | error cause =>
    simp only [Input.failure?, hread] at h
    simp only [transformInput, hread]
    exact congrArg Except.error (Option.some.inj h)
  | ok program =>
    simp only [Input.failure?, hread] at h
    cases h

theorem exists_transformInput (h : input.failure? = none) (context : Context)
    (library : Library) :
    ∃ output after, transformInput context library input = .ok (output, after) := by
  cases hread : SourceUnit.read .program input.content with
  | error cause =>
    simp only [Input.failure?, hread] at h
    cases h
  | ok program =>
    have hvalid := (SourceUnit.fromText_of_read hread).1.validate_eq_ok
    have hrun : ∃ after report, Run.transform context { program, library } = .ok (after, report) :=
      ⟨_, _, Run.transform_of_validate context hvalid⟩
    obtain ⟨after, report, hrun⟩ := hrun
    simp only [transformInput, hread, hrun]
    exact ⟨_, _, rfl⟩

theorem process_eq_write (hok : state.writeError? = none) {output : Output} {library : Library}
    (h : transformInput { settings := job.settings, files := state.files } state.library input =
      .ok (output, library)) :
    state.process job input = ({ state with library }.note output.report).write
      (target? job.arguments input) output.content := by
  rw [State.process, hok, h]
  rfl

theorem process_of_writeError? (h : state.writeError? ≠ none) :
    state.process job input = state := by
  rw [State.process, if_pos (Option.isSome_iff_ne_none.mpr h)]

def State.clean (state : State) : State :=
  { state with fatal := [] }

theorem clean_write (state : State) (target? : Option String) (content : String) :
    (state.write target? content).clean = state.clean.write target? content ∧
      (state.write target? content).fatal = state.fatal := by
  cases target? with
  | none => exact ⟨rfl, rfl⟩
  | some path =>
    unfold State.write State.clean
    dsimp only
    cases state.files.write path content <;> exact ⟨rfl, rfl⟩

theorem clean_process_congr (h : state.clean = other.clean) (job : Job) (input : Input) :
    (state.process job input).clean = (other.process job input).clean := by
  have hprocess (state : State) :
      (state.process job input).clean = (state.clean.process job input).clean := by
    by_cases hstop : state.writeError? = none
    · have hclean : state.clean.writeError? = none := hstop
      cases hresult : transformInput { settings := job.settings, files := state.files }
          state.library input with
      | error failure =>
        rw [process_of_error hstop hresult, process_of_error hclean hresult]
        rfl
      | ok result =>
        rw [process_eq_write hstop hresult, process_eq_write hclean hresult, (clean_write ..).1,
          (clean_write ..).1]
        rfl
    · have hclean : state.clean.writeError? ≠ none := hstop
      rw [process_of_writeError? hstop, process_of_writeError? hclean]
      rfl
  rw [hprocess state, hprocess other, h]

theorem clean_process_of_failure? (h : input.failure? = some failure) (state : State) :
    (state.process job input).clean = state.clean := by
  by_cases hstop : state.writeError? = none
  · rw [process_of_error hstop (transformInput_of_failure? h _ _)]
    rfl
  · rw [process_of_writeError? hstop]

/-! ### All units -/

/-- Faulty inputs make no difference to what a job does with the others. -/
theorem clean_foldl (job : Job) (inputs : List Input) (h : state.clean = other.clean) :
    (inputs.foldl (State.process job) state).clean =
      ((inputs.filter (·.failure?.isNone)).foldl (State.process job) other).clean := by
  induction inputs generalizing state other with
  | nil => exact h
  | cons input rest ih =>
    rw [foldl_cons]
    cases hfailure : input.failure? with
    | none =>
      rw [filter_cons_of_pos (by rw [hfailure]; rfl), foldl_cons]
      exact ih (clean_process_congr h job input)
    | some failure =>
      rw [filter_cons_of_neg (by rw [hfailure]; exact Bool.false_ne_true)]
      exact ih ((clean_process_of_failure? hfailure state).trans h)

theorem foldl_of_writeError? (inputs : List Input) (h : state.writeError? ≠ none) :
    inputs.foldl (State.process job) state = state := by
  induction inputs with
  | nil => rfl
  | cons input rest ih => rw [foldl_cons, process_of_writeError? h, ih]

/-- If everything could be written, the fatal errors are those of the faulty inputs, in order. -/
theorem fatal_foldl (job : Job) (inputs : List Input) (state : State)
    (hok : (inputs.foldl (State.process job) state).writeError? = none) :
    (inputs.foldl (State.process job) state).fatal =
      state.fatal ++ inputs.filterMap Input.failure? := by
  induction inputs generalizing state with
  | nil => exact (append_nil _).symm
  | cons input rest ih =>
    have hstart : state.writeError? = none := by
      by_contra hstop
      rw [foldl_of_writeError? _ hstop] at hok
      exact hstop hok
    rw [foldl_cons] at hok ⊢
    rw [ih _ hok]
    cases hfailure : input.failure? with
    | none =>
      obtain ⟨output, library, hresult⟩ := exists_transformInput hfailure
        { settings := job.settings, files := state.files } state.library
      rw [process_eq_write hstart hresult, (clean_write ..).2, filterMap_cons_none hfailure]
      rfl
    | some failure =>
      rw [process_of_error hstart (transformInput_of_failure? hfailure _ _),
        filterMap_cons_some hfailure, append_assoc]
      rfl

/-! ### The command -/

def holdsUnit (files : Files) (path : String) : Bool :=
  (files.read path).toOption.any fun text ↦ (SourceUnit.read .program text).toBool

def Arguments.units (arguments : Arguments) (files : Files) : Arguments :=
  { arguments with files := arguments.files.filter (holdsUnit files) }

/-- What the command does for the input files that hold a unit if they are its only ones. -/
def runUnits (arguments : Arguments) (files : Files) (standardInput : String) : Result :=
  if (arguments.units files).files = [] then { ending := .success, files }
  else run (arguments.units files) files standardInput

/-- Two runs write and print the same units and show the same messages. -/
structure Result.SameWork (one other : Result) : Prop where
  files : one.files = other.files
  printed : one.printed = other.printed
  diagnostics : one.diagnostics = other.diagnostics

theorem sameWork_execute (job : Job) (files : Files) :
    (job.execute files).SameWork
      (Job.execute { job with inputs := job.inputs.filter (·.failure?.isNone) } files) := by
  have hclean := clean_foldl job job.inputs (rfl : (job.start files).clean = _)
  have hfiles := congrArg State.files hclean
  have hprinted := congrArg State.printed hclean
  have hdiagnostics := congrArg State.diagnostics hclean
  exact ⟨hfiles, hprinted, hdiagnostics⟩

theorem ending_execute (job : Job) (files : Files) (h : job.inputs.filterMap Input.failure? ≠ []) :
    (∃ reason, (job.execute files).ending = .failed (.unwritable reason)) ∨
      (job.execute files).ending =
        .failed (.failedUnits (job.inputs.filterMap Input.failure?).length) := by
  change (∃ reason, (job.inputs.foldl (State.process job) (job.start files)).ending _ = _) ∨
    (job.inputs.foldl (State.process job) (job.start files)).ending _ = _
  unfold State.ending
  cases hstop : (job.inputs.foldl (State.process job) (job.start files)).writeError? with
  | some reason => exact .inl ⟨reason, rfl⟩
  | none =>
    have hfatal : (job.inputs.foldl (State.process job) (job.start files)).fatal =
        job.inputs.filterMap Input.failure? :=
      fatal_foldl job job.inputs (job.start files) hstop
    dsimp only
    rw [hfatal, if_pos (length_pos_iff.mpr h)]
    exact .inr rfl

theorem printed_execute_ne_nil (htarget : ∀ input, target? job.arguments input = none)
    (files : Files) (hinput : input ∈ job.inputs) (hunit : input.failure? = none) :
    (job.execute files).printed ≠ [] := by
  obtain ⟨output, library, hresult⟩ := exists_transformInput hunit
    { settings := job.settings, files } job.settings.library
  have halone : job.alone files input = _ := process_of_ok rfl (htarget input) hresult
  rw [(joins_execute htarget files).2.printed]
  intro hnil
  have hprinted : (job.alone files input).printed = [] :=
    flatMap_eq_nil_iff.mp hnil _ (mem_map_of_mem hinput)
  rw [halone] at hprinted
  exact append_ne_nil_of_right_ne_nil _ (cons_ne_nil _ _) hprinted

section Run

variable {arguments : Arguments} {files : Files} {standardInput path : String} {settings : Settings}
  {inputs : List Input} {paths : List String}

section

variable (htarget : checkTarget arguments = .ok ())
  (hsettings : baseSettings arguments files = .ok settings)

include htarget hsettings

theorem run_of_inputs (hfiles : arguments.files ≠ [])
    (hinputs : arguments.files.mapM (readInput files) = .ok inputs) :
    run arguments files standardInput =
      Job.execute { arguments, settings := overrideSettings arguments settings, inputs }
        files := by
  have hread : readInputs arguments files standardInput = .ok inputs := by
    rw [readInputs, if_neg (by simpa using hfiles), hinputs]
  rw [run, prepare, htarget, hsettings, hread]
  rfl

theorem run_of_unreadable {reason : FileError} (hpath : path ∈ arguments.files)
    (hreason : files.read path = .error reason) :
    ∃ reason, run arguments files standardInput =
      { ending := .failed (.refused (.input reason)), files } := by
  obtain ⟨first, -, cause, hcause, hall⟩ := exists_mapM_eq_error hpath
    (show readInput files path = .error (.input reason) by rw [readInput, hreason])
  have hread : readInputs arguments files standardInput = .error cause := by
    rw [readInputs, if_neg (by simpa using ne_nil_of_mem hpath), hall]
  unfold readInput at hcause
  split at hcause
  · next first _ =>
    cases hcause
    refine ⟨first, ?_⟩
    rw [run, prepare, htarget, hsettings, hread]
    rfl
  · cases hcause

end

theorem checkTarget_units (htarget : checkTarget arguments = .ok ())
    (hunits : (arguments.units files).files ≠ []) :
    checkTarget (arguments.units files) = .ok () := by
  have hlength : (arguments.units files).files.length ≤ arguments.files.length :=
    length_filter_le _ _
  unfold checkTarget at htarget ⊢
  split at htarget
  · cases htarget
  · split at htarget
    · cases htarget
    · next hseveral =>
      rw [if_neg (by simp [hunits]), if_neg]
      intro h
      rw [Bool.and_eq_true, decide_eq_true_eq] at h hseveral
      exact hseveral ⟨h.1, by omega⟩

def readable (files : Files) (paths : List String) : List Input :=
  paths.filterMap fun path ↦ (readInput files path).toOption

section Readable

variable {path text : String} (htext : files.read path = .ok text)

include htext

theorem readInput_of_read :
    readInput files path = .ok { path? := some path, content := text } := by
  rw [readInput, htext]

theorem holdsUnit_of_read : holdsUnit files path =
    Option.isNone (Input.failure? { path? := some path, content := text }) := by
  rw [holdsUnit, htext, Input.failure?]
  change (SourceUnit.read .program text).toBool = _
  cases SourceUnit.read .program text <;> rfl

end Readable

theorem mapM_readInput (h : ∀ path ∈ paths, ∃ text, files.read path = .ok text) :
    paths.mapM (readInput files) = .ok (readable files paths) := by
  induction paths with
  | nil => rfl
  | cons path rest ih =>
    obtain ⟨text, htext⟩ := h path (mem_cons_self ..)
    rw [mapM_cons, ih fun other hother ↦ h other (mem_cons_of_mem _ hother), readable,
      readable, filterMap_cons_some (by rw [readInput_of_read htext]; rfl),
      readInput_of_read htext]
    rfl

theorem filter_readable (files : Files) (paths : List String) :
    (readable files paths).filter (·.failure?.isNone) =
      readable files (paths.filter (holdsUnit files)) := by
  rw [readable, readable, filter_filterMap, filterMap_filter]
  refine filterMap_congr fun path _ ↦ ?_
  cases htext : files.read path with
  | error reason =>
    rw [readInput, holdsUnit, htext]
    rfl
  | ok text =>
    rw [readInput_of_read htext, holdsUnit_of_read htext]
    exact Option.filter_some

theorem length_filterMap_failure? (h : ∀ path ∈ paths, ∃ text, files.read path = .ok text) :
    ((readable files paths).filterMap Input.failure?).length =
      paths.countP fun path ↦ !holdsUnit files path := by
  induction paths with
  | nil => rfl
  | cons path rest ih =>
    obtain ⟨text, htext⟩ := h path (mem_cons_self ..)
    have hrest := ih fun other hother ↦ h other (mem_cons_of_mem _ hother)
    rw [readable] at hrest ⊢
    rw [filterMap_cons_some (by rw [readInput_of_read htext]; rfl), countP_cons, ← hrest,
      holdsUnit_of_read htext]
    cases hfailure : Input.failure? { path? := some path, content := text } with
    | none => rw [filterMap_cons_none hfailure]; rfl
    | some failure => rw [filterMap_cons_some hfailure]; rfl

theorem exists_read_of_holdsUnit (h : holdsUnit files path) :
    ∃ text, files.read path = .ok text := by
  obtain ⟨text, htext, -⟩ := exists_of_any_toOption h
  exact ⟨text, htext⟩

theorem printed_runUnits_ne_nil (houtput : arguments.output? = none)
    (hupdate : arguments.update = false) (hsettings : baseSettings arguments files = .ok settings)
    (hpath : path ∈ arguments.files) (hunit : holdsUnit files path) :
    (runUnits arguments files standardInput).printed ≠ [] := by
  have hmem : path ∈ (arguments.units files).files := mem_filter.mpr ⟨hpath, hunit⟩
  have hfiles := ne_nil_of_mem hmem
  have htarget : checkTarget (arguments.units files) = .ok () := by
    simp [checkTarget, Arguments.units, houtput, hupdate]
  rw [runUnits, if_neg hfiles, run_of_inputs htarget hsettings hfiles (mapM_readInput
    fun other hother ↦ exists_read_of_holdsUnit (mem_filter.mp hother).2)]
  obtain ⟨text, htext⟩ := exists_read_of_holdsUnit hunit
  refine printed_execute_ne_nil (fun input ↦ by simp [target?, Arguments.units, houtput, hupdate])
    files (mem_filterMap.mpr ⟨path, hmem, congrArg Except.toOption (readInput_of_read htext)⟩)
    (Option.isNone_iff_eq_none.mp ?_)
  rw [← holdsUnit_of_read htext, hunit]

end Run

/-- What the command does with input files of which some cannot be used. If one of them cannot be
read, nothing is done for any of them, so that units are missing when they are to be printed. If all
can be read, those that hold no unit are passed over: everything is written, printed and shown as if
they were not there, and the command fails with their number, unless it failed already because a
unit could not be written. -/
theorem run_of_faulty_files (arguments : Arguments) (files : Files) (standardInput : String)
    {settings : Settings} (hfiles : arguments.files ≠ []) (htarget : checkTarget arguments = .ok ())
    (hsettings : baseSettings arguments files = .ok settings) :
    ((∃ path ∈ arguments.files, ∃ reason, files.read path = .error reason) →
      (∃ reason, run arguments files standardInput =
        { ending := .failed (.refused (.input reason)), files }) ∧
      (arguments.output? = none → arguments.update = false →
        (∃ path ∈ arguments.files, holdsUnit files path = true) →
        ¬ (run arguments files standardInput).SameWork
          (runUnits arguments files standardInput))) ∧
    ((∀ path ∈ arguments.files, ∃ text, files.read path = .ok text) →
      (run arguments files standardInput).SameWork (runUnits arguments files standardInput) ∧
      ((∃ path ∈ arguments.files, holdsUnit files path = false) →
        (∃ reason, (run arguments files standardInput).ending = .failed (.unwritable reason)) ∨
        (run arguments files standardInput).ending =
          .failed (.failedUnits (arguments.files.countP fun path ↦ !holdsUnit files path)))) := by
  refine ⟨fun ⟨path, hpath, reason, hreason⟩ ↦ ?_, fun hreadable ↦ ?_⟩
  · obtain ⟨refusal, hrefused⟩ := run_of_unreadable htarget hsettings hpath hreason
    refine ⟨⟨refusal, hrefused⟩, fun houtput hupdate ⟨unit, hunit, hholds⟩ hsame ↦ ?_⟩
    have hprinted := hsame.printed
    rw [hrefused] at hprinted
    exact printed_runUnits_ne_nil houtput hupdate hsettings hunit hholds hprinted.symm
  let inputs := readable files arguments.files
  let job : Job := { arguments, settings := overrideSettings arguments settings, inputs }
  have hrun : run arguments files standardInput = job.execute files :=
    run_of_inputs htarget hsettings hfiles (mapM_readInput hreadable)
  rw [hrun]
  refine ⟨?_, fun ⟨path, hpath, hbad⟩ ↦ ?_⟩
  · have hunits := sameWork_execute job files
    rw [show job.inputs.filter _ = _ from filter_readable files arguments.files] at hunits
    unfold runUnits
    split
    · next hnone =>
      have hnone : arguments.files.filter (holdsUnit files) = [] := hnone
      rw [hnone] at hunits
      exact ⟨hunits.files, hunits.printed, hunits.diagnostics⟩
    · next hsome =>
      rw [run_of_inputs (checkTarget_units htarget hsome) hsettings hsome
        (mapM_readInput fun path hpath ↦ hreadable path (List.mem_of_mem_filter hpath))]
      exact ⟨hunits.files, hunits.printed, hunits.diagnostics⟩
  · have hcount := length_filterMap_failure? hreadable
    have hpos : 0 < arguments.files.countP fun path ↦ !holdsUnit files path :=
      List.countP_pos_iff.mpr ⟨path, hpath, by rw [hbad]; rfl⟩
    rw [← hcount] at hpos ⊢
    exact ending_execute job files (List.ne_nil_of_length_pos hpos)

def patchyShelf : Files :=
  { origin := "/"
    home := "/"
    entries := [(["plain"], .text ("<XcodeProgram><typeTable/><globalSymbols/>" ++
        "<globalDeclarations/></XcodeProgram>")),
      (["broken"], .text "<XcodeProgram>")] }

def shelfArguments (paths : List String) : Arguments :=
  { files := paths }

/-- The malformed unit is passed over, but together with a file that is not there the other one is
not transformed either. -/
theorem run_of_faulty_files_patchyShelf :
    (run (shelfArguments ["broken", "plain"]) patchyShelf "").SameWork
        (runUnits (shelfArguments ["broken", "plain"]) patchyShelf "") ∧
      (run (shelfArguments ["broken", "plain"]) patchyShelf "").Fails ∧
      ¬ (run (shelfArguments ["plain", "missing"]) patchyShelf "").SameWork
        (runUnits (shelfArguments ["plain", "missing"]) patchyShelf "") := by
  have hbroken : holdsUnit patchyShelf "broken" = false := by decide +kernel
  have hplain : holdsUnit patchyShelf "plain" = true := by decide +kernel
  have hmissing : patchyShelf.read "missing" = .error .missing := by decide +kernel
  have hreadable : ∀ path ∈ ["broken", "plain"], ∃ text, patchyShelf.read path = .ok text := by
    have htext : ((patchyShelf.read "broken").toOption.any fun _ ↦ true) = true := by
      decide +kernel
    obtain ⟨text, htext, -⟩ := exists_of_any_toOption htext
    simp only [List.forall_mem_cons, List.not_mem_nil, false_implies, implies_true, and_true]
    exact ⟨⟨text, htext⟩, exists_read_of_holdsUnit hplain⟩
  obtain ⟨hsame, hfails⟩ := (run_of_faulty_files (shelfArguments ["broken", "plain"]) patchyShelf ""
    (List.cons_ne_nil _ _) rfl rfl).2 hreadable
  refine ⟨hsame, ?_, ((run_of_faulty_files (shelfArguments ["plain", "missing"]) patchyShelf ""
    (List.cons_ne_nil _ _) rfl rfl).1
      ⟨"missing", by simp [shelfArguments], .missing, hmissing⟩).2 rfl rfl
    ⟨"plain", by simp [shelfArguments], hplain⟩⟩
  rcases hfails ⟨"broken", by simp [shelfArguments], hbroken⟩ with ⟨reason, hreason⟩ | hunits
  · exact ⟨_, hreason⟩
  · exact ⟨_, hunits⟩

end LoopDirectives.CommandLine
