import LoopDirectives.Proofs.Run.Accounting
import LoopDirectives.Proofs.Run.Faithful
import LoopDirectives.Proofs.Table.Coherent

/-!
# A run that has nothing to report is final

When a run reports nothing, every directive that it took up is gone: an applied one deletes its
pragma, and one that is passed over hung nowhere, so its pragma was deleted before
(`Run.not_contains_of_clean`). New directives come from copies of headers and of parts of modules
only. Where these hold none, nothing is left for a second run to do (`Run.transform_of_clean`).
-/

namespace LoopDirectives

open Document List

namespace Run

variable {context : Context} {kind : TransformationKind} {entries : List Entry}
  {progress : Progress} {program : SourceUnit} {workspace first last : Workspace}
  {pragma : NodeId} {groups : List Group} {marker : String}

/-! ### Pragmas that are gone -/

/-- A directive that was not dropped has lost its pragma: either it was applied, or the pragma hung
nowhere at its turn, and no node but the root does so. -/
theorem Passes.not_contains_of_silent
    (passes : Passes context (Grounded program) first entries last)
    {entry : Entry} (hentry : entry ∈ entries)
    (hindex : entry.directive.pragma.index < program.document.slots.size)
    (hne : entry.directive.pragma ≠ program.root) (hsilent : entry.fate.isDropped = false) :
    last.program.document.contains entry.directive.pragma = false := by
  induction passes with
  | refl => cases hentry
  | head grounded turn rest ih =>
    rcases mem_append.mp hentry with hentry | hentry
    · have hturns := Turns.head turn rest.turns
      cases hfate : entry.fate with
      | applied =>
        exact (hturns.not_contains_of_applied grounded.forest (mem_append_left _ hentry) hfate).2
      | skipped =>
        obtain ⟨-, hgone⟩ := turn.eq_of_skipped hentry hfate
        refine ((hturns.steps grounded.forest).ages grounded.forest).not_contains
          (Nat.lt_of_lt_of_le hindex grounded.size_le) (eq_false_of_ne_true fun hlive ↦ hne ?_)
        simpa using grounded.rooted _ hlive hgone
      | alone | failed | rejected =>
        rw [hfate] at hsilent
        cases hsilent
    · exact ih hentry

/-- Assumes: a run without messages. The pragma of every request is gone. -/
theorem not_contains_of_clean (context : Context) (fromText : program.FromText)
    (hprogress : progress.workspace.program = program)
    (hlibrary : progress.workspace.library.Readable)
    {request : PlacedDirective × TransformationKind} (hrequest : request ∈ requests marker program)
    (hclean : (applyGroups context (discover marker program).1 progress).report.diagnostics = []) :
    (applyGroups context (discover marker program).1 progress).document.contains
      request.1.pragma = false := by
  obtain ⟨⟨entries, hadvances, hperm⟩, -⟩ := advances_grounded progress context fromText hprogress
    hlibrary (forall₂_found fromText.forest marker)
  obtain ⟨entry, hentry, rfl⟩ := mem_map.mp
    (hperm.mem_iff.mp ((perm_discover marker program).mem_iff.mpr hrequest))
  have hfound := found_of_mem_requests fromText.forest hrequest
  rw [hadvances.report] at hclean
  have hnone := filterMap_eq_nil_iff.mp (append_eq_nil_iff.mp hclean).2 entry hentry
  rw [Entry.diagnostic?, Option.map_eq_none_iff] at hnone
  refine hadvances.passes.not_contains_of_silent hentry (index_lt_size hfound.below_root.contains)
    (hfound.pragma_ne_root fromText.forest) ?_
  rw [← Fate.isSome_complaint? entry.kind.keyword, hnone]
  rfl

/-! ### Silent labels -/

/-- A run takes up nothing at the label: it is no pragma, or none that is reserved, or one that ends
a region. -/
def isSilent (marker : String) (label : Label) : Bool :=
  label.kind != .pragma ||
    match Directive.parse marker label.text with
    | .error _ => false
    | .ok none => true
    | .ok (some directive) => directive.isEnd

theorem isSilent_of_kind {label : Label} (marker : String) (h : label.kind ≠ .pragma) :
    isSilent marker label := by
  simp [isSilent, h]

theorem isSilent_iff (marker : String) (doc : Document) (x : NodeId) :
    isSilent marker (doc.label x) ↔
      requestAt? marker doc x = none ∧ isFaulty marker doc x = false := by
  unfold isSilent requestAt? isFaulty Directive.find? isKind
  by_cases hkind : doc.kind x = .pragma
  · have hlabel : (doc.label x).kind = .pragma := hkind
    have htext : (doc.label x).text = doc.text x := rfl
    rw [hlabel, htext, hkind]
    cases Directive.parse marker (doc.text x) with
    | error cause => simp [Except.map]
    | ok directive? =>
      cases directive? with
      | none => simp [Except.map]
      | some directive =>
        cases hend : directive.isEnd <;>
          cases TransformationKind.ofKeyword? directive.keyword <;> simp [Except.map, hend]
  · have hlabel : (doc.label x).kind ≠ .pragma := hkind
    simp [hlabel, hkind]

def silence (marker : String) : Policy where
  good label := isSilent marker label = true
  roomy _ := True
  good_setAttribute {label name} value _ h := by
    have hkind : (label.setAttribute name value).kind = label.kind := rfl
    have htext : (label.setAttribute name value).text = label.text := rfl
    rwa [isSilent, hkind, htext]
  roomy_setAttribute _ _ h := h
  good_new kind hkind := by
    refine isSilent_of_kind marker ?_
    rw [Label.kind, Kind.ofTag_tag]
    rintro rfl
    simp at hkind
  roomy_new _ _ := trivial

theorem discover_of_silent (forest : program.document.Forest)
    (h : program.document.AllLabels (isSilent marker)) :
    discover marker program = (emptyGroups, { file := program.name }) := by
  have hfold : ∀ (pragmas : List NodeId) (state : List Group × Report),
      (∀ pragma ∈ pragmas, program.document.contains pragma) →
      pragmas.foldl (discoverAt marker program.document) state = state := by
    intro pragmas state
    induction pragmas with
    | nil => exact fun _ ↦ rfl
    | cons pragma rest ih =>
      intro hpragmas
      obtain ⟨hlive, hrest⟩ := forall_mem_cons.mp hpragmas
      obtain ⟨hrequest, hfaulty⟩ :=
        (isSilent_iff marker program.document pragma).mp (h pragma hlive)
      rw [foldl_cons]
      rcases discoverAt_cases marker program.document state pragma with
        ⟨_, _, hsome, -⟩ | ⟨-, htrue, -⟩ | ⟨-, -, hsame⟩
      · rw [hrequest] at hsome
        cases hsome
      · rw [hfaulty] at htrue
        cases htrue
      · rw [hsame]
        exact ih hrest
  refine hfold _ _ fun pragma hpragma ↦ ?_
  exact (forest.mem_descendants_iff.mp (mem_filter.mp hpragma).1).contains

theorem applyGroups_of_members_eq_nil (context : Context)
    (h : ∀ group ∈ groups, group.members = []) (progress : Progress) :
    applyGroups context groups progress = progress := by
  induction groups with
  | nil => rfl
  | cons group rest ih =>
    obtain ⟨hgroup, hrest⟩ := forall_mem_cons.mp h
    have hsame : (group.apply context progress).2 = progress := by
      unfold Group.apply
      rw [hgroup]
      split
      · rfl
      · simp [Group.analyseEach, Group.pairEach]
    show applyGroups context rest (group.apply context progress).2 = progress
    rw [hsame]
    exact ih hrest

theorem transform_of_silent (context : Context) (forest : workspace.program.document.Forest)
    (hvalid : workspace.program.validate = .ok ()) (hcolumns : context.settings.columns? = none)
    (h : workspace.program.document.AllLabels (isSilent context.marker)) :
    transform context workspace = .ok (workspace, { file := workspace.program.name }) := by
  have hempty : ∀ group ∈ emptyGroups, group.members = [] := by
    simp [emptyGroups]
  rw [transform_of_validate context hvalid]
  simp only [discover_of_silent forest h, applyGroups_of_members_eq_nil context hempty, wrapPragmas,
    hcolumns]

/-! ### The second run -/

section Second

variable {marker : String} (fromText : program.FromText)

include fromText

theorem exists_request_of_not_silent (hfaults : faults marker program = 0) {x : NodeId}
    (hlive : program.document.contains x)
    (h : ¬ isSilent marker (program.document.label x)) :
    ∃ request ∈ requests marker program, request.1.pragma = x := by
  have hkind : program.document.kind x = .pragma :=
    by_contra fun hne ↦ h (isSilent_of_kind marker hne)
  have hne : x ≠ program.root := by
    rintro rfl
    exact (fromText.kind_ne _ (mem_cons_self ..)).2 hkind
  have habove :=
    (fromText.forest.eq_or_above_of_rootedAt fromText.rooted hlive).resolve_left hne
  have hmem : x ∈ program.document.descendantsOf program.root .pragma :=
    mem_filter.mpr ⟨fromText.forest.mem_descendants_iff.mpr habove, by simp [isKind, hkind]⟩
  have hfaulty : isFaulty marker program.document x = false :=
    eq_false_of_ne_true (countP_eq_zero.mp hfaults x hmem)
  cases hrequest : requestAt? marker program.document x with
  | none => exact absurd ((isSilent_iff ..).mpr ⟨hrequest, hfaulty⟩) h
  | some request =>
    exact ⟨request, mem_filterMap.mpr ⟨x, hmem, hrequest⟩, pragma_of_requestAt? hrequest⟩

theorem tended_silence (hfaults : faults marker program = 0)
    (hheaders : ∀ request ∈ requests marker program,
      ∀ upper ∈ program.document.ancestors request.1.pragma,
        program.document.kind upper ∉ headerKinds) :
    Import.Tended (silence marker) program.document program := by
  refine ⟨⟨fromText.forest, fun x hlive _ ↦ ⟨hlive, rfl⟩, fun upper hupper x hx hlive ↦ ?_,
    fun _ _ _ ↦ trivial⟩, fun table htable ↦
      ⟨index_lt_size (fromText.contains_of_mem_tableNodes htable), fun _ ↦ trivial⟩⟩
  by_contra hbad
  rcases (fromText.forest.mem_subtree_iff upper x).mp hx with rfl | habove
  · refine hbad (isSilent_of_kind marker fun hkind ↦ ?_)
    have hpragma : program.document.kind x = .pragma := hkind
    rw [hpragma] at hupper
    simp [headerKinds] at hupper
  · obtain ⟨request, hrequest, rfl⟩ := exists_request_of_not_silent fromText hfaults hlive hbad
    exact hheaders request hrequest upper
      ((fromText.forest.mem_ancestors_iff ..).mpr habove) hupper

end Second

theorem supplies_silence (marker : String) {doc : Document} (forest : doc.Forest)
    (h : doc.AllLabels (·.kind != .pragma)) : (silence marker).Supplies doc :=
  Policy.supplies_of_holds forest fun x hx ↦
    ⟨isSilent_of_kind marker (by simpa using h x hx), fun _ ↦ trivial⟩

theorem faults_eq_zero {report : Report} (h : report = (discover marker program).2.settle entries)
    (hclean : report.diagnostics = []) : faults marker program = 0 := by
  obtain ⟨warnings, hlength, -, hfound⟩ := warns_discover marker program
  rw [h, hfound] at hclean
  have hnil : [] ++ warnings = [] := (append_eq_nil_iff.mp hclean).1
  rw [nil_append] at hnil
  rw [← hlength, hnil]
  rfl

/-- Assumes: no message, and no directive in what can be copied. Then no directive is left. -/
theorem allLabels_of_clean (context : Context) (progress : Progress) (fromText : program.FromText)
    (hprogress : progress.workspace.program = program)
    (hreport : progress.report = (discover context.marker program).2)
    (hlibrary : progress.workspace.library.Readable)
    (hmodules : ∀ entry ∈ progress.workspace.library.modules,
      (silence context.marker).Supplies entry.2.document)
    (hfiles : ∀ unit, CanLoad context program progress.workspace.library unit →
      (silence context.marker).Supplies unit.document)
    (hheaders : ∀ request ∈ requests context.marker program,
      ∀ upper ∈ program.document.ancestors request.1.pragma,
        program.document.kind upper ∉ headerKinds)
    (hclean : (applyGroups context (discover context.marker program).1
      progress).report.diagnostics = []) :
    (applyGroups context (discover context.marker program).1 progress).document.AllLabels
      (isSilent context.marker) := by
  obtain ⟨⟨entries, hadvances, -⟩, -⟩ := advances_grounded progress context fromText hprogress
    hlibrary (forall₂_found fromText.forest context.marker)
  have hfaults : faults context.marker program = 0 :=
    faults_eq_zero (hreport ▸ hadvances.report) hclean
  have hstart : (silence context.marker).Kept program.document progress.workspace.library
      progress.workspace := by
    refine ⟨?_, hmodules, rfl⟩
    rw [hprogress]
    exact tended_silence fromText hfaults hheaders
  have hkept := kept_applyGroups hfiles hstart
  intro x hlive
  by_contra hbad
  -- A label that is not silent is as it was, so the pragma was taken up and is gone.
  obtain ⟨hold, hlabel⟩ := hkept.program.tidy.old x hlive hbad
  obtain ⟨request, hrequest, rfl⟩ :=
    exists_request_of_not_silent fromText hfaults hold (hlabel ▸ hbad)
  have hgone := not_contains_of_clean context fromText hprogress hlibrary hrequest hclean
  exact Bool.false_ne_true (hgone.symm.trans hlive)

/-- When a run has nothing to report, a second run has nothing to do, as long as no directive stands
in the header of a loop and no module at hand or that the run can load has pragmas. The second run
is refused only if a table is missing, and none is if no directive stands directly below the
root. -/
theorem transform_of_clean (context : Context) {text : String} {library : Library}
    {final : Workspace} {report : Report}
    (hprogram : SourceUnit.read .program text = .ok program)
    (hlibrary : ∀ entry ∈ library.modules,
      (∃ role text, SourceUnit.read role text = .ok entry.2) ∧
        entry.2.document.AllLabels (·.kind != .pragma))
    (hfiles : ∀ unit, CanLoad context program library unit →
      unit.document.AllLabels (·.kind != .pragma))
    (hheaders : ∀ request ∈ requests context.marker program,
      ∀ upper ∈ program.document.ancestors request.1.pragma,
        program.document.kind upper ∉ headerKinds)
    (hcolumns : context.settings.columns? = none)
    (hrun : transform context { program, library } = .ok (final, report))
    (hclean : report.diagnostics = []) :
    (transform context final = .ok (final, { file := final.program.name }) ∨
      ∃ table, transform context final =
        .error { file := final.program.name, cause := .missingTable table }) ∧
    ((∀ child ∈ program.document.children program.root, ∀ directive,
        Directive.find? context.marker program.document child ≠ .ok (some directive)) →
      transform context final = .ok (final, { file := final.program.name })) := by
  obtain ⟨fromText, -⟩ := SourceUnit.fromText_of_read hprogram
  have hmodules : ∀ entry ∈ library.modules, entry.2.Readable ∧
      (silence context.marker).Supplies entry.2.document := by
    intro entry hentry
    obtain ⟨⟨_, _, hread⟩, hpragmas⟩ := hlibrary entry hentry
    have hentry := (SourceUnit.fromText_of_read hread).1
    exact ⟨hentry.readable, supplies_silence _ hentry.forest hpragmas⟩
  have hreadable : library.Readable := fun entry hentry ↦ (hmodules entry hentry).1
  have hgroups := forall₂_found fromText.forest context.marker
  let start : Progress :=
    { workspace := { program, library }, report := (discover context.marker program).2 }
  obtain ⟨hsame, forest, -, -⟩ := rootedAt_applyGroups start context fromText rfl hreadable hgroups
  have hsupplies : ∀ unit, CanLoad context program library unit →
      (silence context.marker).Supplies unit.document := by
    intro unit hload
    obtain ⟨_, _, _, -, hread⟩ := hload.exists_read
    exact supplies_silence _ (SourceUnit.fromText_of_read hread).1.forest (hfiles unit hload)
  have hsilent := allLabels_of_clean context start fromText rfl rfl hreadable
    (fun entry hentry ↦ (hmodules entry hentry).2) hsupplies hheaders
  have hresult := (transform_of_validate context (validate_of_transform hrun)).symm.trans hrun
  simp only [wrapPragmas, hcolumns] at hresult
  change Except.ok ((applyGroups context (discover context.marker program).1 start).workspace,
    (applyGroups context (discover context.marker program).1 start).report) = _ at hresult
  obtain ⟨rfl, rfl⟩ := Prod.mk.inj (Except.ok.inj hresult)
  have hagain := fun hvalid ↦ transform_of_silent context forest hvalid hcolumns (hsilent hclean)
  refine ⟨?_, fun htop ↦ hagain ?_⟩
  · cases hvalid : (applyGroups context (discover context.marker program).1
        start).workspace.program.validate with
    | ok => exact Or.inl (hagain hvalid)
    | error cause =>
      obtain ⟨table, rfl⟩ :=
        missingTable_applyGroups start context fromText rfl hreadable hgroups hvalid
      exact Or.inr ⟨table, by rw [transform, hvalid]⟩
  · obtain ⟨tables, htables, -⟩ := fromText.exists_tables
    have hafter :=
      tableElements_applyGroups start context fromText rfl hreadable hgroups htop htables
    rw [SourceUnit.validate, hsame.role, hsame.root]
    exact congrArg (fun tables ↦ tables.map fun _ ↦ ()) hafter

/-! ### Samples -/

def sampleProgram (program : Element) (first : Nat) : SourceUnit :=
  .withTables .program (ofElement program).1 (ofElement program).2
    { types := ⟨first⟩, symbols := ⟨first + 1⟩, declarations := ⟨first + 2⟩ }

def sampleLoop (var : String) (lower statements : List Element) : Element :=
  .branch "FdoStatement"
    [.var var,
     .branch "indexRange" [.branch "lowerBound" lower, .branch "upperBound" [.int "9"]],
     .branch "body" statements]

/-- A program with directives of three kinds, and one inside what another one removes. -/
def layeredDirectives : Element :=
  .program []
    [.pragma "lsm loop-fusion", .loop "i" [], .pragma "lsm loop-fusion", .loop "i" [],
     .pragma "lsm import-bounds module(lattice) array(field)", .loop "i" [],
     .pragma "lsm remove", .pragma "lsm rotate-operands", .loop "i" [], .pragma "lsm end remove"]

def latticeUnit : SourceUnit :=
  .withTables (.module "lattice") (ofElement latticeModule).1 (ofElement latticeModule).2
    { types := ⟨1⟩, symbols := ⟨9⟩, declarations := ⟨14⟩ }

def layeredWorkspace : Workspace where
  program := sampleProgram layeredDirectives 1
  library := { modules := [("lattice", latticeUnit)] }

theorem transform_of_clean_layeredDirectives :
    SourceUnit.read .program (Markup.write layeredDirectives) = .ok layeredWorkspace.program ∧
      SourceUnit.read (.module "lattice") (Markup.write latticeModule) = .ok latticeUnit ∧
      ∃ final report, transform plainContext layeredWorkspace = .ok (final, report) ∧
        report.diagnostics = [] ∧ report.applied = 4 ∧
        transform plainContext final = .ok (final, { file := final.program.name }) := by
  have hprogram : SourceUnit.read .program (Markup.write layeredDirectives) =
      .ok layeredWorkspace.program :=
    SourceUnit.read_write (by decide +kernel)
      (SourceUnit.tableElements_eq_ok_iff.mpr (by decide +kernel))
  have hlattice : SourceUnit.read (.module "lattice") (Markup.write latticeModule) =
      .ok latticeUnit :=
    SourceUnit.read_write (by decide +kernel)
      (SourceUnit.tableElements_eq_ok_iff.mpr (by decide +kernel))
  have heval : ((transform plainContext layeredWorkspace).toOption.any fun result ↦
      result.2.diagnostics.isEmpty && result.2.applied == 4) = true := by
    decide +kernel
  obtain ⟨⟨final, report⟩, hrun, heval⟩ := exists_of_any_toOption heval
  obtain ⟨hclean, happlied⟩ := Bool.and_eq_true_iff.mp heval
  have hlibrary : latticeUnit.document.AllLabels (·.kind != .pragma) := by
    decide +kernel
  have hfiles : ∀ unit,
      ¬ CanLoad plainContext layeredWorkspace.program layeredWorkspace.library unit := by
    intro unit hload
    obtain ⟨_, _, _, hfile, -⟩ := hload.exists_read
    obtain ⟨location, hmem⟩ := Files.exists_mem_of_read hfile
    simp [plainContext] at hmem
  have hfinal := (transform_of_clean plainContext hprogram
    (List.forall_mem_singleton.mpr ⟨⟨_, _, hlattice⟩, hlibrary⟩)
    (fun unit hload ↦ absurd hload (hfiles unit)) (by decide +kernel) rfl hrun
    (List.isEmpty_iff.mp hclean)).2
  have htop : ∀ child ∈ layeredWorkspace.program.document.children layeredWorkspace.program.root,
      layeredWorkspace.program.document.isKind child .pragma = false := by
    decide +kernel
  refine ⟨hprogram, hlattice, final, report, hrun, List.isEmpty_iff.mp hclean,
    beq_iff_eq.mp happlied, hfinal fun child hchild directive ↦ ?_⟩
  simp [Directive.find?, htop child hchild]

/-- A program that exchanges two headers, one of which holds a directive of a later kind. -/
def copiedDirective : Element :=
  .program []
    [.pragma "lsm loop-interchange",
     sampleLoop "i" [.pragma "lsm remove", .int "1"] [.loop "j" []]]

def removedTable : Element :=
  .branch "XcodeProgram"
    [.pragma "lsm remove", .branch "typeTable" [], .branch "globalSymbols" [],
     .branch "globalDeclarations" []]

def RunsClean (program : SourceUnit) (final : Workspace) : Prop :=
  ∃ report, transform plainContext { program, library := {} } = .ok (final, report) ∧
    report.diagnostics = []

/-- After a run without messages, a directive that was copied with a header is found by the second
run, and a program without one of its tables is refused. -/
theorem not_transform_of_clean :
    (SourceUnit.read .program (Markup.write copiedDirective) =
        .ok (sampleProgram copiedDirective 1) ∧
      ∃ final, RunsClean (sampleProgram copiedDirective 1) final ∧
        ∃ again report, transform plainContext final = .ok (again, report) ∧
          report.diagnostics ≠ []) ∧
    SourceUnit.read .program (Markup.write removedTable) = .ok (sampleProgram removedTable 2) ∧
      ∃ final, RunsClean (sampleProgram removedTable 2) final ∧
        ¬ ∃ result, transform plainContext final = .ok result := by
  have hcopied : ((transform plainContext ⟨sampleProgram copiedDirective 1, {}⟩).toOption.any
      fun result ↦ result.2.diagnostics.isEmpty &&
        ((transform plainContext result.1).toOption.any fun second ↦
          !second.2.diagnostics.isEmpty)) = true := by
    decide +kernel
  have hremoved : ((transform plainContext ⟨sampleProgram removedTable 2, {}⟩).toOption.any
      fun result ↦ result.2.diagnostics.isEmpty &&
        !(transform plainContext result.1).toBool) = true := by
    decide +kernel
  refine ⟨⟨SourceUnit.read_write (by decide +kernel)
      (SourceUnit.tableElements_eq_ok_iff.mpr (by decide +kernel)), ?_⟩,
    SourceUnit.read_write (by decide +kernel)
      (SourceUnit.tableElements_eq_ok_iff.mpr (by decide +kernel)), ?_⟩
  · obtain ⟨⟨final, report⟩, hrun, heval⟩ := exists_of_any_toOption hcopied
    obtain ⟨hclean, heval⟩ := Bool.and_eq_true_iff.mp heval
    obtain ⟨⟨again, second⟩, hagain, hdiagnostics⟩ := exists_of_any_toOption heval
    exact ⟨final, ⟨report, hrun, List.isEmpty_iff.mp hclean⟩, again, second, hagain,
      by simpa using hdiagnostics⟩
  · obtain ⟨⟨final, report⟩, hrun, heval⟩ := exists_of_any_toOption hremoved
    obtain ⟨hclean, hrefused⟩ := Bool.and_eq_true_iff.mp heval
    refine ⟨final, ⟨report, hrun, List.isEmpty_iff.mp hclean⟩, fun ⟨result, hresult⟩ ↦ ?_⟩
    simp [hresult, Except.toBool] at hrefused

end Run

end LoopDirectives
