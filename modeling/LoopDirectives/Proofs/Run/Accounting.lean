import LoopDirectives.Proofs.Document.Aging
import LoopDirectives.Proofs.Run.Discovery

/-!
# Every directive is accounted for once

A run settles each directive that it takes up in exactly one turn, and the numbers and messages of
its report are those of the turns (`Run.Accounts`, `Run.exists_accounts`). A directive is passed
over only if its pragma hangs nowhere at its turn, and the pragma of an applied directive stays
gone: a stale identity never comes back to life (`Document.Ages`).
-/

namespace LoopDirectives

open Document List

/-! ### What turns do to a document -/

theorem Plan.exists_fusion_of_dependent {context : Context} {kind : TransformationKind}
    {doc : Document} {directive : PlacedDirective} {plan : Plan}
    (h : Plan.analyse context kind doc directive = some plan)
    (hgrouping : kind.grouping = .dependent) : ∃ fusion, plan = .fusion fusion := by
  cases kind with
  | fusion =>
    obtain ⟨fusion, -, rfl⟩ := Option.map_eq_some_iff.mp h
    exact ⟨fusion, rfl⟩
  | interchange | boundsImport | demotion | removal | rotation => cases hgrouping

namespace Transformation

variable {context : Context} {workspace : Workspace} {transformation first second : Transformation}
  {doc : Document}

theorem not_contains_apply {plan : Plan} (hplan : transformation.stage.plan? = some plan)
    (h : (transformation.apply context workspace).2.result = .ok ()) :
    (transformation.apply context workspace).2.state.program.document.contains
      transformation.directive.pragma = false := by
  unfold apply at h ⊢
  simp only [hplan] at h ⊢
  rw [if_pos (by rw [Outcome.isOk, h]; rfl)]
  exact not_contains_delete _ _

theorem not_contains_applyWith (context : Context) (workspace : Workspace)
    (hpair : first.canPair doc second)
    (h : (first.applyWith context second workspace).2.result = .ok ()) :
    ∀ member ∈ [first, second],
      (first.applyWith context second workspace).2.state.program.document.contains
        member.directive.pragma = false := by
  obtain ⟨one, other, hone, hother, -⟩ := fusions_of_canPair hpair
  unfold applyWith at h ⊢
  simp only [hone, hother] at h ⊢
  rw [if_pos (by rw [Outcome.isOk, h]; rfl)]
  intro member hmember
  rcases mem_cons.mp hmember with rfl | hmember
  · refine eq_false_of_ne_true fun hcontains ↦ ?_
    have hdeleted := contains_of_delete hcontains
    exact Bool.false_ne_true ((not_contains_delete _ _).symm.trans hdeleted)
  · rw [mem_singleton.mp hmember]
    exact not_contains_delete _ _

theorem index_lt_size_of_isLive (h : transformation.isLive doc) :
    transformation.directive.pragma.index < doc.slots.size := by
  obtain ⟨parent, hparent⟩ := Option.isSome_iff_exists.mp h
  exact index_lt_size (contains_of_parent? hparent)

end Transformation

namespace Run

variable {context : Context} {before after workspace : Workspace} {entries : List Entry}
  {entry : Entry} {report : Report}

theorem keeps_steps (context : Context) {origin : Document} (forest : origin.Forest)
    (kind : TransformationKind) :
    Group.Keeps context (fun _ ↦ True) (fun _ ↦ True) kind fun workspace ↦
      Scope.whole.Steps origin workspace.program.document where
  dropPragma transformation workspace _ steps := steps.tail (.delete _ _ trivial)
  perform steps _ h := by
    have hguards := Scope.Steps.guards forest.guards_whole steps
    refine steps.trans (Plan.extends_perform h hguards (fun _ ↦ ⟨hguards, ?_⟩) ?_).steps
    · exact fun _ _ _ _ ↦ Or.inl trivial
    · exact fun _ _ _ ↦ trivial
  inside_loop _ _ _ := trivial
  performWith pragma _ steps _ _ h := by
    have hguards := Scope.Steps.guards forest.guards_whole steps
    obtain ⟨-, parent, hone, hother⟩ := Fusion.parent?_of_compatible h
    exact steps.trans (Plan.extends_performWith pragma hguards hone hother trivial trivial
      (fun _ _ ↦ trivial) fun _ _ ↦ trivial).steps

theorem Turn.steps (forest : before.program.document.Forest)
    (turn : Turn context before entries after) :
    Scope.whole.Steps before.program.document after.program.document := by
  have keeps := keeps_steps context forest
  cases turn with
  | skip | reject => exact .refl
  | single member plan hlive hanalysed hplan =>
    exact (keeps member.kind).applyAnalysed hanalysed hplan trivial .refl
  | alone member hlive hgrouping accepted =>
    obtain ⟨doc, plan, hanalysed, hplan⟩ := accepted
    obtain ⟨fusion, rfl⟩ := Plan.exists_fusion_of_dependent hanalysed hgrouping
    exact Transformation.apply_of_perform (fun later ↦ Scope.whole.Steps _ later.program.document)
      ((keeps .fusion).dropPragma _ trivial) hplan .refl
  | pair member partner hlive hpartner hpair =>
    obtain ⟨one, other, hone, hother, -⟩ := Transformation.fusions_of_canPair hpair
    have hinside {transformation : Transformation} {fusion : Fusion}
        (h : transformation.stage.plan? = some (.fusion fusion)) :
        Group.FusesInside (fun _ ↦ True) (fun _ ↦ True) transformation :=
      ⟨trivial, fun plan hplan ↦ ⟨fusion, Option.some.inj (hplan.symm.trans h), trivial⟩⟩
    exact (keeps .fusion).applyWith rfl (hinside hone) (hinside hother) hpair .refl

theorem Turns.steps (forest : before.program.document.Forest)
    (turns : Turns context before entries after) :
    Scope.whole.Steps before.program.document after.program.document := by
  induction turns with
  | refl => exact .refl
  | head turn _ ih =>
    have hsteps := turn.steps forest
    exact hsteps.trans (ih (hsteps.forest forest))

theorem Turn.not_contains_of_applied (turn : Turn context before entries after)
    (hentry : entry ∈ entries) (happlied : entry.fate = .applied) :
    entry.directive.pragma.index < before.program.document.slots.size ∧
      after.program.document.contains entry.directive.pragma = false := by
  cases turn with
  | skip | reject =>
    cases mem_singleton.mp hentry
    cases happlied
  | single member plan hlive hanalysed hplan =>
    cases mem_singleton.mp hentry
    exact ⟨Transformation.index_lt_size_of_isLive hlive,
      Transformation.not_contains_apply hplan (Fate.ofResult_eq_applied happlied)⟩
  | alone member hlive hgrouping accepted =>
    cases mem_singleton.mp hentry
    exact absurd happlied (Fate.ofAlone_ne_applied _)
  | pair member partner hlive hpartner hpair =>
    have hgone := fun hok ↦ Transformation.not_contains_applyWith context before hpair hok
    rcases mem_cons.mp hentry with rfl | hentry
    · exact ⟨Transformation.index_lt_size_of_isLive hlive,
        hgone (Fate.ofResult_eq_applied happlied) member (mem_cons_self ..)⟩
    · cases mem_singleton.mp hentry
      exact ⟨Transformation.index_lt_size_of_isLive hpartner,
        hgone (Fate.ofResult_eq_applied happlied) partner (by simp)⟩

theorem Turns.not_contains_of_applied (forest : before.program.document.Forest)
    (turns : Turns context before entries after) (hentry : entry ∈ entries)
    (happlied : entry.fate = .applied) :
    entry.directive.pragma.index < after.program.document.slots.size ∧
      after.program.document.contains entry.directive.pragma = false := by
  induction turns with
  | refl => cases hentry
  | head turn rest ih =>
    have hsteps := turn.steps forest
    have hforest := hsteps.forest forest
    rcases mem_append.mp hentry with hentry | hentry
    · -- The pragma is deleted in this turn, and the turns after it cannot revive its identity.
      obtain ⟨hindex, hgone⟩ := turn.not_contains_of_applied hentry happlied
      have hages := (rest.steps hforest).ages hforest
      have hlt := Nat.lt_of_lt_of_le hindex (hsteps.ages forest).size_le
      exact ⟨Nat.lt_of_lt_of_le hlt hages.size_le, hages.not_contains hlt hgone⟩
    · exact ih hforest hentry

theorem Turn.eq_of_skipped (turn : Turn context before entries after) (hentry : entry ∈ entries)
    (hskipped : entry.fate = .skipped) :
    entries = [entry] ∧ before.program.document.parent? entry.directive.pragma = none := by
  cases turn with
  | skip member hgone =>
    cases mem_singleton.mp hentry
    exact ⟨rfl, Option.isNone_iff_eq_none.mp (Option.isSome_eq_false_iff.mp hgone)⟩
  | reject =>
    cases mem_singleton.mp hentry
    cases hskipped
  | single =>
    cases mem_singleton.mp hentry
    exact absurd hskipped (Fate.ofResult_ne_skipped _)
  | alone =>
    cases mem_singleton.mp hentry
    exact absurd hskipped (Fate.ofAlone_ne_skipped _)
  | pair member partner =>
    rcases mem_cons.mp hentry with rfl | hentry
    · exact absurd hskipped (Fate.ofResult_ne_skipped _)
    · cases mem_singleton.mp hentry
      exact absurd hskipped (Fate.ofResult_ne_skipped _)

theorem Turns.parent?_of_skipped (turns : Turns context before entries after)
    (hentry : entry ∈ entries) (hskipped : entry.fate = .skipped) :
    ∃ earlier later workspace, entries = earlier ++ entry :: later ∧
      Turns context before earlier workspace ∧
      workspace.program.document.parent? entry.directive.pragma = none := by
  induction turns with
  | refl => cases hentry
  | @head before middle after entries others turn rest ih =>
    rcases mem_append.mp hentry with hentry | hentry
    · obtain ⟨rfl, hgone⟩ := turn.eq_of_skipped hentry hskipped
      exact ⟨[], others, before, rfl, .refl before, hgone⟩
    · obtain ⟨earlier, later, workspace, rfl, hearlier, hgone⟩ := ih hentry
      exact ⟨entries ++ earlier, later, workspace, (append_assoc ..).symm, .head turn hearlier,
        hgone⟩

/-! ### Wrapping -/

theorem steps_insertLinks (sentinel : String) (line? : Option String) (doc : Document)
    (anchor : NodeId) (chunks : List String) :
    Scope.whole.Steps doc (Pragma.insertLinks sentinel line? doc anchor chunks) := by
  induction chunks generalizing doc anchor with
  | nil => exact .refl
  | cons chunk rest ih =>
    exact ((Scope.steps_create _ doc _).tail
      (.insertBeside _ anchor _ 1 trivial (Nat.zero_le _))).trans (ih _ _)

theorem steps_wrapAt (columns : Nat) (marker : String) (doc : Document) (pragma : NodeId) :
    Scope.whole.Steps doc (Pragma.wrapAt columns marker doc pragma) := by
  unfold Pragma.wrapAt Pragma.wrapAt?
  dsimp only
  split
  · exact .refl
  · split
    · exact .head (.relabel _ _ _ trivial) (.head (.relabel _ _ _ trivial)
        (steps_insertLinks ..))
    · exact .refl

theorem steps_wrapPragmas (settings : Settings) (program : SourceUnit) :
    Scope.whole.Steps program.document (wrapPragmas settings program).document := by
  unfold wrapPragmas
  split
  · exact .refl
  · next columns _ =>
    dsimp only
    rw [Pragma.wrap_eq_foldl]
    exact List.foldlRecOn _ _ .refl fun current hcurrent pragma _ ↦
      hcurrent.trans (steps_wrapAt columns settings.marker current pragma)

/-! ### The report -/

theorem countP_fates (ledger : List Entry) :
    ledger.countP (·.fate.isApplied) + ledger.countP (·.fate.isDropped) +
      ledger.countP (·.fate.isSkipped) = ledger.length := by
  induction ledger with
  | nil => rfl
  | cons entry rest ih =>
    have hone : (if entry.fate.isApplied then 1 else 0) + (if entry.fate.isDropped then 1 else 0) +
        (if entry.fate.isSkipped then 1 else 0) = 1 := by
      cases entry.fate <;> rfl
    simp only [countP_cons, length_cons]
    omega

theorem length_filterMap_diagnostic? (file : String) (ledger : List Entry) :
    (ledger.filterMap (Entry.diagnostic? file)).length = ledger.countP (·.fate.isDropped) := by
  rw [length_filterMap_eq_countP]
  refine countP_congr fun entry _ ↦ ?_
  rw [Entry.diagnostic?, Option.isSome_map, Fate.isSome_complaint?]

theorem severity_diagnostic?_iff (file : String) (entry : Entry) :
    (∃ diagnostic, entry.diagnostic? file = some diagnostic ∧ diagnostic.severity = .error) ↔
      ∃ cause, entry.fate = .failed cause := by
  unfold Entry.diagnostic?
  cases entry.fate <;> simp [Fate.complaint?]

theorem hasErrors_settle_iff (hnone : report.hasErrors = false) (ledger : List Entry) :
    (report.settle ledger).hasErrors ↔
      ∃ entry ∈ ledger, ∃ cause, entry.fate = .failed cause := by
  have hsplit : (report.settle ledger).hasErrors = (report.hasErrors ||
      (ledger.filterMap (Entry.diagnostic? report.file)).any (·.severity == .error)) :=
    any_append
  rw [hsplit, hnone, Bool.false_or, any_eq_true]
  constructor
  · rintro ⟨diagnostic, hmem, herror⟩
    obtain ⟨entry, hentry, hdiagnostic⟩ := mem_filterMap.mp hmem
    exact ⟨entry, hentry, (severity_diagnostic?_iff report.file entry).mp
      ⟨diagnostic, hdiagnostic, beq_iff_eq.mp herror⟩⟩
  · rintro ⟨entry, hentry, hfailed⟩
    obtain ⟨diagnostic, hdiagnostic, herror⟩ :=
      (severity_diagnostic?_iff report.file entry).mpr hfailed
    exact ⟨diagnostic, mem_filterMap.mpr ⟨entry, hentry, hdiagnostic⟩, beq_iff_eq.mpr herror⟩

theorem Warns.hasErrors_eq {number : Nat} {before after : Report} (h : Warns number before after) :
    after.hasErrors = before.hasErrors := by
  obtain ⟨warnings, -, hwarnings, rfl⟩ := h
  have hnone : warnings.any (·.severity == .error) = false :=
    any_eq_false.mpr fun warning hwarning ↦ by simp [hwarnings warning hwarning]
  exact any_append.trans (by rw [hnone, Bool.or_false]; rfl)

structure Accounts (context : Context) (before : Workspace) (ledger : List Entry)
    (after : Workspace) (report : Report) : Prop where
  /-- The run is made of the turns of the ledger. -/
  turns : ∃ done, Turns context before ledger done ∧
    after = { done with program := wrapPragmas context.settings done.program }
  /-- Every directive that the run takes up is settled, and nothing else. -/
  requests : (ledger.map Entry.request).Perm (requests context.marker before.program)
  /-- No directive is settled twice, so that no edit is made twice. -/
  nodup : (ledger.map fun entry ↦ entry.directive.pragma).Nodup
  skipped : ∀ entry ∈ ledger, entry.fate = .skipped → ∃ earlier later workspace,
    ledger = earlier ++ entry :: later ∧ Turns context before earlier workspace ∧
      workspace.program.document.parent? entry.directive.pragma = none
  applied : report.applied = ledger.countP (·.fate.isApplied)
  dropped : report.dropped = ledger.countP (·.fate.isDropped)
  total : report.applied + report.dropped + ledger.countP (·.fate.isSkipped) =
    (Run.requests context.marker before.program).length
  /-- After the warnings about faulty pragmas there is one message for each dropped directive. -/
  diagnostics : ∃ warnings, warnings.length = faults context.marker before.program ∧
    report.diagnostics = warnings ++ ledger.filterMap (Entry.diagnostic? report.file)
  length_diagnostics : report.diagnostics.length =
    report.dropped + faults context.marker before.program
  hasErrors : report.hasErrors = true ↔ ∃ entry ∈ ledger, ∃ cause, entry.fate = .failed cause
  gone : ∀ entry ∈ ledger, entry.fate = .applied →
    after.program.document.contains entry.directive.pragma = false

theorem validate_of_transform (h : transform context workspace = .ok (after, report)) :
    workspace.program.validate = .ok () := by
  unfold transform at h
  split at h
  · cases h
  · assumption

/-- Every directive that a run takes up is settled in exactly one turn, and the report counts and
tells of it once. -/
theorem exists_accounts (context : Context) (forest : workspace.program.document.Forest)
    {report : Report} (h : transform context workspace = .ok (after, report)) :
    ∃ ledger, Accounts context workspace ledger after report := by
  have hrun := (transform_of_validate context (validate_of_transform h)).symm.trans h
  have hgroups := forall₂_discover context.marker workspace.program
  obtain ⟨ledger, hsettles, hperm⟩ := settles_applyGroups context
    { workspace, report := (discover context.marker workspace.program).2 } hgroups
  generalize hdone : applyGroups context (discover context.marker workspace.program).1
    { workspace, report := (discover context.marker workspace.program).2 } = done at hrun hsettles
  obtain ⟨rfl, rfl⟩ := Prod.mk.inj (Except.ok.inj hrun)
  obtain ⟨hturns, hreport⟩ := hsettles
  have hrequests := hperm.symm.trans (perm_discover context.marker workspace.program)
  have hwarns := warns_discover context.marker workspace.program
  have hnoErrors : (discover context.marker workspace.program).2.hasErrors = false :=
    hwarns.hasErrors_eq
  obtain ⟨warnings, hlength, -, hfound⟩ := hwarns
  have happlied : done.report.applied = ledger.countP (·.fate.isApplied) := by
    rw [hreport, hfound]
    exact Nat.zero_add _
  have hdropped : done.report.dropped = ledger.countP (·.fate.isDropped) := by
    rw [hreport, hfound]
    exact Nat.zero_add _
  have hdiagnostics : done.report.diagnostics =
      warnings ++ ledger.filterMap (Entry.diagnostic? done.report.file) := by
    rw [hreport, hfound]
    rfl
  refine ⟨ledger, ⟨done.workspace, hturns, rfl⟩, hrequests, ?_, ?_, happlied, hdropped, ?_,
    ⟨warnings, hlength, hdiagnostics⟩, ?_, ?_, ?_⟩
  · have hnodup := (hrequests.map fun request ↦ request.1.pragma).nodup_iff.mpr
      (nodup_requests forest)
    rwa [List.map_map] at hnodup
  · exact fun entry hentry ↦ hturns.parent?_of_skipped hentry
  · rw [happlied, hdropped, countP_fates, ← hrequests.length_eq, List.length_map]
  · rw [hdiagnostics, List.length_append, length_filterMap_diagnostic?, hlength, hdropped]
    exact Nat.add_comm _ _
  · rw [hreport]
    exact hasErrors_settle_iff hnoErrors ledger
  · intro entry hentry hfate
    obtain ⟨hindex, hgone⟩ := hturns.not_contains_of_applied forest hentry hfate
    have hforest := (hturns.steps forest).forest forest
    have hages := (steps_wrapPragmas context.settings done.workspace.program).ages hforest
    exact hages.not_contains hindex hgone

/-- A program with two fusions that are a pair, a removal that takes a rotation with it, a fusion
without a loop, and a keyword that is not known. -/
def mixedDirectives : Element :=
  .program []
    [.pragma "lsm loop-fusion", .loop "i" [], .pragma "lsm loop-fusion", .loop "i" [],
     .pragma "lsm parallelize", .pragma "lsm remove", .pragma "lsm rotate-operands", .loop "i" [],
     .pragma "lsm end remove", .pragma "lsm loop-fusion"]

def mixedWorkspace : Workspace :=
  let doc := (Document.ofElement mixedDirectives).1
  { program := {
      document := doc
      root := ⟨0⟩
      types := TypeTable.read doc ⟨1⟩
      symbols := SymbolTable.read doc ⟨2⟩
      declarations := DeclarationTable.read doc ⟨3⟩ }
    library := {} }

theorem exists_accounts_of_mixedDirectives :
    mixedWorkspace.program.document.Forest ∧ ∃ after report ledger,
      transform plainContext mixedWorkspace = .ok (after, report) ∧
        Accounts plainContext mixedWorkspace ledger after report ∧
        report.applied = 3 ∧ report.dropped = 1 ∧ ledger.countP (·.fate.isSkipped) = 1 ∧
        report.diagnostics.length = 2 := by
  have forest : mixedWorkspace.program.document.Forest := by
    dsimp only [mixedWorkspace]
    exact Document.forest_ofElement mixedDirectives
  have hnumbers : (transform plainContext mixedWorkspace).toOption.map
      (fun result ↦ (result.2.applied, result.2.dropped)) = some (3, 1) := by
    decide +kernel
  have hrequests : (requests "lsm" mixedWorkspace.program).length = 5 ∧
      faults "lsm" mixedWorkspace.program = 1 := by
    decide +kernel
  cases hrun : transform plainContext mixedWorkspace with
  | error failure =>
    rw [hrun] at hnumbers
    cases hnumbers
  | ok result =>
    obtain ⟨after, report⟩ := result
    rw [hrun] at hnumbers
    obtain ⟨happlied, hdropped⟩ := Prod.mk.inj (Option.some.inj hnumbers)
    obtain ⟨ledger, accounts⟩ := exists_accounts plainContext forest
      hrun
    have htotal : report.applied + report.dropped + ledger.countP (·.fate.isSkipped) = 5 :=
      accounts.total.trans hrequests.1
    have hlength : report.diagnostics.length = report.dropped + 1 :=
      accounts.length_diagnostics.trans (congrArg _ hrequests.2)
    dsimp only at happlied hdropped
    exact ⟨forest, after, report, ledger, rfl, accounts, happlied, hdropped, by omega, by omega⟩

end Run

end LoopDirectives
