import LoopDirectives.Proofs.Run.Groups

/-!
# The turns of a run

In one turn of a run one directive is passed over, rejected or carried out, or two are carried out
together (`Run.Turn`); each of them is settled with that, and the report says so (`Report.settle`).
`Run.Advances` joins the two, with a property that every turn keeps. Every member of a group is
settled in exactly one turn (`Run.advances_applyEach`, `Run.advances_pairEach`), and so is every
directive of a run (`Run.advances_applyGroups`).
-/

namespace LoopDirectives

open List

inductive Fate where
  | applied
  /-- There was no partner, so that only the pragma was removed. -/
  | alone
  | failed (cause : TransformError)
  | rejected
  | skipped

namespace Fate

/-- The fate of a directive whose edit has ended. -/
def ofResult : Except TransformError Unit → Fate
  | .ok () => applied
  | .error cause => failed cause

def ofAlone : Except TransformError Unit → Fate
  | .ok () => alone
  | .error cause => failed cause

def isApplied : Fate → Bool
  | applied => true
  | _ => false

def isSkipped : Fate → Bool
  | skipped => true
  | _ => false

def isDropped (fate : Fate) : Bool :=
  !fate.isApplied && !fate.isSkipped

/-- What is said about a directive that was dropped. -/
def complaint? (keyword : String) : Fate → Option (Severity × String)
  | applied => none
  | alone => some (.info, "`" ++ keyword ++ "` directive has no compatible partner")
  | failed cause => some (.error, "`" ++ keyword ++ "` directive failed: " ++ cause.message)
  | rejected => some (.warning, "`" ++ keyword ++ "` directive rejected by analysis")
  | skipped => none

theorem isSome_complaint? (keyword : String) (fate : Fate) :
    (fate.complaint? keyword).isSome = fate.isDropped := by
  cases fate <;> rfl

theorem ofResult_eq_applied {result : Except TransformError Unit} (h : ofResult result = applied) :
    result = .ok () := by
  unfold ofResult at h
  split at h
  · rfl
  · cases h

section

variable (result : Except TransformError Unit)

theorem ofResult_ne_skipped : ofResult result ≠ skipped := by
  intro h
  cases result <;> cases h

theorem ofAlone_ne_applied : ofAlone result ≠ applied := by
  intro h
  cases result <;> cases h

theorem ofAlone_ne_skipped : ofAlone result ≠ skipped := by
  intro h
  cases result <;> cases h

end

end Fate

structure Entry where
  directive : PlacedDirective
  kind : TransformationKind
  fate : Fate

namespace Entry

def request (entry : Entry) : PlacedDirective × TransformationKind :=
  (entry.directive, entry.kind)

def diagnostic? (file : String) (entry : Entry) : Option Diagnostic :=
  (entry.fate.complaint? entry.kind.keyword).map fun complaint ↦
    { file, line := entry.directive.line, severity := complaint.1, message := complaint.2 }

end Entry

namespace Transformation

def request (transformation : Transformation) : PlacedDirective × TransformationKind :=
  (transformation.directive, transformation.kind)

def settled (transformation : Transformation) (fate : Fate) : Entry :=
  { directive := transformation.directive, kind := transformation.kind, fate }

/-- An analysis, on some document, has made the plan of the transformation. -/
def AcceptedBy (context : Context) (transformation : Transformation) : Prop :=
  ∃ doc plan, Plan.analyse context transformation.kind doc transformation.directive =
    some plan ∧ transformation.stage.plan? = some plan

section Analyse

variable {context : Context} {transformation : Transformation} (doc : Document)

theorem kind_analyse : (transformation.analyse context doc).kind = transformation.kind := by
  unfold analyse
  split <;> rfl

theorem request_analyse :
    (transformation.analyse context doc).request = transformation.request := by
  rw [request, directive_analyse, kind_analyse]
  rfl

theorem settled_analyse (fate : Fate) :
    (transformation.analyse context doc).settled fate = transformation.settled fate := by
  rw [settled, directive_analyse, kind_analyse]
  rfl

variable {doc}

theorem analyse_eq_none_of_not_accepted
    (h : (transformation.analyse context doc).isAccepted = false) :
    Plan.analyse context transformation.kind doc transformation.directive = none := by
  unfold analyse at h
  split at h
  · cases h
  · assumption

theorem acceptedBy_analyse (h : (transformation.analyse context doc).isAccepted) :
    (transformation.analyse context doc).AcceptedBy context := by
  obtain ⟨plan, hplan⟩ := Option.isSome_iff_exists.mp h
  refine ⟨doc, plan, ?_, hplan⟩
  rw [kind_analyse, directive_analyse]
  exact analyse_of_plan? hplan

end Analyse

theorem plan?_applyWith (context : Context) (workspace : Workspace)
    {member partner : Transformation} {doc : Document}
    (h : member.canPair doc partner) :
    partner.isAccepted ∧ (member.applyWith context partner workspace).1.2.stage.plan? = none ∧
      (member.applyWith context partner workspace).1.2.request = partner.request := by
  obtain ⟨one, other, hone, hother, -⟩ := fusions_of_canPair h
  unfold applyWith
  simp [isAccepted, hone, hother, Stage.plan?_after, request]

end Transformation

def Report.settle (report : Report) (entries : List Entry) : Report where
  file := report.file
  diagnostics := report.diagnostics ++ entries.filterMap (Entry.diagnostic? report.file)
  applied := report.applied + entries.countP (·.fate.isApplied)
  dropped := report.dropped + entries.countP (·.fate.isDropped)

theorem Report.settle_nil (report : Report) : report.settle [] = report := by
  simp [settle]

theorem Report.settle_append (report : Report) (entries others : List Entry) :
    report.settle (entries ++ others) = (report.settle entries).settle others := by
  simp [settle, append_assoc, Nat.add_assoc]

theorem Report.settle_skipped (report : Report) (transformation : Transformation) :
    report.settle [transformation.settled .skipped] = report := by
  have hnone : [transformation.settled .skipped].filterMap (Entry.diagnostic? report.file) = [] :=
    rfl
  rw [settle, hnone, append_nil]
  rfl

namespace Progress

variable {progress : Progress} {transformation : Transformation}

theorem report_reject :
    (progress.reject transformation.kind.keyword transformation.line).report =
      progress.report.settle [transformation.settled .rejected] :=
  rfl

theorem report_record (result : Except TransformError Unit) :
    (progress.record transformation.kind.keyword transformation.line result).report =
      progress.report.settle [transformation.settled (.ofResult result)] := by
  cases result with
  | ok value =>
    have hnone : [transformation.settled .applied].filterMap
        (Entry.diagnostic? progress.report.file) = [] := rfl
    rw [Report.settle, Fate.ofResult, hnone, append_nil]
    rfl
  | error cause => rfl

theorem report_recordAlone (result : Except TransformError Unit) :
    (progress.recordAlone transformation.kind.keyword transformation.line result).report =
      progress.report.settle [transformation.settled (.ofAlone result)] := by
  cases result <;> rfl

end Progress

namespace Run

variable {context : Context} {kind : TransformationKind} {progress : Progress}
  {member : Transformation} {members : List Transformation}

/-! ### Turns -/

/-- One turn of a run: what it does to the workspace and which directives it settles. -/
inductive Turn (context : Context) : Workspace → List Entry → Workspace → Prop
  | skip (workspace : Workspace) (member : Transformation)
    (hgone : member.isLive workspace.program.document = false) :
    Turn context workspace [member.settled .skipped] workspace
  | reject (workspace : Workspace) (member : Transformation)
    (hlive : member.isLive workspace.program.document = true)
    (hplan : Plan.analyse context member.kind workspace.program.document member.directive = none) :
    Turn context workspace [member.settled .rejected] workspace
  | single (workspace : Workspace) (member : Transformation) (plan : Plan)
    (hlive : member.isLive workspace.program.document = true)
    (hanalysed : Plan.analyse context member.kind workspace.program.document member.directive =
      some plan) (hplan : member.stage.plan? = some plan) :
    Turn context workspace [member.settled (.ofResult (member.apply context workspace).2.result)]
      (member.apply context workspace).2.state
  | alone (workspace : Workspace) (member : Transformation)
    (hlive : member.isLive workspace.program.document = true)
    (hgrouping : member.kind.grouping = .dependent) (accepted : member.AcceptedBy context) :
    Turn context workspace [member.settled (.ofAlone (member.apply context workspace).2.result)]
      (member.apply context workspace).2.state
  | pair (workspace : Workspace) (member partner : Transformation)
    (hlive : member.isLive workspace.program.document = true)
    (hpartner : partner.isLive workspace.program.document = true)
    (hpair : member.canPair workspace.program.document partner = true) :
    Turn context workspace
      [member.settled (.ofResult (member.applyWith context partner workspace).2.result),
        partner.settled (.ofResult (member.applyWith context partner workspace).2.result)]
      (member.applyWith context partner workspace).2.state

inductive Turns (context : Context) : Workspace → List Entry → Workspace → Prop
  | refl (workspace : Workspace) : Turns context workspace [] workspace
  | head {before middle after : Workspace} {entries others : List Entry}
    (turn : Turn context before entries middle) (rest : Turns context middle others after) :
    Turns context before (entries ++ others) after

/-- Turns one after the other, with a property of the workspace before and after each of them. -/
inductive Passes (context : Context) (property : Workspace → Prop) :
    Workspace → List Entry → Workspace → Prop
  | refl {workspace : Workspace} (h : property workspace) :
    Passes context property workspace [] workspace
  | head {before middle after : Workspace} {entries others : List Entry} (h : property before)
    (turn : Turn context before entries middle)
    (rest : Passes context property middle others after) :
    Passes context property before (entries ++ others) after

variable {property : Workspace → Prop} {entries others : List Entry}

namespace Passes

variable {before middle after : Workspace}

theorem trans (first : Passes context property before entries middle)
    (second : Passes context property middle others after) :
    Passes context property before (entries ++ others) after := by
  induction first with
  | refl => exact second
  | head h turn _ ih =>
    rw [append_assoc]
    exact .head h turn (ih second)

variable (passes : Passes context property before entries after)

include passes

theorem turns : Turns context before entries after := by
  induction passes with
  | refl => exact .refl _
  | head _ turn _ ih => exact .head turn ih

theorem last : property after := by
  induction passes with
  | refl h => exact h
  | head _ _ _ ih => exact ih

theorem mono {weaker : Workspace → Prop} (hweaker : ∀ workspace, property workspace →
    weaker workspace) : Passes context weaker before entries after := by
  induction passes with
  | refl h => exact .refl (hweaker _ h)
  | head h turn _ ih => exact .head (hweaker _ h) turn ih

end Passes

/-- The progress is made in turns that keep the property, and the report tells of them. -/
structure Advances (context : Context) (property : Workspace → Prop) (before : Progress)
    (entries : List Entry) (after : Progress) : Prop where
  passes : Passes context property before.workspace entries after.workspace
  report : after.report = before.report.settle entries

namespace Advances

variable {before after : Progress}

theorem refl (h : property progress.workspace) : Advances context property progress [] progress :=
  ⟨.refl h, (Report.settle_nil _).symm⟩

theorem trans {middle : Progress} (first : Advances context property before entries middle)
    (second : Advances context property middle others after) :
    Advances context property before (entries ++ others) after :=
  ⟨first.passes.trans second.passes, by rw [second.report, first.report, Report.settle_append]⟩

theorem of_turn (h : property before.workspace)
    (turn : Turn context before.workspace entries after.workspace)
    (hafter : property after.workspace) (report : after.report = before.report.settle entries) :
    Advances context property before entries after :=
  ⟨append_nil entries ▸ .head h turn (.refl hafter), report⟩

theorem mono {weaker : Workspace → Prop} (advances : Advances context property before entries after)
    (hweaker : ∀ workspace, property workspace → weaker workspace) :
    Advances context weaker before entries after :=
  ⟨advances.passes.mono hweaker, advances.report⟩

end Advances

variable {found : PlacedDirective → Prop} {inside : NodeId → Prop}

theorem advances_skip (h : property progress.workspace)
    (hgone : member.isLive progress.document = false) :
    Advances context property progress [member.settled .skipped] progress :=
  .of_turn h (.skip _ member hgone) h (Report.settle_skipped ..).symm

theorem advances_reject (h : property progress.workspace)
    (hlive : member.isLive progress.document)
    (haccepted : (member.analyse context progress.document).isAccepted = false) :
    Advances context property progress [member.settled .rejected]
      (progress.reject member.kind.keyword member.line) :=
  .of_turn h (.reject _ member hlive (Transformation.analyse_eq_none_of_not_accepted haccepted)) h
    Progress.report_reject

/-! ### Independent groups -/

theorem advances_applyMember (keeps : Group.Keeps context found inside kind property)
    (hkind : member.kind = kind) (hpragma : found member.directive)
    (h : property progress.workspace) :
    ∃ fate, Advances context property progress [member.settled fate]
      (Group.applyMember context kind.keyword member progress).2 := by
  subst hkind
  unfold Group.applyMember
  dsimp only
  by_cases hlive : member.isLive progress.document
  · rw [if_pos hlive]
    by_cases haccepted : (member.analyse context progress.document).isAccepted
    · rw [if_pos haccepted]
      obtain ⟨plan, hplan⟩ := Option.isSome_iff_exists.mp haccepted
      have hanalysed := Transformation.analyse_of_plan? hplan
      have hturn := Turn.single progress.workspace (member.analyse context progress.document) plan
        (by rwa [Transformation.isLive, Transformation.directive_analyse])
        (by rwa [Transformation.kind_analyse, Transformation.directive_analyse]) hplan
      rw [Transformation.settled_analyse] at hturn
      refine ⟨_, .of_turn h ?_ ?_ (Progress.report_record _)⟩
      · rwa [Progress.workspace_record]
      · rw [Progress.workspace_record]
        refine keeps.applyAnalysed ?_ hplan ?_ h <;> rwa [Transformation.directive_analyse]
    · rw [if_neg haccepted]
      exact ⟨_, advances_reject h hlive (eq_false_of_ne_true haccepted)⟩
  · rw [if_neg hlive]
    exact ⟨_, advances_skip h (eq_false_of_ne_true hlive)⟩

/-- Assumes: members that keep the property. They take their turns in order. -/
theorem advances_applyEach (keeps : Group.Keeps context found inside kind property)
    (hmembers : ∀ member ∈ members, member.kind = kind ∧ found member.directive)
    (h : property progress.workspace) :
    ∃ entries, Advances context property progress entries
        (Group.applyEach context kind.keyword members progress).2 ∧
      entries.map Entry.request = members.map Transformation.request := by
  induction members generalizing progress with
  | nil => exact ⟨[], .refl h, rfl⟩
  | cons member rest ih =>
    obtain ⟨⟨hkind, hpragma⟩, hrest⟩ := forall_mem_cons.mp hmembers
    obtain ⟨fate, hfirst⟩ := advances_applyMember keeps hkind hpragma h
    obtain ⟨entries, hothers, hrequests⟩ := ih hrest hfirst.passes.last
    refine ⟨member.settled fate :: entries, hfirst.trans hothers, ?_⟩
    rw [map_cons, hrequests]
    rfl

/-! ### Dependent groups -/

def pending (members : List Transformation) : List (PlacedDirective × TransformationKind) :=
  (members.filter Transformation.isAccepted).map Transformation.request

theorem pending_cons_of_accepted (h : member.isAccepted) :
    pending (member :: members) = member.request :: pending members := by
  rw [pending, filter_cons_of_pos h]
  rfl

theorem pending_cons_of_not_accepted (h : member.isAccepted = false) :
    pending (member :: members) = pending members := by
  rw [pending, filter_cons_of_neg (by simp [h])]
  rfl

theorem perm_pending_set {position : Nat} {replacement : Transformation}
    (hget : members[position]? = some member) (hmember : member.isAccepted)
    (hreplacement : replacement.isAccepted = false) :
    (pending members).Perm (member.request :: pending (members.set position replacement)) := by
  induction members generalizing position with
  | nil => cases hget
  | cons first rest ih =>
    cases position with
    | zero =>
      cases hget
      rw [set_cons_zero, pending_cons_of_accepted hmember,
        pending_cons_of_not_accepted hreplacement]
    | succ position =>
      have hrest := ih hget
      rw [set_cons_succ]
      by_cases hfirst : first.isAccepted
      · rw [pending_cons_of_accepted hfirst, pending_cons_of_accepted hfirst]
        exact (hrest.cons _).trans (.swap ..)
      · rwa [pending_cons_of_not_accepted (eq_false_of_ne_true hfirst),
          pending_cons_of_not_accepted (eq_false_of_ne_true hfirst)]

/-- The transformation is a fusion inside, and if it is accepted, an analysis has accepted it. -/
structure Ready (context : Context) (found : PlacedDirective → Prop) (inside : NodeId → Prop)
    (member : Transformation) : Prop extends Group.FusesInside found inside member where
  kind_eq : member.kind = .fusion
  accepted : member.isAccepted = true → member.AcceptedBy context

section Fusions

variable (keeps : Group.Keeps context found inside .fusion property)

include keeps

theorem advances_analyseEach (hmembers : ∀ member ∈ members, member.kind = .fusion ∧
      member.stage = .new ∧ found member.directive) (h : property progress.workspace) :
    ∃ entries, Advances context property progress entries
        (Group.analyseEach context TransformationKind.fusion.keyword members progress).2 ∧
      (members.map Transformation.request).Perm (entries.map Entry.request ++
        pending (Group.analyseEach context TransformationKind.fusion.keyword members progress).1) ∧
      ∀ member ∈ (Group.analyseEach context TransformationKind.fusion.keyword members progress).1,
        Ready context found inside member := by
  induction members generalizing progress with
  | nil => exact ⟨[], .refl h, .refl _, by simp [Group.analyseEach]⟩
  | cons member rest ih =>
    obtain ⟨⟨hkind, hstage, hpragma⟩, hrest⟩ := forall_mem_cons.mp hmembers
    unfold Group.analyseEach
    dsimp only
    by_cases hlive : member.isLive progress.document
    · rw [if_pos hlive]
      dsimp only
      have hready : Ready context found inside (member.analyse context progress.document) := by
        refine ⟨⟨?_, fun plan hplan ↦ ?_⟩, (Transformation.kind_analyse _).trans hkind,
          Transformation.acceptedBy_analyse⟩
        · rwa [Transformation.directive_analyse]
        · have hanalysed := Transformation.analyse_of_plan? hplan
          rw [hkind] at hanalysed
          obtain ⟨fusion, -, rfl⟩ := Option.map_eq_some_iff.mp hanalysed
          exact ⟨fusion, rfl, keeps.inside_loop h hpragma hanalysed⟩
      by_cases haccepted : (member.analyse context progress.document).isAccepted
      · rw [if_pos haccepted]
        obtain ⟨entries, hadvances, hperm, hothers⟩ := ih hrest h
        refine ⟨entries, hadvances, ?_, forall_mem_cons.mpr ⟨hready, hothers⟩⟩
        rw [pending_cons_of_accepted haccepted, Transformation.request_analyse]
        exact (hperm.cons _).trans perm_middle.symm
      · rw [if_neg haccepted]
        have hfirst := advances_reject h hlive (eq_false_of_ne_true haccepted)
        rw [hkind] at hfirst
        obtain ⟨entries, hadvances, hperm, hothers⟩ := ih hrest hfirst.passes.last
        refine ⟨_, hfirst.trans hadvances, ?_, forall_mem_cons.mpr ⟨hready, hothers⟩⟩
        rw [pending_cons_of_not_accepted (eq_false_of_ne_true haccepted)]
        exact hperm.cons _
    · -- A member that was passed over was never analysed, so it is not pending.
      rw [if_neg hlive]
      have hnone : member.stage.plan? = none := by
        rw [hstage]
        rfl
      have hnew : member.isAccepted = false := by
        rw [Transformation.isAccepted, hnone]
        rfl
      obtain ⟨entries, hadvances, hperm, hothers⟩ := ih hrest h
      refine ⟨_, (advances_skip h (eq_false_of_ne_true hlive)).trans hadvances, ?_,
        forall_mem_cons.mpr ⟨⟨⟨hpragma, by simp [hnone]⟩, hkind, by simp [hnew]⟩, hothers⟩⟩
      rw [pending_cons_of_not_accepted hnew]
      exact hperm.cons _

/-- Assumes: fusions that are ready. One takes its turn, with or without a partner. -/
theorem advances_applyPaired (hmember : Ready context found inside member)
    {later : List Transformation} (hlater : ∀ member ∈ later, Ready context found inside member)
    (h : property progress.workspace) :
    let step := Group.applyPaired context TransformationKind.fusion.keyword member later progress
    (∃ entries, Advances context property progress entries step.2.2 ∧
      (pending (member :: later)).Perm (entries.map Entry.request ++ pending step.2.1)) ∧
      ∀ other ∈ step.2.1, Ready context found inside other := by
  dsimp only
  unfold Group.applyPaired
  dsimp only
  split
  · next hready =>
    obtain ⟨hthere, hlive⟩ := Bool.and_eq_true_iff.mp hready
    rw [pending_cons_of_accepted hthere]
    split
    · next position partner hfound =>
      obtain ⟨hget, hpartnerLive, hpair⟩ := Group.canPair_of_partner? hfound
      have hpartner := hlater partner (mem_of_getElem? hget)
      obtain ⟨hpending, hplan, hsame⟩ :=
        Transformation.plan?_applyWith context progress.workspace hpair
      have hdone :
          (member.applyWith context partner progress.workspace).1.2.isAccepted = false := by
        rw [Transformation.isAccepted, hplan]
        rfl
      refine ⟨⟨_, .of_turn h (by
        rw [Progress.workspace_record, Progress.workspace_record]
        exact .pair _ member partner hlive hpartnerLive hpair) ?_ ?_, ?_⟩, ?_⟩
      · rw [Progress.workspace_record, Progress.workspace_record]
        exact keeps.applyWith rfl hmember.toFusesInside hpartner.toFusesInside hpair h
      · rw [← hpartner.kind_eq, Progress.report_record, hpartner.kind_eq, ← hmember.kind_eq,
          Progress.report_record, ← Report.settle_append]
        rfl
      · exact (perm_pending_set hget hpending hdone).cons _
      · intro other hother
        rcases mem_or_eq_of_mem_set hother with hother | rfl
        · exact hlater other hother
        · refine ⟨⟨?_, by simp [hplan]⟩, ?_, by simp [hdone]⟩
          · exact (congrArg (fun request ↦ found request.1) hsame).mpr hpartner.directive
          · exact (congrArg Prod.snd hsame).trans hpartner.kind_eq
    · have hturn := Turn.alone progress.workspace member hlive (by rw [hmember.kind_eq]; rfl)
        (hmember.accepted hthere)
      refine ⟨⟨_, .of_turn h (by rwa [Progress.workspace_recordAlone]) ?_ ?_, ?_⟩, hlater⟩
      · rw [Progress.workspace_recordAlone]
        exact keeps.applyAlone hmember.toFusesInside hthere h
      · rw [← hmember.kind_eq]
        exact Progress.report_recordAlone _
      · exact .refl _
  · next hready =>
    by_cases hthere : member.isAccepted
    · have hgone : member.isLive progress.document = false := by
        simpa [hthere] using hready
      refine ⟨⟨_, advances_skip h hgone, ?_⟩, hlater⟩
      rw [pending_cons_of_accepted hthere]
      exact .refl _
    · refine ⟨⟨[], .refl h, ?_⟩, hlater⟩
      rw [pending_cons_of_not_accepted (eq_false_of_ne_true hthere)]
      exact .refl _

/-- Assumes: fusions that are ready. Those that are pending take one turn each. -/
theorem advances_pairEach (hmembers : ∀ member ∈ members, Ready context found inside member)
    (h : property progress.workspace) :
    ∃ entries, Advances context property progress entries
        (Group.pairEach context TransformationKind.fusion.keyword members progress).2 ∧
      (pending members).Perm (entries.map Entry.request) := by
  induction members, progress using
    Group.pairEach.induct context TransformationKind.fusion.keyword with
  | case1 progress =>
    rw [Group.pairEach]
    exact ⟨[], .refl h, .refl _⟩
  | case2 progress member later step _ _ _ ih =>
    obtain ⟨hmember, hothers⟩ := forall_mem_cons.mp hmembers
    obtain ⟨⟨entries, hadvances, hperm⟩, hlater⟩ :=
      advances_applyPaired keeps hmember hothers h
    obtain ⟨others, hrest, hdone⟩ := ih hlater hadvances.passes.last
    rw [Group.pairEach]
    refine ⟨entries ++ others, hadvances.trans hrest, ?_⟩
    rw [map_append]
    exact hperm.trans (hdone.append_left _)

end Fusions

/-! ### Runs of groups -/

section Groups

variable {found : TransformationKind → PlacedDirective → Prop}

theorem advances_apply (keeps : Group.Keeps context (found kind) inside kind property)
    {group : Group} (hgroup : Group.IsOf found kind group) (h : property progress.workspace) :
    ∃ entries, Advances context property progress entries (group.apply context progress).2 ∧
      (group.members.map Transformation.request).Perm (entries.map Entry.request) := by
  unfold Group.apply
  rw [hgroup.keyword, hgroup.grouping]
  split
  · obtain ⟨entries, hadvances, hrequests⟩ := advances_applyEach keeps (fun member hmember ↦
      (hgroup.members member hmember).imp_right And.right) h
    exact ⟨entries, hadvances, .of_eq hrequests.symm⟩
  · next hgrouping =>
    obtain rfl : kind = .fusion := by
      cases kind <;> first | rfl | cases hgrouping
    obtain ⟨entries, hanalysed, hperm, hready⟩ := advances_analyseEach keeps hgroup.members h
    obtain ⟨others, hpaired, hrest⟩ := advances_pairEach keeps hready hanalysed.passes.last
    refine ⟨entries ++ others, hanalysed.trans hpaired, ?_⟩
    rw [map_append]
    exact hperm.trans (hrest.append_left _)

/-- Assumes: what each kind keeps holds at first. It holds along the run, in one turn per request.
-/
theorem advances_applyGroups {kinds : List TransformationKind} {groups : List Group}
    (keeps : ∀ kind ∈ kinds, Group.Keeps context (found kind) inside kind property)
    (hgroups : List.Forall₂ (Group.IsOf found) kinds groups)
    (h : property progress.workspace) :
    ∃ entries, Advances context property progress entries (applyGroups context groups progress) ∧
      ((groups.flatMap Group.members).map Transformation.request).Perm
        (entries.map Entry.request) := by
  induction hgroups generalizing progress with
  | nil => exact ⟨[], .refl h, .refl _⟩
  | cons hgroup _ ih =>
    obtain ⟨hkeeps, hrest⟩ := forall_mem_cons.mp keeps
    obtain ⟨entries, hfirst, hperm⟩ := advances_apply hkeeps hgroup h
    obtain ⟨others, hsecond, hothers⟩ := ih hrest hfirst.passes.last
    refine ⟨entries ++ others, hfirst.trans hsecond, ?_⟩
    rw [flatMap_cons, map_append, map_append]
    exact hperm.append hothers

theorem settles_applyGroups (context : Context) (progress : Progress)
    {kinds : List TransformationKind} {groups : List Group}
    (hgroups : List.Forall₂ (Group.IsOf found) kinds groups) :
    ∃ entries, (Turns context progress.workspace entries
        (applyGroups context groups progress).workspace ∧
      (applyGroups context groups progress).report = progress.report.settle entries) ∧
      ((groups.flatMap Group.members).map Transformation.request).Perm
        (entries.map Entry.request) := by
  have keeps (kind : TransformationKind) :
      Group.Keeps context (found kind) (fun _ ↦ True) kind fun _ ↦ True :=
    ⟨fun _ _ _ _ ↦ trivial, fun _ _ _ ↦ trivial, fun _ _ _ ↦ trivial, fun _ _ _ _ _ _ ↦ trivial⟩
  have htrue : (fun _ ↦ True) progress.workspace := trivial
  obtain ⟨entries, hadvances, hperm⟩ :=
    advances_applyGroups (fun kind _ ↦ keeps kind) hgroups htrue
  exact ⟨entries, ⟨hadvances.passes.turns, hadvances.report⟩, hperm⟩

end Groups

end Run

end LoopDirectives
