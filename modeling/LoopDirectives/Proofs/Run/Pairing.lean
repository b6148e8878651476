import LoopDirectives.Proofs.Markup.Reading
import LoopDirectives.Proofs.Pragma.Reserved
import LoopDirectives.Proofs.Run.Discovery
import LoopDirectives.Proofs.Transformation.Fusing

/-!
# Fusions are paired greedily and lose no statement

`Run.Pairing` is the rule of pairing: the candidates take their turns in document order, and each
one that is still there is fused with the first later one that suits it at that moment, or loses its
pragma. A group of fusions follows the rule (`Run.exists_pairing_pairEach`), since loops found
before the first turn stay fit to be fused until their own turn (`Run.Fusible`). Nothing but pragmas
is lost that is not part of a loop that was merged into another one (`Run.exists_pairing_of_read`).
-/

namespace LoopDirectives

open Document List

namespace Run

variable {doc after : Document} {pairs : List (Candidate × Candidate)}

/-! ### The rule of pairing -/

/-- The candidates take their turns in order. The list of pairs says which were fused with which. -/
inductive Pairing : Document → List Candidate → List (Candidate × Candidate) → Document → Prop
  | done (doc : Document) : Pairing doc [] [] doc
  /-- The pragma is gone, so that the candidate is passed over. -/
  | pass {doc after : Document} {candidate : Candidate} {rest : List Candidate}
    {pairs : List (Candidate × Candidate)} (hgone : ¬ candidate.Attached doc)
    (hrest : Pairing doc rest pairs after) :
    Pairing doc (candidate :: rest) pairs after
  | alone {doc middle after : Document} {candidate : Candidate} {rest : List Candidate}
    {pairs : List (Candidate × Candidate)} (hattached : candidate.Attached doc)
    (hnone : ∀ other ∈ rest, ¬ candidate.Suits doc other)
    (hloses : LosesOnly doc middle candidate.pragma)
    (hrest : Pairing middle rest pairs after) :
    Pairing doc (candidate :: rest) pairs after
  /-- The partner is the first of the later candidates that suits, and takes no further turn. -/
  | pair {doc middle after : Document} {candidate partner : Candidate}
    {between later : List Candidate} {pairs : List (Candidate × Candidate)}
    (hattached : candidate.Attached doc)
    (hfirst : ∀ other ∈ between, ¬ candidate.Suits doc other)
    (hpartner : candidate.Suits doc partner)
    (hfused : candidate.Fused doc middle partner)
    (hrest : Pairing middle (between ++ later) pairs after) :
    Pairing doc (candidate :: (between ++ partner :: later)) ((candidate, partner) :: pairs)
      after

def paired (pairs : List (Candidate × Candidate)) : List Candidate :=
  pairs.flatMap fun pair ↦ [pair.1, pair.2]

theorem Pairing.subperm_paired {candidates : List Candidate}
    (pairing : Pairing doc candidates pairs after) : (paired pairs).Subperm candidates := by
  induction pairing with
  | done => exact .refl _
  | pass _ _ ih => exact ih.trans (sublist_cons_self ..).subperm
  | alone _ _ _ _ ih => exact ih.trans (sublist_cons_self ..).subperm
  | @pair _ _ _ candidate partner between later pairs _ _ _ _ _ ih =>
    have hpartner : (partner :: paired pairs).Subperm (between ++ partner :: later) :=
      ((subperm_cons partner).mpr ih).trans perm_middle.symm.subperm
    exact (subperm_cons candidate).mpr hpartner

theorem Pairing.nodup_paired {candidates : List Candidate}
    (pairing : Pairing doc candidates pairs after)
    (hnodup : (candidates.map Candidate.pragma).Nodup) :
    ((paired pairs).map Candidate.pragma).Nodup := by
  obtain ⟨found, hperm, hsublist⟩ := pairing.subperm_paired
  exact (hperm.map _).nodup_iff.mp (hnodup.sublist (hsublist.map _))

/-! ### What stays true from turn to turn -/

/-- What a document is like between two turns: its nodes are below the root, its pragmas are leaves,
and the candidates that are left are ready and have no more in their headers than at first. -/
structure Fusible (origin : Document) (root : NodeId) (doc : Document)
    (candidates : List Candidate) : Prop where
  forest : doc.Forest
  rooted : doc.RootedAt [root]
  leaf : doc.LeafPragmas
  ready : ∀ candidate ∈ candidates, candidate.Ready doc
  header : ∀ candidate ∈ candidates, ∀ x, candidate.InHeader doc x →
    candidate.InHeader origin x

/-- The node belongs to a loop that was merged into another one: it is the loop itself, its body, or
a part of its header. -/
def LostWith (origin : Document) (candidate : Candidate) (x : NodeId) : Prop :=
  x = candidate.loop ∨ x = candidate.body ∨ candidate.InHeader origin x

section Fusible

variable {origin doc : Document} {root : NodeId} {candidate partner : Candidate}
  {rest between later : List Candidate}

theorem Fusible.subset (fusible : Fusible origin root doc rest) {some : List Candidate}
    (h : ∀ candidate ∈ some, candidate ∈ rest) : Fusible origin root doc some :=
  ⟨fusible.forest, fusible.rooted, fusible.leaf, fun candidate hmem ↦
    fusible.ready candidate (h candidate hmem), fun candidate hmem ↦
    fusible.header candidate (h candidate hmem)⟩

theorem Fusible.reshaped (fusible : Fusible origin root doc rest) {after : Document}
    {moved doomed : List NodeId} {target : NodeId}
    (reshaped : Reshaped doc after moved target doomed)
    (hheader : ∀ candidate x, Candidate.Ready doc candidate → candidate.InHeader after x →
      candidate.InHeader doc x) : Fusible origin root after rest :=
  ⟨reshaped.forest, reshaped.rootedAt fusible.rooted, reshaped.leafPragmas fusible.leaf,
    fun candidate hmem ↦ reshaped.ready fusible.forest (fusible.ready candidate hmem),
    fun candidate hmem x hx ↦
      fusible.header candidate hmem x (hheader candidate x (fusible.ready candidate hmem) hx)⟩

theorem Fusible.alone (fusible : Fusible origin root doc (candidate :: rest))
    (hattached : candidate.Attached doc) :
    LosesOnly doc (doc.delete candidate.pragma) candidate.pragma ∧
      Fusible origin root (doc.delete candidate.pragma) rest := by
  obtain ⟨parent, hparent⟩ := hattached
  have hready := fusible.ready candidate (mem_cons_self ..)
  obtain ⟨hkind, htext⟩ := hready.pragma (contains_of_parent? hparent)
  have hreshaped : Reshaped doc (doc.delete candidate.pragma) [] candidate.pragma
      [candidate.pragma] := Candidate.reshaped_delete fusible.forest (by simp [hkind])
  refine ⟨Candidate.losesOnly_delete fusible.forest (fusible.leaf _ hkind htext),
    (fusible.subset fun other hother ↦ mem_cons_of_mem _ hother).reshaped hreshaped ?_⟩
  intro other x ready hx
  rcases hreshaped.inHeader_cases fusible.forest ready hx with h | ⟨_, _, _, _, _, hnone, _⟩
  · exact h
  · cases hnone

theorem Fusible.pair
    (fusible : Fusible origin root doc (candidate :: (between ++ partner :: later)))
    (hattached : candidate.Attached doc) (suits : candidate.Suits doc partner)
    (marker : String) :
    ∃ performed, Fusion.perform marker doc candidate.fusion partner.fusion = .ok performed ∧
      Candidate.Fused doc ((performed.delete candidate.pragma).delete partner.pragma)
        candidate partner ∧
      Fusible origin root ((performed.delete candidate.pragma).delete partner.pragma)
        (between ++ later) := by
  obtain ⟨performed, doomed, hperform, hfused, hreshaped, hheader⟩ :=
    Candidate.exists_fused fusible.forest fusible.leaf
      (fusible.ready candidate (mem_cons_self ..)) (fusible.ready partner (by simp))
      hattached suits marker
  refine ⟨performed, hperform, hfused, (fusible.subset fun other hother ↦ ?_).reshaped hreshaped
    hheader⟩
  rcases mem_append.mp hother with hother | hother <;> simp [hother]

end Fusible

end Run

/-! ### The members of a group as candidates -/

namespace Transformation

variable {origin doc : Document} {member partner : Transformation}
  {candidate other : Candidate} {workspace : Workspace}

def candidate? (origin : Document) (member : Transformation) : Option Candidate :=
  match member.stage.plan? with
  | some (.fusion fusion) => (Loop.body? origin fusion.loop).map fun body ↦
      { pragma := member.directive.pragma, fusion, body }
  | _ => none

theorem candidate?_eq_some_iff : member.candidate? origin = some candidate ↔
    member.stage.plan? = some (.fusion candidate.fusion) ∧
      Loop.body? origin candidate.loop = some candidate.body ∧
      member.directive.pragma = candidate.pragma := by
  unfold candidate?
  split
  · next fusion hplan =>
    rw [hplan, Option.map_eq_some_iff]
    constructor
    · rintro ⟨body, hbody, rfl⟩
      exact ⟨rfl, hbody, rfl⟩
    · rintro ⟨hfusion, hbody, hpragma⟩
      cases hfusion
      exact ⟨candidate.body, hbody, by rw [hpragma]⟩
  · next hnone => exact ⟨nofun, fun h ↦ absurd h.1 (hnone _)⟩

theorem isLive_iff (h : member.candidate? origin = some candidate) :
    member.isLive doc ↔ candidate.Attached doc := by
  rw [isLive, (candidate?_eq_some_iff.mp h).2.2, Option.isSome_iff_exists]
  rfl

theorem suits_iff (forest : doc.Forest) (hmember : member.candidate? origin = some candidate)
    (hpartner : partner.candidate? origin = some other) :
    (partner.isLive doc && member.canPair doc partner) ↔
      candidate.Suits doc other := by
  obtain ⟨hplan, -, -⟩ := candidate?_eq_some_iff.mp hmember
  obtain ⟨hotherPlan, -, hpragma⟩ := candidate?_eq_some_iff.mp hpartner
  rw [Bool.and_eq_true, Candidate.suits_iff forest, isLive, hpragma, canPair, hplan, hotherPlan]
  rfl

theorem document_apply (context : Context) (h : member.candidate? origin = some candidate) :
    (member.apply context workspace).2.state.program.document =
      workspace.program.document.delete candidate.pragma := by
  obtain ⟨hplan, -, hpragma⟩ := candidate?_eq_some_iff.mp h
  rw [apply, hplan, ← hpragma]
  rfl

theorem document_applyWith (context : Context) {performed : Document}
    (hmember : member.candidate? origin = some candidate)
    (hpartner : partner.candidate? origin = some other)
    (h : Fusion.perform context.settings.marker workspace.program.document candidate.fusion
      other.fusion = .ok performed) :
    (member.applyWith context partner workspace).2.state.program.document =
      (performed.delete candidate.pragma).delete other.pragma := by
  obtain ⟨hplan, -, hpragma⟩ := candidate?_eq_some_iff.mp hmember
  obtain ⟨hotherPlan, -, hotherPragma⟩ := candidate?_eq_some_iff.mp hpartner
  have hperform : (Plan.fusion candidate.fusion).performWith context member.directive.pragma
      workspace (.fusion other.fusion) =
        { state :=
            { workspace with program := { workspace.program with document := performed } } } := by
    rw [Plan.performWith, Plan.onDocumentOrNothing, Plan.onDocument, h]
    rfl
  rw [applyWith, hplan, hotherPlan, ← hpragma, ← hotherPragma]
  dsimp only
  rw [hperform]
  rfl

theorem candidate?_of_not_accepted (h : member.isAccepted = false) :
    member.candidate? origin = none := by
  rw [isAccepted, Option.isSome_eq_false_iff, Option.isNone_iff_eq_none] at h
  rw [candidate?, h]

end Transformation

/-! ### One turn -/

namespace Group

variable (context : Context) (keyword : String) {origin : Document}
  {member partner : Transformation} {candidate other : Candidate}
  {later between rest : List Transformation} {progress : Progress}

def AllCandidates (origin : Document) (members : List Transformation) : Prop :=
  ∀ member ∈ members, member.isAccepted = true → (member.candidate? origin).isSome = true

theorem applyPaired_of_idle
    (hcandidate : member.isAccepted → (member.candidate? origin).isSome)
    (h : ∀ candidate, member.candidate? origin = some candidate →
      ¬ candidate.Attached progress.document) :
    applyPaired context keyword member later progress = (member, later, progress) := by
  unfold applyPaired
  split
  · next hready =>
    obtain ⟨haccepted, hlive⟩ := Bool.and_eq_true_iff.mp hready
    obtain ⟨candidate, hmember⟩ := Option.isSome_iff_exists.mp (hcandidate haccepted)
    exact absurd ((Transformation.isLive_iff hmember).mp hlive) (h candidate hmember)
  · rfl

section

variable (hmember : member.candidate? origin = some candidate)
  (hattached : candidate.Attached progress.document)

include hmember hattached

theorem ready_of_attached : (member.isAccepted && member.isLive progress.document) := by
  rw [Bool.and_eq_true, Transformation.isLive_iff hmember, Transformation.isAccepted,
    (Transformation.candidate?_eq_some_iff.mp hmember).1]
  exact ⟨rfl, hattached⟩

theorem applyPaired_alone (hnone : partner? progress.document member later = none) :
    (applyPaired context keyword member later progress).2.1 = later ∧
      (applyPaired context keyword member later progress).2.2.document =
        progress.document.delete candidate.pragma := by
  rw [applyPaired, if_pos (ready_of_attached hmember hattached), hnone]
  refine ⟨rfl, ?_⟩
  rw [Progress.document, Option.bind_none]
  dsimp only
  rw [Progress.workspace_recordAlone]
  exact Transformation.document_apply context hmember

theorem applyPaired_pair (hpartner : partner.candidate? origin = some other)
    (hpair : member.canPair progress.document partner)
    (hfound : partner? progress.document member (between ++ partner :: rest) = some between.length)
    {performed : Document}
    (hperform : Fusion.perform context.settings.marker progress.document
      candidate.fusion other.fusion = .ok performed) :
    ∃ done : Transformation, done.isAccepted = false ∧
      (applyPaired context keyword member (between ++ partner :: rest) progress).2.1 =
        between ++ done :: rest ∧
      (applyPaired context keyword member (between ++ partner :: rest) progress).2.2.document =
        (performed.delete candidate.pragma).delete other.pragma := by
  refine ⟨(member.applyWith context partner progress.workspace).1.2,
    by rw [Transformation.isAccepted,
      (Transformation.plan?_applyWith context progress.workspace hpair).2.1]; rfl, ?_⟩
  have hget : (between ++ partner :: rest)[between.length]? = some partner := by simp
  rw [applyPaired, if_pos (ready_of_attached hmember hattached), hfound, Option.bind_some, hget]
  refine ⟨by simp, ?_⟩
  dsimp only [Option.map_some]
  rw [Progress.document, Progress.workspace_record, Progress.workspace_record]
  exact Transformation.document_applyWith context hmember hpartner hperform

end

theorem exists_split_of_partner? {doc : Document} {position : Nat}
    (h : partner? doc member later = some position) :
    ∃ between partner rest, later = between ++ partner :: rest ∧ position = between.length ∧
      (partner.isLive doc && member.canPair doc partner) ∧
      ∀ other ∈ between, (other.isLive doc && member.canPair doc other) = false := by
  obtain ⟨hlt, htest, hfirst⟩ := findIdx?_eq_some_iff_getElem.mp h
  refine ⟨later.take position, later[position], later.drop (position + 1), ?_, ?_, htest, ?_⟩
  · rw [getElem_cons_drop, take_append_drop]
  · rw [length_take, Nat.min_eq_left hlt.le]
  · intro other hother
    obtain ⟨index, hindex, rfl⟩ := mem_take_iff_getElem.mp hother
    exact Bool.eq_false_iff.mpr (hfirst index (Nat.lt_min.mp hindex).1)

theorem not_suits_of_not_partner (forest : progress.document.Forest)
    (hmember : member.candidate? origin = some candidate)
    (h : ∀ other ∈ later,
      (other.isLive progress.document && member.canPair progress.document other) = false) :
    ∀ other ∈ later.filterMap (Transformation.candidate? origin),
      ¬ candidate.Suits progress.document other := by
  intro other hother suits
  obtain ⟨partner, hlater, hpartner⟩ := mem_filterMap.mp hother
  have hpair := (Transformation.suits_iff forest hmember hpartner).mpr suits
  rw [h partner hlater] at hpair
  cases hpair

end Group

/-! ### A whole group -/

namespace Run

open LoopDirectives.Group

variable {origin before middle after : Document} {root : NodeId}
  {pairs : List (Candidate × Candidate)} {members : List Transformation} {progress : Progress}

/-- Nothing but pragmas is lost that is not part of a loop that was merged into another one. -/
def Conserves (origin before after : Document) (pairs : List (Candidate × Candidate)) : Prop :=
  ∀ x, before.contains x = true → before.kind x ≠ .pragma →
    after.contains x = true ∨ ∃ pair ∈ pairs, LostWith origin pair.2 x

theorem conserves_alone {pragma : NodeId} (hloses : LosesOnly before middle pragma)
    (hkind : before.contains pragma → before.kind pragma = .pragma)
    (hrest : Conserves origin middle after pairs) : Conserves origin before after pairs := by
  intro x hlive hx
  have hne : x ≠ pragma := by
    rintro rfl
    exact hx (hkind hlive)
  refine hrest x ((hloses.contains_iff x).mpr ⟨hlive, hne⟩) ?_
  rwa [kind, hloses.label_eq x hne]

theorem conserves_pair {first second : Candidate}
    (hfused : Candidate.Fused before middle first second)
    (hheader : ∀ x, second.InHeader before x → second.InHeader origin x)
    (hrest : Conserves origin middle after pairs) :
    Conserves origin before after ((first, second) :: pairs) := by
  intro x hlive hx
  rcases hfused.kept x hlive hx with hkept | hloop | hbody | hpart
  · have hkind : middle.kind x ≠ .pragma := by rwa [kind, hfused.label_eq x hkept]
    rcases hrest x hkept hkind with h | ⟨pair, hpair, h⟩
    · exact .inl h
    · exact .inr ⟨pair, mem_cons_of_mem _ hpair, h⟩
  · exact .inr ⟨(first, second), mem_cons_self .., .inl hloop⟩
  · exact .inr ⟨(first, second), mem_cons_self .., .inr (.inl hbody)⟩
  · exact .inr ⟨(first, second), mem_cons_self .., .inr (.inr (hheader x hpart))⟩

/-- What a turn has to do with the turns after it: whatever they lead to in line with the rule, the
turn and they lead to. -/
def Leads (origin : Document) (before : Document) (candidates : List Candidate) (middle : Document)
    (left : List Candidate) : Prop :=
  ∀ pairs after, Pairing middle left pairs after → Conserves origin middle after pairs →
    ∃ all, Pairing before candidates all after ∧ Conserves origin before after all

section Turn

variable (context : Context) (keyword : String) {member : Transformation}
  {later : List Transformation} {progress : Progress} {candidate : Candidate}

section

variable (hmember : member.candidate? origin = some candidate)
  (hattached : candidate.Attached progress.document)

include hmember hattached

theorem leads_alone (hnone : partner? progress.document member later = none)
    (fusible : Fusible origin root progress.document
      (candidate :: later.filterMap (Transformation.candidate? origin))) :
    let step := applyPaired context keyword member later progress
    step.2.1 = later ∧
      Fusible origin root step.2.2.document
        (later.filterMap (Transformation.candidate? origin)) ∧
      Leads origin progress.document
        (candidate :: later.filterMap (Transformation.candidate? origin)) step.2.2.document
        (later.filterMap (Transformation.candidate? origin)) := by
  obtain ⟨hsame, hdocument⟩ := applyPaired_alone context keyword hmember hattached hnone
  obtain ⟨hloses, hnext⟩ := fusible.alone hattached
  rw [← hdocument] at hloses hnext
  refine ⟨hsame, hnext, fun pairs after pairing hconserves ↦ ⟨pairs, ?_, ?_⟩⟩
  · refine .alone hattached (not_suits_of_not_partner fusible.forest hmember ?_) hloses pairing
    exact findIdx?_eq_none_iff.mp hnone
  · exact conserves_alone hloses (fun hlive ↦
      ((fusible.ready candidate (mem_cons_self ..)).pragma hlive).1) hconserves

theorem leads_pair {position : Nat}
    (hfound : partner? progress.document member later = some position)
    (hlater : AllCandidates origin later)
    (fusible : Fusible origin root progress.document
      (candidate :: later.filterMap (Transformation.candidate? origin))) :
    let step := applyPaired context keyword member later progress
    AllCandidates origin step.2.1 ∧
      Fusible origin root step.2.2.document
        (step.2.1.filterMap (Transformation.candidate? origin)) ∧
      Leads origin progress.document
        (candidate :: later.filterMap (Transformation.candidate? origin)) step.2.2.document
        (step.2.1.filterMap (Transformation.candidate? origin)) := by
  obtain ⟨between, partner, rest, rfl, rfl, hpair, hfirst⟩ := exists_split_of_partner? hfound
  have hcanPair := (Bool.and_eq_true_iff.mp hpair).2
  have haccepted := (Transformation.plan?_applyWith context progress.workspace hcanPair).1
  obtain ⟨other, hpartner⟩ := Option.isSome_iff_exists.mp
    (hlater partner (by simp) haccepted)
  have suits := (Transformation.suits_iff fusible.forest hmember hpartner).mp hpair
  rw [filterMap_append, filterMap_cons_some hpartner] at fusible ⊢
  obtain ⟨performed, hperform, hfused, hnext⟩ :=
    fusible.pair hattached suits context.settings.marker
  obtain ⟨done, hdone, hmembers, hdocument⟩ :=
    applyPaired_pair context keyword hmember hattached hpartner hcanPair hfound hperform
  intro step
  rw [hmembers, hdocument, filterMap_append,
    filterMap_cons_none (Transformation.candidate?_of_not_accepted hdone)]
  refine ⟨fun x hx hx' ↦ ?_, hnext, fun pairs after pairing hconserves ↦
    ⟨(candidate, other) :: pairs, .pair hattached
      (not_suits_of_not_partner fusible.forest hmember hfirst) suits hfused pairing,
      conserves_pair hfused (fusible.header other (by simp)) hconserves⟩⟩
  rcases mem_append.mp hx with hx | hx
  · exact hlater x (mem_append_left _ hx) hx'
  · rcases mem_cons.mp hx with rfl | hx
    · rw [hdone] at hx'
      cases hx'
    · exact hlater x (by simp [hx]) hx'

end

theorem leads_applyPaired (hmembers : AllCandidates origin (member :: later))
    (fusible : Fusible origin root progress.document
      ((member :: later).filterMap (Transformation.candidate? origin))) :
    let step := applyPaired context keyword member later progress
    AllCandidates origin step.2.1 ∧
      Fusible origin root step.2.2.document
        (step.2.1.filterMap (Transformation.candidate? origin)) ∧
      Leads origin progress.document
        ((member :: later).filterMap (Transformation.candidate? origin)) step.2.2.document
        (step.2.1.filterMap (Transformation.candidate? origin)) := by
  obtain ⟨hcandidate, hlater⟩ := forall_mem_cons.mp hmembers
  cases hmember : member.candidate? origin with
  | none =>
    rw [filterMap_cons_none hmember] at fusible ⊢
    rw [applyPaired_of_idle context keyword hcandidate (by simp [hmember])]
    exact ⟨hlater, fusible, fun pairs after pairing hconserves ↦ ⟨pairs, pairing, hconserves⟩⟩
  | some candidate =>
    rw [filterMap_cons_some hmember] at fusible ⊢
    by_cases hattached : candidate.Attached progress.document
    · cases hfound : partner? progress.document member later with
      | none =>
        obtain ⟨hsame, hnext, hleads⟩ :=
          leads_alone context keyword hmember hattached hfound fusible
        dsimp only
        rw [hsame]
        exact ⟨hlater, hnext, hleads⟩
      | some position => exact leads_pair context keyword hmember hattached hfound hlater fusible
    · rw [applyPaired_of_idle context keyword hcandidate fun other hother ↦
        Option.some.inj (hmember.symm.trans hother) ▸ hattached]
      exact ⟨hlater, fusible.subset fun other hother ↦ mem_cons_of_mem _ hother,
        fun pairs after pairing hconserves ↦ ⟨pairs, .pass hattached pairing, hconserves⟩⟩

end Turn

/-- Assumes: fusible members. Pairing them follows the rule, and no statement is lost. -/
theorem exists_pairing_pairEach (context : Context) (keyword : String)
    (hmembers : AllCandidates origin members)
    (fusible : Fusible origin root progress.document
      (members.filterMap (Transformation.candidate? origin))) :
    Fusible origin root (pairEach context keyword members progress).2.document [] ∧
      ∃ pairs, Pairing progress.document (members.filterMap (Transformation.candidate? origin))
          pairs (pairEach context keyword members progress).2.document ∧
        Conserves origin progress.document (pairEach context keyword members progress).2.document
          pairs := by
  induction members, progress using pairEach.induct context keyword with
  | case1 progress =>
    rw [pairEach]
    exact ⟨fusible, [], .done _, fun x hx _ ↦ .inl hx⟩
  | case2 progress member later step _ _ _ ih =>
    obtain ⟨hlater, hnext, hleads⟩ := leads_applyPaired context keyword hmembers fusible
    rw [pairEach]
    obtain ⟨hfinal, pairs, pairing, hconserves⟩ := ih hlater hnext
    exact ⟨hfinal, hleads pairs _ pairing hconserves⟩

/-! ### The fusions of a program -/

/-- The candidate that a directive is, if it asks to fuse a loop that has a body. -/
def candidateOf? (doc : Document) (directive : PlacedDirective) : Option Candidate :=
  (Fusion.plan? doc directive).bind fun fusion ↦
    (Loop.body? doc fusion.loop).map fun body ↦
      { pragma := directive.pragma, fusion, body }

/-- The loops that the directives of a program ask to fuse, in document order. -/
def candidates (marker : String) (program : SourceUnit) : List Candidate :=
  ((requests marker program).filter (·.2 = .fusion)).filterMap fun request ↦
    candidateOf? program.document request.1

def SingleBodies (marker : String) (program : SourceUnit) : Prop :=
  ∀ request ∈ requests marker program, request.2 = .fusion →
    ∀ fusion, Fusion.plan? program.document request.1 = some fusion →
      ∃ body, program.document.childrenOf fusion.loop [.body] = [body]

theorem candidate?_analyse (context : Context) (doc : Document) {member : Transformation}
    (hkind : member.kind = .fusion) :
    (member.analyse context doc).candidate? doc =
      candidateOf? doc member.directive := by
  rw [Transformation.analyse, hkind, Plan.analyse, candidateOf?]
  cases Fusion.plan? doc member.directive with
  | none => rfl
  | some fusion => rfl

theorem analyseEach_of_isLive (context : Context) (keyword : String)
    (hlive : ∀ member ∈ members, member.isLive progress.document) :
    (analyseEach context keyword members progress).1 =
        members.map (Transformation.analyse context progress.document) ∧
      (analyseEach context keyword members progress).2.document = progress.document := by
  induction members generalizing progress with
  | nil => exact ⟨rfl, rfl⟩
  | cons member rest ih =>
    obtain ⟨hfirst, hothers⟩ := forall_mem_cons.mp hlive
    have hsame : (if (member.analyse context progress.document).isAccepted then progress
        else progress.reject keyword member.line).document = progress.document := by
      split <;> rfl
    obtain ⟨hanalysed, hdocument⟩ := ih (hsame.symm ▸ hothers)
    rw [hsame] at hanalysed hdocument
    rw [analyseEach, if_pos hfirst]
    exact ⟨congrArg _ hanalysed, hdocument⟩

theorem exists_pairing_apply (context : Context) {group : Group} (progress : Progress)
    (hgrouping : group.grouping = .dependent)
    (hlive : ∀ member ∈ group.members, member.isLive progress.document)
    {analysed : List Transformation}
    (hanalysed : group.members.map (Transformation.analyse context progress.document) = analysed)
    (hmembers : AllCandidates origin analysed)
    (fusible : Fusible origin root progress.document
      (analysed.filterMap (Transformation.candidate? origin))) :
    Fusible origin root (group.apply context progress).2.document [] ∧
      ∃ pairs, Pairing progress.document (analysed.filterMap (Transformation.candidate? origin))
          pairs (group.apply context progress).2.document ∧
        Conserves origin progress.document (group.apply context progress).2.document pairs := by
  obtain ⟨hresult, hdocument⟩ := analyseEach_of_isLive context group.keyword hlive
  rw [Group.apply, hgrouping]
  dsimp only
  rw [hresult, hanalysed]
  rw [← hdocument] at fusible ⊢
  exact exists_pairing_pairEach context group.keyword hmembers fusible

section Program

variable {marker : String} {program : SourceUnit} {candidate : Candidate}

theorem text_ne_of_found {directive : PlacedDirective} (found : Found marker program directive) :
    program.document.text directive.pragma ≠ "" := by
  intro hempty
  have hreserved := (Directive.isReserved_of_find? found.find?).2.1
  rw [hempty] at hreserved
  cases hreserved

theorem leafPragmas_of_read {text : String} (h : SourceUnit.read .program text = .ok program) :
    program.document.LeafPragmas := by
  intro x _ htext
  refine eq_nil_iff_forall_not_mem.mpr fun child hchild ↦ ?_
  have hleaf := (SourceUnit.neatAt_of_read h (contains_of_mem_children hchild)).leaf
  rw [Document.text, Label.text] at htext
  cases hvalue : (program.document.label x).text? with
  | none => exact htext (by rw [hvalue]; rfl)
  | some value =>
    rw [List.isEmpty_iff.mp (hleaf (by rw [hvalue]; rfl))] at hchild
    cases hchild

theorem ready_of_mem_candidates (forest : program.document.Forest)
    (hbodies : SingleBodies marker program) (h : candidate ∈ candidates marker program) :
    candidate.Ready program.document := by
  obtain ⟨request, hrequest, hcandidate⟩ := mem_filterMap.mp h
  obtain ⟨hmem, hkind⟩ := mem_filter.mp hrequest
  obtain ⟨fusion, hplan, hcandidate⟩ := Option.bind_eq_some_iff.mp hcandidate
  obtain ⟨body, hbody, rfl⟩ := Option.map_eq_some_iff.mp hcandidate
  have found := found_of_mem_requests forest hmem
  have hnext := Fusion.nextLoop?_of_plan? hplan
  obtain ⟨only, honly⟩ := hbodies request hmem (of_decide_eq_true hkind) fusion hplan
  obtain rfl : only = body :=
    Option.some.inj ((Candidate.childOf?_of_childrenOf honly).symm.trans hbody)
  refine ⟨fun _ ↦ ⟨found.kind_pragma, text_ne_of_found found⟩, fun _ ↦ ⟨?_, honly⟩, fun _ _ ↦ ?_⟩
  · simpa [isKind] using Target.isKind_of_nextLoop? hnext
  · obtain ⟨parent, hpragma, hloop⟩ :=
      forest.exists_parent?_of_mem_siblings (Or.inr (Target.mem_of_nextLoop? hnext))
    exact hpragma.trans hloop.symm

theorem nodup_candidates (forest : program.document.Forest) :
    ((candidates marker program).map Candidate.pragma).Nodup := by
  have hsublist : ((candidates marker program).map Candidate.pragma).Sublist
      (((requests marker program).filter (·.2 = .fusion)).map fun request ↦ request.1.pragma) := by
    refine sublist_map_filterMap (fun request candidate h ↦ ?_) _
    obtain ⟨fusion, -, h⟩ := Option.bind_eq_some_iff.mp h
    obtain ⟨body, -, rfl⟩ := Option.map_eq_some_iff.mp h
    rfl
  exact (nodup_requests forest).sublist (hsublist.trans (filter_sublist.map _))

theorem fusible_of_read {text : String} (h : SourceUnit.read .program text = .ok program)
    (hbodies : SingleBodies marker program) :
    Fusible program.document program.root program.document (candidates marker program) := by
  have fromText := (SourceUnit.fromText_of_read h).1
  exact ⟨fromText.forest, fromText.rooted, leafPragmas_of_read h,
    fun _ hcandidate ↦ ready_of_mem_candidates fromText.forest hbodies hcandidate,
    fun _ _ _ hx ↦ hx⟩

theorem filterMap_analyse (context : Context) (marker : String) (program : SourceUnit) :
    ((membersOf .fusion (requests marker program)).map
      (Transformation.analyse context program.document)).filterMap
        (Transformation.candidate? program.document) = candidates marker program := by
  rw [membersOf, map_map, filterMap_map, candidates]
  refine filterMap_congr fun request hrequest ↦ ?_
  exact candidate?_analyse context program.document
    (of_decide_eq_true (mem_filter.mp hrequest).2)

theorem allCandidates_analyse (context : Context) (hbodies : SingleBodies marker program) :
    AllCandidates program.document ((membersOf .fusion (requests marker program)).map
      (Transformation.analyse context program.document)) := by
  intro analysed hanalysed haccepted
  obtain ⟨member, hmember, rfl⟩ := mem_map.mp hanalysed
  obtain ⟨request, hrequest, rfl⟩ := mem_map.mp hmember
  obtain ⟨hmem, hkind⟩ := mem_filter.mp hrequest
  have hfusion : request.2 = .fusion := of_decide_eq_true hkind
  rw [candidate?_analyse context _ hfusion, candidateOf?]
  obtain ⟨plan, hplan⟩ := Option.isSome_iff_exists.mp haccepted
  have hplanned := Transformation.analyse_of_plan? hplan
  rw [hfusion] at hplanned
  obtain ⟨fusion, hfound, -⟩ := Option.map_eq_some_iff.mp hplanned
  obtain ⟨body, hbody⟩ := hbodies request hmem hfusion fusion hfound
  rw [hfound, Option.bind_some, Loop.body?, Candidate.childOf?_of_childrenOf hbody]
  rfl

end Program

/-- The group of fusions of a program pairs its members greedily, in document order, and loses no
statement. -/
theorem exists_pairing_of_read (context : Context) {marker text : String} {program : SourceUnit}
    (hread : SourceUnit.read .program text = .ok program) (hbodies : SingleBodies marker program)
    {group : Group} (hgroup : group ∈ (discover marker program).1)
    (hkeyword : group.keyword = TransformationKind.fusion.keyword) (library : Library)
    (report : Report) :
    let after := (group.apply context { workspace := { program, library }, report }).2.document
    ∃ pairs, Pairing program.document (candidates marker program) pairs after ∧
      ((paired pairs).map Candidate.pragma).Nodup ∧
      ∀ x, program.document.contains x = true → program.document.kind x ≠ .pragma →
        (after.contains x = true ∧ x ∈ after.subtree program.root) ∨
          ∃ pair ∈ pairs, LostWith program.document pair.2 x := by
  have forest := (SourceUnit.fromText_of_read hread).1.forest
  have hgathers := gathers_of_mem_discover hgroup hkeyword
  have hlive : ∀ member ∈ group.members, member.isLive program.document = true := by
    intro member hmember
    rw [hgathers.members] at hmember
    obtain ⟨request, hrequest, rfl⟩ := List.mem_map.mp hmember
    have found := found_of_mem_requests forest (List.mem_filter.mp hrequest).1
    exact Option.isSome_iff_exists.mpr found.below_root.exists_parent?
  have hmembers := allCandidates_analyse context hbodies
  have fusible := fusible_of_read hread hbodies
  rw [← filterMap_analyse context] at fusible
  rw [← hgathers.members] at hmembers fusible
  obtain ⟨hfinal, pairs, pairing, hconserves⟩ := exists_pairing_apply context
    { workspace := { program, library }, report } hgathers.grouping hlive rfl hmembers fusible
  have hcandidates := filterMap_analyse context marker program
  rw [← hgathers.members] at hcandidates
  refine ⟨pairs, hcandidates ▸ pairing, ?_, fun x hx hkind ↦ ?_⟩
  · exact pairing.nodup_paired (hcandidates ▸ nodup_candidates forest)
  · refine (hconserves x hx hkind).imp_left fun hkept ↦ ⟨hkept, ?_⟩
    exact (hfinal.forest.mem_subtree_iff _ _).mpr
      (hfinal.forest.eq_or_above_of_rootedAt hfinal.rooted hkept)

/-- A program with four fusions, of which the second and the last are in a group of their own; two
pragmas ask for the same loop. -/
def groupedFusions : Element :=
  let loop : Element := .loop "i" [.branch "FassignStatement" []]
  .program []
    [.pragma "lsm loop-fusion", loop, .pragma "lsm loop-fusion group(g)",
     .pragma "lsm loop-fusion", loop, .pragma "lsm loop-fusion group(g)", loop]

theorem exists_pairing_of_groupedFusions :
    ∃ program, SourceUnit.read .program (Markup.write groupedFusions) = .ok program ∧
      SingleBodies "lsm" program ∧ (candidates "lsm" program).length = 4 ∧
      ∃ group ∈ (discover "lsm" program).1, group.keyword = TransformationKind.fusion.keyword ∧
        ∃ after pairs, after = (group.apply plainContext
            { workspace := { program, library := {} }, report := { file := "" } }).2.document ∧
          Pairing program.document (candidates "lsm" program) pairs after ∧
          ((paired pairs).map Candidate.pragma).Nodup ∧
          ∀ x, program.document.contains x = true → program.document.kind x ≠ .pragma →
            (after.contains x = true ∧ x ∈ after.subtree program.root) ∨
              ∃ pair ∈ pairs, LostWith program.document pair.2 x := by
  obtain ⟨program, hread, hdocument, hroot⟩ := SourceUnit.exists_read_write (by decide +kernel)
    (SourceUnit.tableElements_eq_ok_iff.mpr (by decide +kernel) :
      SourceUnit.tableElements .program (Document.ofElement groupedFusions).1
        (Document.ofElement groupedFusions).2 =
          .ok { types := ⟨1⟩, symbols := ⟨2⟩, declarations := ⟨3⟩ })
  have hlengths : (requests "lsm" program).all fun request ↦
      (Fusion.plan? program.document request.1).all fun fusion ↦
        (program.document.childrenOf fusion.loop [.body]).length == 1 := by
    rw [requests, hdocument, hroot]
    decide +kernel
  have hbodies : SingleBodies "lsm" program := by
    intro request hrequest _ fusion hplan
    have hlength := List.all_eq_true.mp hlengths request hrequest
    rw [hplan] at hlength
    exact List.length_eq_one_iff.mp (beq_iff_eq.mp hlength)
  have hfour : (candidates "lsm" program).length = 4 := by
    rw [candidates, requests, hdocument, hroot]
    decide +kernel
  obtain ⟨group, rest, hgathers, -, hgroups⟩ :=
    List.forall₂_cons_left_iff.mp (forall₂_gathers_discover "lsm" program)
  have hgroup : group ∈ (discover "lsm" program).1 := hgroups ▸ List.mem_cons_self ..
  obtain ⟨pairs, hpairs⟩ := exists_pairing_of_read plainContext hread
    hbodies hgroup hgathers.keyword {} { file := "" }
  exact ⟨program, hread, hbodies, hfour, group, hgroup, hgathers.keyword, _, pairs, rfl, hpairs⟩

end Run

end LoopDirectives
