import Mathlib.Data.List.Zip
import LoopDirectives.Proofs.Loop.Separate

/-!
# What an exchange of headers does

The headers of two separate loops are exchanged node by node (`exchangeNodes`). The nodes that both
have change places as copies (`Pairing`); a step that only one of them has moves over to the range
of the other one. `Swapped` is what the document shows of the two loops then, whatever else is in
the ranges (`exists_swapped`). With no more than one step in each range the steps are exchanged as
well (`exists_traded`), and a second exchange brings everything back where no step had to change its
place.
-/

namespace LoopDirectives.Loop

open Document List

variable {doc before after middle : Document} {loop left right x y step : NodeId}
  {first second : Header} {rename : NodeId → NodeId} {parts : List NodeId}

/-! ### Exchanging the nodes of two headers -/

def Header.core (header : Header) : List NodeId :=
  [header.varNode, header.lower, header.upper]

theorem Header.core_renamed (header : Header) (rename : NodeId → NodeId) (step? : Option NodeId) :
    (header.renamed rename step?).core = header.core.map rename :=
  rfl

theorem Header.mem_nodes_of_step? {header : Header} (h : header.step? = some x) :
    x ∈ header.nodes := by
  simp [Header.nodes, h]

theorem Header.mem_nodes_of_core {header : Header} (h : x ∈ header.core) : x ∈ header.nodes :=
  mem_append_left _ h

def exchangeNodes (doc : Document) (first second : Header) : Document :=
  let exchanged := exchangeAll doc (first.nodes.zip second.nodes)
  match first.step?, second.step? with
  | some step, none => exchanged.append second.range step
  | none, some step => exchanged.append first.range step
  | _, _ => exchanged

theorem exchangeHeaders_eq (hfirst : header doc left = .ok first)
    (hsecond : header doc right = .ok second) :
    exchangeHeaders doc left right = .ok (exchangeNodes doc first second) := by
  have hbind {Value : Type} (value : Header) (rest : Header → Except TransformError Value) :
      (Except.ok value >>= rest) = rest value := rfl
  rw [exchangeHeaders, hfirst, hsecond, hbind, hbind]
  refine congrArg Except.ok ?_
  cases hleft : first.step? <;> cases hright : second.step? <;>
    simp [exchangeNodes, exchangeSteps, Header.nodes, exchangeAll, hleft, hright]

theorem mem_zip_nodes {pair : NodeId × NodeId} (h : pair ∈ first.nodes.zip second.nodes) :
    pair = (first.varNode, second.varNode) ∨ pair = (first.lower, second.lower) ∨
      pair = (first.upper, second.upper) ∨
      ∃ step other, first.step? = some step ∧ second.step? = some other ∧
        pair = (step, other) := by
  cases hfirst : first.step? <;> cases hsecond : second.step? <;>
    simp_all [Header.nodes]

theorem core_mem_pairNodes (hx : x ∈ first.core ++ second.core) :
    x ∈ pairNodes (first.nodes.zip second.nodes) := by
  cases hfirst : first.step? <;> cases hsecond : second.step? <;>
    simp_all [Header.nodes, Header.core, pairNodes] <;> tauto

theorem mem_pairNodes_of_nodes (hsteps : first.step?.isSome = second.step?.isSome)
    (hx : x ∈ first.nodes ++ second.nodes) : x ∈ pairNodes (first.nodes.zip second.nodes) := by
  cases hfirst : first.step? <;> cases hsecond : second.step? <;>
    simp_all [Header.nodes, pairNodes] <;> tauto

theorem core_mem_zip (first second : Header) :
    (first.varNode, second.varNode) ∈ first.nodes.zip second.nodes ∧
      (first.lower, second.lower) ∈ first.nodes.zip second.nodes ∧
      (first.upper, second.upper) ∈ first.nodes.zip second.nodes := by
  cases hfirst : first.step? <;> cases hsecond : second.step? <;>
    simp [Header.nodes, hfirst, hsecond]

theorem mem_core_of_mem_pairNodes (hnone : second.step? = none)
    (hx : x ∈ pairNodes (first.nodes.zip second.nodes)) : x ∈ first.core ++ second.core := by
  obtain ⟨pair, hpair, hx⟩ := mem_flatMap.mp hx
  rcases mem_zip_nodes hpair with rfl | rfl | rfl | ⟨step, other, -, hother, -⟩
  · rcases mem_pair.mp hx with rfl | rfl <;> simp [Header.core]
  · rcases mem_pair.mp hx with rfl | rfl <;> simp [Header.core]
  · rcases mem_pair.mp hx with rfl | rfl <;> simp [Header.core]
  · rw [hnone] at hother
    cases hother

theorem mem_core_or_eq_step (hstep : first.step? = some step) (hnone : second.step? = none)
    (hx : x ∈ first.nodes ++ second.nodes) : x ∈ first.core ++ second.core ∨ x = step := by
  simp only [Header.nodes, hstep, hnone, Option.toList_some, Option.toList_none,
    append_nil] at hx
  rcases mem_append.mp hx with hx | hx
  · rcases mem_append.mp hx with hx | hx
    · exact Or.inl (mem_append_left _ hx)
    · exact Or.inr (mem_singleton.mp hx)
  · exact Or.inl (mem_append_right _ hx)

theorem mem_renamed_iff :
    x ∈ (first.renamed rename none).nodes ++ (second.renamed rename (some step)).nodes ↔
      x = step ∨ ∃ part ∈ first.core ++ second.core, x = rename part := by
  simp [Header.nodes, Header.renamed, Header.core]
  tauto

section

variable {header : Header} (hparts : Parts doc loop header) (forest : doc.Forest)
  (hung : doc.Hung parts) (hcore : ∀ x ∈ header.core, x ∈ parts)

include hparts forest hung hcore

theorem Parts.clear_bound {kind : Kind} (hkind : kind ∈ [Kind.lowerBound, Kind.upperBound])
    {bound : NodeId} (hbound : doc.childOf? header.range kind = some bound) :
    doc.Clear parts bound := by
  have hcontent {content : NodeId} (hmem : content ∈ parts) {found : NodeId}
      (hfound : doc.childOf? header.range kind = some found)
      (h : doc.firstChild? found = some content) : doc.Clear parts bound := by
    rw [hbound, Option.some.injEq] at hfound
    subst hfound
    exact hung.clear_parent forest hmem (forest.parent?_of_mem (mem_children_of_firstChild? h))
  rcases mem_pair.mp hkind with rfl | rfl
  · obtain ⟨found, hfound, h⟩ := hparts.lower
    exact hcontent (hcore header.lower (by simp [Header.core])) hfound h
  · obtain ⟨found, hfound, h⟩ := hparts.upper
    exact hcontent (hcore header.upper (by simp [Header.core])) hfound h

theorem Parts.clear_range : doc.Clear parts header.range := by
  obtain ⟨bound, hbound, -⟩ := hparts.lower
  exact (hparts.clear_bound forest hung hcore (by simp) hbound).of_parent? forest
    (forest.parent?_of_childOf? hbound)

end

/-- Two separate loops the nodes of whose headers have been exchanged pair by pair. -/
structure Pairing (before after : Document) (left right : NodeId) (first second : Header)
    (rename : NodeId → NodeId) : Prop where
  separate : Separate before left right
  forest : before.Forest
  parts_left : Parts before left first
  parts_right : Parts before right second
  exchanged : Exchanged before after (first.nodes.zip second.nodes) rename

theorem exists_pairing (separate : Separate doc left right) (forest : doc.Forest)
    (hfirst : Parts doc left first) (hsecond : Parts doc right second) :
    ∃ rename, Pairing doc (exchangeAll doc (first.nodes.zip second.nodes)) left right
      first second rename := by
  obtain ⟨rename, exchanged⟩ := exchanged_exchangeAll forest
    (hung_pairNodes_zip (separate.hung forest hfirst hsecond))
  exact ⟨rename, separate, forest, hfirst, hsecond, exchanged⟩

theorem core_of_exchanged
    (exchanged : Exchanged before after (first.nodes.zip second.nodes) rename) :
    (first.mapNodes rename).core.map after.element = second.core.map before.element ∧
      (second.mapNodes rename).core.map after.element = first.core.map before.element := by
  obtain ⟨hvar, hlower, hupper⟩ := core_mem_zip first second
  simp only [Header.core, Header.mapNodes, Header.renamed, map_cons, map_nil,
    exchanged.element_fst _ hvar, exchanged.element_fst _ hlower, exchanged.element_fst _ hupper,
    exchanged.element_snd _ hvar, exchanged.element_snd _ hlower, exchanged.element_snd _ hupper,
    and_self]

namespace Pairing

variable (pairing : Pairing before after left right first second rename)

include pairing

theorem hung : before.Hung (first.nodes ++ second.nodes) :=
  pairing.separate.hung pairing.forest pairing.parts_left pairing.parts_right

theorem symm : Pairing before after right left second first rename where
  separate := pairing.separate.symm
  forest := pairing.forest
  parts_left := pairing.parts_right
  parts_right := pairing.parts_left
  exchanged := by
    rw [← zip_swap]
    exact pairing.exchanged.symm

theorem clear_left : before.Clear (first.nodes ++ second.nodes) first.range :=
  pairing.parts_left.clear_range pairing.forest pairing.hung fun _ hx ↦
    mem_pairNodes_zip (core_mem_pairNodes (mem_append_left _ hx))

theorem clear_right : before.Clear (first.nodes ++ second.nodes) second.range :=
  pairing.parts_right.clear_range pairing.forest pairing.hung fun _ hx ↦
    mem_pairNodes_zip (core_mem_pairNodes (mem_append_right _ hx))

theorem keepsKinds :
    KeepsKinds before after (pairNodes (first.nodes.zip second.nodes)) rename := by
  intro part hpart parent hparent hkind
  have forest := pairing.forest
  obtain ⟨pair, hpair, hmem⟩ := mem_flatMap.mp hpart
  have hfst := forest.label_eq_of_element_eq pairing.exchanged.forest
    (pairing.exchanged.element_fst pair hpair)
  have hsnd := forest.label_eq_of_element_eq pairing.exchanged.forest
    (pairing.exchanged.element_snd pair hpair)
  -- The variables and the steps are of one kind, and the contents of bounds hang elsewhere.
  have hsame (h : before.kind pair.1 = before.kind pair.2) :
      after.kind (rename part) = before.kind part := by
    rcases mem_pair.mp hmem with rfl | rfl
    · exact (congrArg Label.kind hfst).trans h.symm
    · exact (congrArg Label.kind hsnd).trans h
  have hbound {kind : Kind} {range bound content : NodeId}
      (hout : kind ∉ [Kind.doLoop, Kind.indexRange])
      (hchild : before.childOf? range kind = some bound)
      (hcontent : before.firstChild? bound = some content) (heq : part = content) : False := by
    have hholder := forest.parent?_of_mem (mem_children_of_firstChild? hcontent)
    rw [← heq, hparent] at hholder
    rw [Option.some.inj hholder, kind_of_childOf? hchild] at hkind
    exact hout hkind
  obtain ⟨lower, hlower, hlowerContent⟩ := pairing.parts_left.lower
  obtain ⟨upper, hupper, hupperContent⟩ := pairing.parts_left.upper
  obtain ⟨otherLower, hotherLower, hotherLowerContent⟩ := pairing.parts_right.lower
  obtain ⟨otherUpper, hotherUpper, hotherUpperContent⟩ := pairing.parts_right.upper
  rcases mem_zip_nodes hpair with rfl | rfl | rfl | ⟨step, other, hstep, hother, rfl⟩
  · exact hsame (by rw [kind_of_childOf? pairing.parts_left.varNode,
      kind_of_childOf? pairing.parts_right.varNode])
  · rcases mem_pair.mp hmem with heq | heq
    · exact (hbound (by decide) hlower hlowerContent heq).elim
    · exact (hbound (by decide) hotherLower hotherLowerContent heq).elim
  · rcases mem_pair.mp hmem with heq | heq
    · exact (hbound (by decide) hupper hupperContent heq).elim
    · exact (hbound (by decide) hotherUpper hotherUpperContent heq).elim
  · exact hsame (by rw [kind_of_childOf? (pairing.parts_left.step?.trans hstep),
      kind_of_childOf? (pairing.parts_right.step?.trans hother)])

theorem parts_mapNodes_left : Parts after left (first.mapNodes rename) :=
  pairing.parts_left.of_recast pairing.exchanged.toRecast pairing.forest pairing.keepsKinds
    fun _ hkind _ hbound ↦ pairing.parts_left.clear_bound pairing.forest
      (hung_pairNodes_zip pairing.hung)
      (fun _ hx ↦ core_mem_pairNodes (mem_append_left _ hx)) hkind hbound

theorem parts_mapNodes_right : Parts after right (second.mapNodes rename) :=
  pairing.symm.parts_mapNodes_left

theorem single_left (single : SingleStep before first.range) : SingleStep after first.range := by
  rw [SingleStep, childrenOf_of_recast pairing.exchanged.toRecast pairing.forest pairing.keepsKinds
    (pairing.clear_left.mono fun _ ↦ mem_pairNodes_zip)
    (by rw [kind_of_childOf? pairing.parts_left.range]; simp), length_map]
  exact single

end Pairing

/-! ### The outcome -/

/-- What a document shows of two loops that have exchanged their headers, but for the steps. -/
structure Swapped (before after : Document) (left right : NodeId)
    (first second first' second' : Header) : Prop where
  parts_left : Parts after left first'
  parts_right : Parts after right second'
  range_left : first'.range = first.range
  range_right : second'.range = second.range
  core_left : first'.core.map after.element = second.core.map before.element
  core_right : second'.core.map after.element = first.core.map before.element
  keeps : KeepsPlaces before after (first.nodes ++ second.nodes) [first.range, second.range]
  fixed : first.step?.isSome = second.step?.isSome →
    KeepsPlaces before after (first.nodes ++ second.nodes) []

/-- What it shows of the steps when no range has more than one, and that there is nothing else. -/
structure Traded (before after : Document) (first second first' second' : Header) : Prop where
  step?_left : first'.step?.map after.element = second.step?.map before.element
  step?_right : second'.step?.map after.element = first.step?.map before.element
  single_left : SingleStep after first.range
  single_right : SingleStep after second.range
  notClear : ∀ node ∈ first'.nodes ++ second'.nodes,
    ¬ before.Clear (first.nodes ++ second.nodes) node
  cover : ∀ x, after.contains x = true → before.Clear (first.nodes ++ second.nodes) x ∨
    ∃ node ∈ first'.nodes ++ second'.nodes, x ∈ after.subtree node

section Outcome

variable {first' second' : Header}

theorem mem_append_comm {lefts rights : List NodeId} (h : x ∈ lefts ++ rights) :
    x ∈ rights ++ lefts :=
  mem_append.mpr (mem_append.mp h).symm

theorem Swapped.symm (swapped : Swapped before after left right first second first' second') :
    Swapped before after right left second first second' first' where
  parts_left := swapped.parts_right
  parts_right := swapped.parts_left
  range_left := swapped.range_right
  range_right := swapped.range_left
  core_left := swapped.core_right
  core_right := swapped.core_left
  keeps := swapped.keeps.mono (fun _ ↦ mem_append_comm) fun _ hrange ↦
    mem_pair.mpr (mem_pair.mp hrange).symm
  fixed hsteps := (swapped.fixed hsteps.symm).mono (fun _ ↦ mem_append_comm) fun _ h ↦ h

theorem Traded.symm (traded : Traded before after first second first' second') :
    Traded before after second first second' first' where
  step?_left := traded.step?_right
  step?_right := traded.step?_left
  single_left := traded.single_right
  single_right := traded.single_left
  notClear node hnode hclear :=
    traded.notClear node (mem_append_comm hnode) (hclear.mono fun _ ↦ mem_append_comm)
  cover x hx := by
    rcases traded.cover x hx with hclear | ⟨node, hnode, hmem⟩
    · exact Or.inl (hclear.mono fun _ ↦ mem_append_comm)
    · exact Or.inr ⟨node, mem_append_comm hnode, hmem⟩

end Outcome

namespace Pairing

section Matched

variable (pairing : Pairing before after left right first second rename)
  (hsteps : first.step?.isSome = second.step?.isSome)

include pairing

theorem swapped : Swapped before after left right first second (first.mapNodes rename)
    (second.mapNodes rename) := by
  obtain ⟨hleft, hright⟩ := core_of_exchanged pairing.exchanged
  have hkeeps (ranges : List NodeId) :
      KeepsPlaces before after (first.nodes ++ second.nodes) ranges :=
    (pairing.exchanged.keepsPlaces pairing.forest ranges).mono (fun _ ↦ mem_pairNodes_zip)
      fun _ h ↦ h
  exact ⟨pairing.parts_mapNodes_left, pairing.parts_mapNodes_right, rfl, rfl, hleft, hright,
    hkeeps _, fun _ ↦ hkeeps []⟩

include hsteps

theorem traded (hleft : SingleStep before first.range)
    (hright : SingleStep before second.range) :
    Traded before after first second (first.mapNodes rename) (second.mapNodes rename) := by
  have exchanged := pairing.exchanged
  have hnodes : (first.mapNodes rename).nodes ++ (second.mapNodes rename).nodes =
      (first.nodes ++ second.nodes).map rename := by
    rw [Header.nodes_mapNodes, Header.nodes_mapNodes, map_append]
  have hcases : first.step? = none ∧ second.step? = none ∨
      ∃ step other, first.step? = some step ∧ second.step? = some other ∧
        (step, other) ∈ first.nodes.zip second.nodes := by
    cases hleft : first.step? <;> cases hright : second.step? <;> simp_all [Header.nodes]
  refine ⟨?_, ?_, pairing.single_left hleft, pairing.symm.single_left hright,
    fun node hnode ↦ ?_, fun x hx ↦ ?_⟩
  · rcases hcases with ⟨hleft, hright⟩ | ⟨step, other, hleft, hright, hmem⟩
    · simp [Header.mapNodes, Header.renamed, hleft, hright]
    · simp [Header.mapNodes, Header.renamed, hleft, hright, exchanged.element_fst _ hmem]
  · rcases hcases with ⟨hleft, hright⟩ | ⟨step, other, hleft, hright, hmem⟩
    · simp [Header.mapNodes, Header.renamed, hleft, hright]
    · simp [Header.mapNodes, Header.renamed, hleft, hright, exchanged.element_snd _ hmem]
  · rw [hnodes] at hnode
    obtain ⟨old, hold, rfl⟩ := mem_map.mp hnode
    intro hclear
    exact exchanged.not_clear_rename (mem_pairNodes_of_nodes hsteps hold)
      (hclear.mono fun _ ↦ mem_pairNodes_zip)
  · rw [hnodes]
    rcases exchanged.cover x hx with hclear | ⟨part, hpart, hmem⟩
    · exact Or.inl (hclear.mono fun _ ↦ mem_pairNodes_of_nodes hsteps)
    · exact Or.inr ⟨rename part, mem_map_of_mem (mem_pairNodes_zip hpart), hmem⟩

end Matched

section Given

variable {step : NodeId} (pairing : Pairing before middle left right first second rename)
  (hstep : first.step? = some step) (hnone : second.step? = none)

include pairing hstep

theorem childOf?_step : before.childOf? first.range .step = some step :=
  pairing.parts_left.step?.trans hstep

theorem notClear_renamed {node : NodeId}
    (hnode : node ∈ (first.renamed rename none).nodes ++
      (second.renamed rename (some step)).nodes) :
    ¬ before.Clear (first.nodes ++ second.nodes) node := by
  intro hclear
  rcases mem_renamed_iff.mp hnode with rfl | ⟨part, hpart, rfl⟩
  · exact hclear.notMem pairing.forest
      (mem_append_left _ (Header.mem_nodes_of_step? hstep))
  · exact pairing.exchanged.not_clear_rename (core_mem_pairNodes hpart)
      (hclear.mono fun _ ↦ mem_pairNodes_zip)

include hnone

theorem apart_step : ∀ part ∈ pairNodes (first.nodes.zip second.nodes),
    before.Apart step part := by
  intro part hpart
  have hnodes : first.nodes = first.core ++ [step] := by
    simp [Header.nodes, Header.core, hstep]
  obtain ⟨hunder, -, hcross⟩ := hung_append_iff.mp pairing.hung
  rw [hnodes] at hunder
  obtain ⟨-, -, hcore⟩ := hung_append_iff.mp hunder
  rcases mem_append.mp (mem_core_of_mem_pairNodes hnone hpart) with hpart | hpart
  · exact hcore step (mem_singleton_self step) part hpart
  · exact (hcross part (Header.mem_nodes_of_core hpart) step (by simp [hnodes])).symm

theorem clear_step : before.Clear (pairNodes (first.nodes.zip second.nodes)) step :=
  ⟨contains_of_parent? (pairing.forest.parent?_of_childOf? (pairing.childOf?_step hstep)),
    fun part hpart ↦ (pairing.apart_step hstep hnone part hpart).1⟩

theorem stepMoved :
    StepMoved middle (middle.append second.range step) step first.range second.range := by
  have exchanged := pairing.exchanged
  have hclear := pairing.clear_step hstep hnone
  have hsource := pairing.clear_left.mono fun _ ↦ mem_pairNodes_zip
  have htarget := pairing.clear_right.mono fun _ ↦ mem_pairNodes_zip
  have hout : second.range ∉ middle.subtree step := by
    rw [exchanged.mem_subtree_iff pairing.forest htarget]
    exact pairing.clear_right.2 step (mem_append_left _ (Header.mem_nodes_of_step? hstep))
  have hattach : middle.canAttach step second.range := by
    refine exchanged.forest.canAttach_of_not_above (exchanged.contains _ hclear)
      (exchanged.contains _ htarget) ?_ fun habove ↦ ?_
    · rintro rfl
      exact hout (exchanged.forest.self_mem_subtree _)
    · exact hout (exchanged.forest.mem_subtree_of_above habove)
  refine ⟨exchanged.forest, exchanged.forest.moved_append hattach, ?_, ?_, ?_, ?_, ?_⟩
  · rw [exchanged.kind_eq hclear]
    exact kind_of_childOf? (pairing.childOf?_step hstep)
  · rw [exchanged.parent? step hclear]
    exact pairing.forest.parent?_of_childOf? (pairing.childOf?_step hstep)
  · rw [exchanged.kind_eq hsource]
    exact kind_of_childOf? pairing.parts_left.range
  · rw [exchanged.kind_eq htarget]
    exact kind_of_childOf? pairing.parts_right.range
  · intro heq
    exact (pairing.separate.apart pairing.forest (by simp) (by simp) pairing.parts_left.range
      pairing.parts_right.range).1 (heq ▸ pairing.forest.self_mem_subtree _)

theorem rename_step : rename step = step :=
  pairing.exchanged.rename_of_notMem step
    ((pairing.clear_step hstep hnone).notMem pairing.forest)

theorem element_rename_append {part : NodeId}
    (hpart : part ∈ pairNodes (first.nodes.zip second.nodes)) :
    (middle.append second.range step).element (rename part) = middle.element (rename part) := by
  refine (pairing.stepMoved hstep hnone).element_eq fun y hy hrange ↦ ?_
  refine pairing.exchanged.not_mem_subtree_rename pairing.forest hpart ?_ hy
  rcases mem_pair.mp hrange with rfl | rfl
  · exact pairing.clear_left.mono fun _ ↦ mem_pairNodes_zip
  · exact pairing.clear_right.mono fun _ ↦ mem_pairNodes_zip

theorem element_step_append :
    (middle.append second.range step).element step = before.element step := by
  have hclear := pairing.clear_step hstep hnone
  refine ((pairing.stepMoved hstep hnone).element_eq fun y hy hrange ↦ ?_).trans
    (pairing.exchanged.element_of_apart pairing.forest hclear.1
      (pairing.apart_step hstep hnone))
  have hmem := mem_append_left second.nodes (Header.mem_nodes_of_step? hstep)
  rcases mem_pair.mp hrange with rfl | rfl
  · rw [pairing.exchanged.mem_subtree_iff pairing.forest
      (pairing.clear_left.mono fun _ ↦ mem_pairNodes_zip)] at hy
    exact pairing.clear_left.2 step hmem hy
  · rw [pairing.exchanged.mem_subtree_iff pairing.forest
      (pairing.clear_right.mono fun _ ↦ mem_pairNodes_zip)] at hy
    exact pairing.clear_right.2 step hmem hy

theorem childrenOf_right_append :
    (middle.append second.range step).childrenOf second.range [.step] = [step] := by
  refine (pairing.stepMoved hstep hnone).childrenOf_target_of_none ?_
  exact pairing.parts_mapNodes_right.step?.trans (by simp [Header.mapNodes, Header.renamed, hnone])

theorem childrenOf_left_append (single : SingleStep before first.range) :
    (middle.append second.range step).childrenOf first.range [.step] = [] := by
  refine (pairing.stepMoved hstep hnone).childrenOf_source_of_single (pairing.single_left single) ?_
  exact pairing.parts_mapNodes_left.step?.trans
    (by simp [Header.mapNodes, Header.renamed, hstep, pairing.rename_step hstep hnone])

theorem childOf?_left_append (single : SingleStep before first.range) :
    (middle.append second.range step).childOf? first.range .step = none := by
  rw [childOf?_eq_head?, pairing.childrenOf_left_append hstep hnone single, head?_nil]

theorem keepsPlaces_append : KeepsPlaces before (middle.append second.range step)
    (first.nodes ++ second.nodes) [first.range, second.range] := by
  refine ((pairing.exchanged.keepsPlaces pairing.forest _).mono (fun _ ↦ mem_pairNodes_zip)
    fun _ h ↦ h).trans (pairing.stepMoved hstep hnone).keepsPlaces pairing.forest
    (fun part hpart hclear ↦ ?_) fun _ h ↦ h
  obtain rfl := mem_singleton.mp hpart
  exact hclear.notMem pairing.forest
    (mem_append_left _ (Header.mem_nodes_of_step? hstep))

theorem swapped_append : Swapped before (middle.append second.range step) left right first second
    (first.renamed rename ((middle.append second.range step).childOf? first.range .step))
    (second.renamed rename (some step)) := by
  have hmoved := pairing.stepMoved hstep hnone
  have hright : Parts _ right (second.renamed rename
      ((middle.append second.range step).childOf? second.range .step)) :=
    hmoved.parts pairing.parts_mapNodes_right
  have hstepRight : (middle.append second.range step).childOf? second.range .step = some step := by
    rw [childOf?_eq_head?, pairing.childrenOf_right_append hstep hnone, head?_cons]
  rw [hstepRight] at hright
  obtain ⟨hcoreLeft, hcoreRight⟩ := core_of_exchanged pairing.exchanged
  have hcore {header : Header} (hmem : ∀ x ∈ header.core, x ∈ first.core ++ second.core) :
      (header.mapNodes rename).core.map (middle.append second.range step).element =
        (header.mapNodes rename).core.map middle.element := by
    refine map_congr_left fun x hx ↦ ?_
    rw [Header.mapNodes, Header.core_renamed] at hx
    obtain ⟨part, hpart, rfl⟩ := mem_map.mp hx
    exact pairing.element_rename_append hstep hnone (core_mem_pairNodes (hmem part hpart))
  exact ⟨hmoved.parts pairing.parts_mapNodes_left, hright, rfl, rfl,
    (hcore fun _ hx ↦ mem_append_left _ hx).trans hcoreLeft,
    (hcore fun _ hx ↦ mem_append_right _ hx).trans hcoreRight,
    pairing.keepsPlaces_append hstep hnone, fun hsteps ↦ by simp [hstep, hnone] at hsteps⟩

theorem traded_append (single : SingleStep before first.range) :
    Traded before (middle.append second.range step) first second
      (first.renamed rename none) (second.renamed rename (some step)) := by
  have exchanged := pairing.exchanged
  have hmoved := pairing.stepMoved hstep hnone
  have hleft := pairing.childrenOf_left_append hstep hnone single
  have hright := pairing.childrenOf_right_append hstep hnone
  refine ⟨?_, ?_, ?_, ?_, fun node hnode ↦ pairing.notClear_renamed hstep hnode, fun x hx ↦ ?_⟩
  · simp [Header.renamed, hnone]
  · simp [Header.renamed, hstep, pairing.element_step_append hstep hnone]
  · simp [SingleStep, hleft]
  · simp [SingleStep, hright]
  · rw [hmoved.moved.contains_eq] at hx
    rcases exchanged.cover x hx with hclear | ⟨part, hpart, hbelow⟩
    · by_cases hbelow : x ∈ before.subtree step
      · refine Or.inr ⟨step, mem_renamed_iff.mpr (Or.inl rfl),
          hmoved.moved.mem_subtree_self hmoved.forest ?_⟩
        rwa [exchanged.mem_subtree_iff pairing.forest hclear]
      · refine Or.inl ⟨hclear.1, fun part hpart ↦ ?_⟩
        rcases mem_core_or_eq_step hstep hnone hpart with hpart | rfl
        · exact hclear.2 part (core_mem_pairNodes hpart)
        · exact hbelow
    · have hcore := mem_core_of_mem_pairNodes hnone hpart
      refine Or.inr ⟨rename part, mem_renamed_iff.mpr (Or.inr ⟨part, hcore, rfl⟩), ?_⟩
      have hapart := exchanged.apart_rename pairing.forest (hung_pairNodes_zip pairing.hung) hpart
        (pairing.clear_step hstep hnone) (pairing.apart_step hstep hnone part hpart).2
      have hout : middle.Clear [step] x :=
        ⟨hx, fun other hother ↦ mem_singleton.mp hother ▸
          hapart.disjoint exchanged.forest hbelow⟩
      rwa [hmoved.keepsPlaces.mem_subtree_iff exchanged.forest hout]

end Given

end Pairing

theorem exchangeNodes_of_matched (hsteps : first.step?.isSome = second.step?.isSome) :
    exchangeNodes doc first second =
      exchangeAll doc (first.nodes.zip second.nodes) := by
  cases hfirst : first.step? <;> cases hsecond : second.step? <;> simp_all [exchangeNodes]

theorem exchangeNodes_of_left (hfirst : first.step? = some step) (hsecond : second.step? = none) :
    exchangeNodes doc first second =
      (exchangeAll doc (first.nodes.zip second.nodes)).append second.range step := by
  simp only [exchangeNodes, hfirst, hsecond]

theorem exchangeNodes_of_right (hfirst : first.step? = none) (hsecond : second.step? = some step) :
    exchangeNodes doc first second =
      (exchangeAll doc (first.nodes.zip second.nodes)).append first.range step := by
  simp only [exchangeNodes, hfirst, hsecond]

theorem step?_cases (first second : Header) :
    first.step?.isSome = second.step?.isSome ∨
      (∃ step, first.step? = some step ∧ second.step? = none) ∨
      ∃ step, first.step? = none ∧ second.step? = some step := by
  cases first.step? <;> cases second.step? <;> simp

section

variable (separate : Separate doc left right) (forest : doc.Forest)
  (hfirst : Parts doc left first) (hsecond : Parts doc right second)

include separate forest hfirst hsecond

/-- Assumes: separate loops with complete headers. Exchanging their nodes swaps the headers. -/
theorem exists_swapped :
    ∃ first' second', Swapped doc (exchangeNodes doc first second) left right
      first second first' second' := by
  obtain ⟨rename, pairing⟩ := exists_pairing separate forest hfirst hsecond
  rcases step?_cases first second with hsteps | ⟨step, hleft, hright⟩ | ⟨step, hleft, hright⟩
  · rw [exchangeNodes_of_matched hsteps]
    exact ⟨_, _, pairing.swapped⟩
  · rw [exchangeNodes_of_left hleft hright]
    exact ⟨_, _, pairing.swapped_append hleft hright⟩
  · rw [exchangeNodes_of_right hleft hright]
    exact ⟨_, _, (pairing.symm.swapped_append hright hleft).symm⟩

theorem size_lt_exchangeNodes :
    doc.slots.size < (exchangeNodes doc first second).slots.size := by
  obtain ⟨rename, pairing⟩ := exists_pairing separate forest hfirst hsecond
  have hvar : first.varNode ∈ pairNodes (first.nodes.zip second.nodes) :=
    core_mem_pairNodes (by simp [Header.core])
  have hlt : doc.slots.size <
      (exchangeAll doc (first.nodes.zip second.nodes)).slots.size :=
    Nat.lt_of_le_of_lt (pairing.exchanged.rename_new _ hvar) (index_lt_size
      (pairing.exchanged.contains_rename forest (hung_pairNodes_zip pairing.hung) hvar))
  rcases step?_cases first second with hsteps | ⟨step, hleft, hright⟩ | ⟨step, hleft, hright⟩
  · rw [exchangeNodes_of_matched hsteps]
    exact hlt
  · rw [exchangeNodes_of_left hleft hright, (pairing.stepMoved hleft hright).moved.size_eq]
    exact hlt
  · rw [exchangeNodes_of_right hleft hright, (pairing.symm.stepMoved hright hleft).moved.size_eq]
    exact hlt

end

/-! ### Exchanging the headers back -/

namespace Pairing

variable {later : Document} {again : NodeId → NodeId}

theorem zip_mapNodes (first second : Header) (rename : NodeId → NodeId) :
    (first.mapNodes rename).nodes.zip (second.mapNodes rename).nodes =
      (first.nodes.zip second.nodes).map (Prod.map rename rename) := by
  rw [Header.nodes_mapNodes, Header.nodes_mapNodes, zip_map]

theorem element_of_back (pairing : Pairing before middle left right first second rename)
    (back : Pairing middle later left right (first.mapNodes rename) (second.mapNodes rename) again)
    (hx : before.Clear (pairNodes (first.nodes.zip second.nodes)) x) :
    later.element x = before.element x := by
  have exchanged := pairing.exchanged
  have restored := back.exchanged
  rw [zip_mapNodes] at restored
  have hparts : ∀ part ∈ pairNodes ((first.nodes.zip second.nodes).map (Prod.map rename rename)),
      ¬ before.Clear (pairNodes (first.nodes.zip second.nodes)) part := by
    intro part hpart
    obtain ⟨_, hmapped, hpart⟩ := mem_flatMap.mp hpart
    obtain ⟨pair, hpair, rfl⟩ := mem_map.mp hmapped
    rcases mem_pair.mp hpart with rfl | rfl
    · exact exchanged.not_clear_rename (mem_flatMap.mpr ⟨pair, hpair, by simp⟩)
    · exact exchanged.not_clear_rename (mem_flatMap.mpr ⟨pair, hpair, by simp⟩)
  have hclear {x : NodeId} (hx : before.Clear (pairNodes (first.nodes.zip second.nodes)) x) :=
    exchanged.clear pairing.forest hparts hx
  have keeps : KeepsClear before later (pairNodes (first.nodes.zip second.nodes)) :=
    ⟨restored.forest, fun x hx ↦ restored.contains x (hclear hx),
      fun x hx ↦ (restored.label x (hclear hx)).trans (exchanged.label x hx),
      fun x hx ↦ (restored.parent? x (hclear hx)).trans (exchanged.parent? x hx)⟩
  have hchildren (x : NodeId) (hx : before.Clear (pairNodes (first.nodes.zip second.nodes)) x) :
      later.children x = (before.children x).map (again ∘ rename) := by
    rw [restored.children x (hclear hx), exchanged.children x hx, map_map]
  refine keeps.element_eq pairing.forest hchildren (fun x hx ↦ ?_) (fun part hpart ↦ ?_) _ rfl hx
  · rw [Function.comp_apply, exchanged.rename_of_notMem x (hx.notMem pairing.forest),
      restored.rename_of_notMem x ((hclear hx).notMem exchanged.forest)]
  · obtain ⟨pair, hpair, hpart⟩ := mem_flatMap.mp hpart
    have hmapped := mem_map_of_mem (f := Prod.map rename rename) hpair
    rw [Function.comp_apply]
    rcases mem_pair.mp hpart with rfl | rfl
    · exact (restored.element_fst _ hmapped).trans (exchanged.element_snd pair hpair)
    · exact (restored.element_snd _ hmapped).trans (exchanged.element_fst pair hpair)

section Back

variable {step : NodeId} {others : List NodeId}
  (pairing : Pairing before middle left right first second rename) (hstep : first.step? = some step)
  (hnone : second.step? = none)

include hnone

theorem mem_zip_back {pair : NodeId × NodeId} (hpair : pair ∈ first.nodes.zip second.nodes) :
    (rename pair.2, rename pair.1) ∈
      (second.renamed rename (some step)).nodes.zip (first.renamed rename none).nodes := by
  rcases mem_zip_nodes hpair with rfl | rfl | rfl | ⟨_, other, -, hother, -⟩
  · simp [Header.nodes, Header.renamed]
  · simp [Header.nodes, Header.renamed]
  · simp [Header.nodes, Header.renamed]
  · rw [hnone] at hother
    cases hother

include pairing hstep

theorem clear_back (hx : before.Clear (first.nodes ++ second.nodes) x) :
    (middle.append second.range step).Clear
      (pairNodes ((second.renamed rename (some step)).nodes.zip
        (first.renamed rename none).nodes)) x := by
  refine (pairing.keepsPlaces_append hstep hnone).clear pairing.forest (fun part hpart ↦ ?_) hx
  exact pairing.notClear_renamed hstep (mem_append_comm (mem_pairNodes_zip hpart))

variable (back : Pairing (middle.append second.range step) later right left
  (second.renamed rename (some step)) (first.renamed rename none) again)

include back

theorem children_back (hlast : before.children first.range = others ++ [step])
    (hx : before.Clear (first.nodes ++ second.nodes) x) :
    (later.append first.range step).children x = (before.children x).map (again ∘ rename) := by
  have moved := pairing.stepMoved hstep hnone
  have returned : StepMoved later (later.append first.range step) step second.range first.range :=
    back.stepMoved rfl rfl
  have hmiddle := pairing.exchanged.children x (hx.mono fun _ ↦ mem_pairNodes_zip)
  have hlater := back.exchanged.children x (pairing.clear_back hstep hnone hx)
  have hrename := pairing.rename_step hstep hnone
  have hagain : again step = step := back.rename_step rfl rfl
  by_cases hleft : x = first.range
  · subst hleft
    rw [hlast, map_append, map_singleton, hrename] at hmiddle
    have hnodup := hmiddle ▸ pairing.exchanged.forest.nodup_children first.range
    rw [moved.children_source, hmiddle, filter_ne_of_nodup hnodup, append_nil] at hlater
    rw [hlast, map_append, map_singleton, Function.comp_apply, hrename, hagain,
      returned.children_target, hlater, map_map]
  · by_cases hright : x = second.range
    · subst hright
      rw [moved.children_target, hmiddle, map_append, map_singleton, hagain] at hlater
      have hnodup := hlater ▸ back.exchanged.forest.nodup_children second.range
      rw [returned.children_source, hlater, filter_ne_of_nodup hnodup, append_nil,
        map_map]
    · rw [moved.children_of_ne hleft hright, hmiddle, map_map] at hlater
      exact (returned.children_of_ne hright hleft).trans hlater

theorem element_part_back {part : NodeId} (hpart : part ∈ first.nodes ++ second.nodes) :
    (later.append first.range step).element (again (rename part)) = before.element part := by
  have exchanged := pairing.exchanged
  -- The nodes of the cores are copied there and back.
  have hcore {old new : NodeId} (hold : old ∈ first.core ++ second.core)
      (hnew : new ∈ first.core ++ second.core)
      (hlater : later.element (again (rename old)) =
        (middle.append second.range step).element (rename new))
      (hmiddle : middle.element (rename new) = before.element old) :
      (later.append first.range step).element (again (rename old)) = before.element old := by
    rw [← hmiddle, ← pairing.element_rename_append hstep hnone (core_mem_pairNodes hnew), ← hlater]
    refine back.element_rename_append rfl rfl (core_mem_pairNodes (mem_append_comm ?_))
    rw [Header.core_renamed, Header.core_renamed, ← map_append]
    exact mem_map_of_mem hold
  rcases mem_core_or_eq_step hstep hnone hpart with hpart | rfl
  · obtain ⟨pair, hpair, hpart⟩ := mem_flatMap.mp
      (core_mem_pairNodes hpart : part ∈ pairNodes (first.nodes.zip second.nodes))
    have hboth : ∀ node ∈ [pair.1, pair.2], node ∈ first.core ++ second.core := fun node hnode ↦
      mem_core_of_mem_pairNodes hnone (mem_flatMap.mpr ⟨pair, hpair, hnode⟩)
    have hback : (rename pair.2, rename pair.1) ∈ (second.renamed rename (some step)).nodes.zip
        (first.renamed rename none).nodes := mem_zip_back hnone hpair
    rcases mem_pair.mp hpart with rfl | rfl
    · exact hcore (hboth _ (by simp)) (hboth _ (by simp)) (back.exchanged.element_snd _ hback)
        (exchanged.element_snd pair hpair)
    · exact hcore (hboth _ (by simp)) (hboth _ (by simp)) (back.exchanged.element_fst _ hback)
        (exchanged.element_fst pair hpair)
  · rw [pairing.rename_step hstep hnone, back.rename_step rfl rfl]
    exact (back.element_step_append rfl rfl).trans (pairing.element_step_append hstep hnone)

/-- Headers of which one has a step are as they were when they are exchanged twice, if the step was
the last child of its range. -/
theorem element_of_back_append (hlast : before.children first.range = others ++ [step])
    (hx : before.Clear (first.nodes ++ second.nodes) x) :
    (later.append first.range step).element x = before.element x := by
  have restored : KeepsPlaces _ (later.append first.range step) _ [second.range, first.range] :=
    back.keepsPlaces_append rfl rfl
  have keeps := (pairing.keepsPlaces_append hstep hnone).trans restored pairing.forest
    (fun part hpart ↦ pairing.notClear_renamed hstep (mem_append_comm hpart))
    fun range hrange ↦ mem_pair.mpr (mem_pair.mp hrange).symm
  refine keeps.toKeepsClear.element_eq pairing.forest
    (fun x hx ↦ pairing.children_back hstep hnone back hlast hx) (fun x hx ↦ ?_)
    (fun part hpart ↦ pairing.element_part_back hstep hnone back hpart) _ rfl hx
  rw [Function.comp_apply, pairing.exchanged.rename_of_notMem x
    ((hx.mono fun _ ↦ mem_pairNodes_zip).notMem pairing.forest), back.exchanged.rename_of_notMem x
    ((pairing.clear_back hstep hnone hx).notMem back.forest)]

end Back

end Pairing

section Back

variable {first' second' : Header}

theorem Swapped.separate (swapped : Swapped before after left right first second first' second')
    (traded : Traded before after first second first' second') (forest : before.Forest)
    (hfirst : Parts before left first) (hsecond : Parts before right second)
    (separate : Separate before left right) : Separate after left right := by
  have hout {left right : NodeId} {first second first' second' : Header}
      (swapped : Swapped before after left right first second first' second')
      (traded : Traded before after first second first' second')
      (hsecond : Parts before right second)
      (hfirst : Parts before left first) (separate : Separate before left right) :
      ¬ InHeader after left right := by
    have hrange : before.Clear (first.nodes ++ second.nodes) second.range :=
      hsecond.clear_range forest (separate.hung forest hfirst hsecond) fun x hx ↦
        mem_append_right _ (Header.mem_nodes_of_core hx)
    have hright := hrange.of_parent? forest (forest.parent?_of_childOf? hsecond.range)
    rintro ⟨kind, hkind, part, hpart, hmem⟩
    rcases mem_pair.mp hkind with rfl | rfl
    · rw [Option.mem_def, swapped.parts_left.varNode, Option.some.injEq] at hpart
      refine traded.notClear part (mem_append_left _ ?_)
        (swapped.keeps.clear_of_mem_subtree forest hright hmem)
      simp [Header.nodes, ← hpart]
    · rw [Option.mem_def, swapped.parts_left.range, Option.some.injEq, swapped.range_left] at hpart
      rw [swapped.keeps.mem_subtree_iff forest hright, ← hpart] at hmem
      exact separate.right_notIn ⟨.indexRange, by simp, first.range, hfirst.range, hmem⟩
  exact ⟨separate.ne, hout swapped traded hsecond hfirst separate,
    hout swapped.symm traded.symm hfirst hsecond separate.symm⟩

/-- Exchanging the headers of two separate loops with at most one step each exchanges the headers,
and exchanging them again restores the document unless a step is put behind other children. -/
theorem exists_traded (separate : Separate doc left right) (forest : doc.Forest)
    (hfirst : Parts doc left first) (hsecond : Parts doc right second)
    (hsingleLeft : SingleStep doc first.range)
    (hsingleRight : SingleStep doc second.range) :
    ∃ first' second',
      Swapped doc (exchangeNodes doc first second) left right first second
        first' second' ∧
      Traded doc (exchangeNodes doc first second) first second first' second' ∧
      (first.step?.isSome = second.step?.isSome ∨
          (∀ header ∈ [first, second], ∀ step, header.step? = some step →
            doc.lastChild? header.range = some step) →
        ∀ x, doc.Clear (first.nodes ++ second.nodes) x →
          (exchangeNodes (exchangeNodes doc first second) first' second').element x =
            doc.element x) := by
  have hlastChild {range step : NodeId} (h : doc.lastChild? range = some step) :
      ∃ others, doc.children range = others ++ [step] := getLast?_eq_some_iff.mp h
  obtain ⟨rename, pairing⟩ := exists_pairing separate forest hfirst hsecond
  rcases step?_cases first second with hsteps | ⟨step, hleft, hright⟩ | ⟨step, hleft, hright⟩
  · rw [exchangeNodes_of_matched hsteps]
    have swapped := pairing.swapped
    have traded := pairing.traded hsteps hsingleLeft hsingleRight
    obtain ⟨again, back⟩ := exists_pairing
      (swapped.separate traded forest hfirst hsecond separate) swapped.keeps.forest
      swapped.parts_left swapped.parts_right
    refine ⟨_, _, swapped, traded, fun _ x hx ↦ ?_⟩
    rw [exchangeNodes_of_matched (by simpa [Header.mapNodes, Header.renamed] using hsteps)]
    exact pairing.element_of_back back (hx.mono fun _ ↦ mem_pairNodes_zip)
  · rw [exchangeNodes_of_left hleft hright]
    have swapped := pairing.swapped_append hleft hright
    rw [pairing.childOf?_left_append hleft hright hsingleLeft] at swapped
    have traded := pairing.traded_append hleft hright hsingleLeft
    obtain ⟨again, back⟩ := exists_pairing
      (swapped.separate traded forest hfirst hsecond separate) swapped.keeps.forest
      swapped.parts_left swapped.parts_right
    refine ⟨_, _, swapped, traded, fun hlast x hx ↦ ?_⟩
    obtain ⟨others, hothers⟩ := hlastChild ((hlast.resolve_left (by simp [hleft, hright])) first
      (by simp) step hleft)
    rw [exchangeNodes_of_right rfl rfl]
    exact pairing.element_of_back_append hleft hright back.symm hothers hx
  · rw [exchangeNodes_of_right hleft hright]
    have swapped := (pairing.symm.swapped_append hright hleft).symm
    rw [pairing.symm.childOf?_left_append hright hleft hsingleRight] at swapped
    have traded := (pairing.symm.traded_append hright hleft hsingleRight).symm
    obtain ⟨again, back⟩ := exists_pairing
      (swapped.separate traded forest hfirst hsecond separate) swapped.keeps.forest
      swapped.parts_left swapped.parts_right
    refine ⟨_, _, swapped, traded, fun hlast x hx ↦ ?_⟩
    obtain ⟨others, hothers⟩ := hlastChild ((hlast.resolve_left (by simp [hleft, hright])) second
      (by simp) step hright)
    rw [exchangeNodes_of_left rfl rfl]
    exact pairing.symm.element_of_back_append hright hleft back hothers
      (hx.mono fun _ ↦ mem_append_comm)

end Back

end LoopDirectives.Loop
