import LoopDirectives.Proofs.Loop.Exchange
import LoopDirectives.Proofs.Loop.Nest

/-!
# Headers in an edited document

Two loops are separate when neither lies in the header of the other. Then the nodes of their headers
hang somewhere and are all apart (`Separate.hung`), so that they can be exchanged in pairs, and no
copy is left behind (`Separate.rootedAt_exchangeHeaders`). Replacing nodes renames the header of a
loop (`Parts.of_recast`), and moving a step changes nothing else in it (`StepMoved.parts`).
-/

namespace LoopDirectives.Loop

open Document List

variable {doc before after : Document} {loop left right x y : NodeId} {first second : Header}
  {rename : NodeId → NodeId} {lefts rights : List NodeId}

/-! ### Loops outside of each other's headers -/

def InHeader (doc : Document) (loop x : NodeId) : Prop :=
  ∃ kind ∈ [Kind.var, Kind.indexRange], ∃ part ∈ doc.childOf? loop kind,
    x ∈ doc.subtree part

instance : Decidable (InHeader doc loop x) :=
  inferInstanceAs (Decidable (∃ kind ∈ _, _))

/-- Two loops of which neither lies in the header of the other. -/
structure Separate (doc : Document) (left right : NodeId) : Prop where
  ne : left ≠ right
  right_notIn : ¬ InHeader doc left right
  left_notIn : ¬ InHeader doc right left

theorem Separate.symm (separate : Separate doc left right) : Separate doc right left :=
  ⟨separate.ne.symm, separate.left_notIn, separate.right_notIn⟩

theorem Nested.separate (nested : Nested doc left right) (forest : doc.Forest) :
    Separate doc left right := by
  obtain ⟨body, hbody, hkind, hmem⟩ := nested
  have hbelow := forest.mem_subtree_trans hmem
    (forest.mem_subtree_of_mem_children (forest.mem_children hbody))
  refine ⟨?_, ?_, ?_⟩
  · rintro rfl
    exact forest.not_mem_subtree_of_parent? hbody hmem
  · rintro ⟨kind, hpartKind, part, hpart, hright⟩
    have hne : doc.kind part ≠ doc.kind body := by
      rw [kind_of_childOf? hpart, hkind]
      rcases mem_pair.mp hpartKind with rfl | rfl <;> decide
    exact (forest.apart_of_siblings (forest.parent?_of_childOf? hpart) hbody hne hright
      (forest.self_mem_subtree body)).disjoint forest (forest.self_mem_subtree right) hmem
  · rintro ⟨kind, -, part, hpart, hleft⟩
    exact forest.not_mem_subtree_of_parent? (forest.parent?_of_childOf? hpart)
      (forest.mem_subtree_trans hbelow hleft)

theorem Separate.apart (separate : Separate doc left right) (forest : doc.Forest)
    {leftKind rightKind : Kind} (hleftKind : leftKind ∈ [Kind.var, Kind.indexRange])
    (hrightKind : rightKind ∈ [Kind.var, Kind.indexRange]) {leftPart rightPart : NodeId}
    (hleft : doc.childOf? left leftKind = some leftPart)
    (hright : doc.childOf? right rightKind = some rightPart) :
    doc.Apart leftPart rightPart := by
  have hleftParent := forest.parent?_of_childOf? hleft
  have hrightParent := forest.parent?_of_childOf? hright
  have hne : leftPart ≠ rightPart := by
    rintro rfl
    rw [hleftParent] at hrightParent
    exact separate.ne (Option.some.inj hrightParent)
  refine ⟨fun hmem ↦ ?_, fun hmem ↦ ?_⟩
  · exact separate.left_notIn ⟨rightKind, hrightKind, rightPart, hright,
      ((forest.mem_subtree_of_parent? hleftParent).mp hmem).resolve_left hne⟩
  · exact separate.right_notIn ⟨leftKind, hleftKind, leftPart, hleft,
      ((forest.mem_subtree_of_parent? hrightParent).mp hmem).resolve_left hne.symm⟩

theorem Parts.exists_part {header : Header} (parts : Parts doc loop header)
    (forest : doc.Forest) (hx : x ∈ header.nodes) :
    ∃ kind ∈ [Kind.var, Kind.indexRange], ∃ part, doc.childOf? loop kind = some part ∧
      x ∈ doc.subtree part := by
  rcases parts.mem_subtree_part forest hx with rfl | hx
  · exact ⟨.var, by simp, header.varNode, parts.varNode, forest.self_mem_subtree _⟩
  · exact ⟨.indexRange, by simp, header.range, parts.range, hx⟩

/-- The headers of separate loops have parts that hang apart from each other. -/
theorem Separate.hung (separate : Separate doc left right) (forest : doc.Forest)
    (hfirst : Parts doc left first) (hsecond : Parts doc right second) :
    doc.Hung (first.nodes ++ second.nodes) := by
  refine hung_append_iff.mpr ⟨⟨fun _ ↦ hfirst.exists_parent? forest, hfirst.pairwise_apart forest⟩,
    ⟨fun _ ↦ hsecond.exists_parent? forest, hsecond.pairwise_apart forest⟩,
    fun other hother part hpart ↦ ?_⟩
  obtain ⟨kind, hkind, _, hchild, hmem⟩ := hfirst.exists_part forest hpart
  obtain ⟨otherKind, hotherKind, _, hotherChild, hotherMem⟩ := hsecond.exists_part forest hother
  exact ((separate.apart forest hkind hotherKind hchild hotherChild).of_mem_subtree forest
    hmem hotherMem).symm

/-! ### Pairing the nodes of two headers -/

theorem mem_pairNodes_zip (h : x ∈ pairNodes (lefts.zip rights)) : x ∈ lefts ++ rights := by
  obtain ⟨pair, hpair, hx⟩ := mem_flatMap.mp h
  obtain ⟨hleft, hright⟩ := of_mem_zip hpair
  rcases mem_pair.mp hx with rfl | rfl
  · exact mem_append_left _ hleft
  · exact mem_append_right _ hright

theorem pairwise_pairNodes_zip (h : (lefts ++ rights).Pairwise doc.Apart) :
    (pairNodes (lefts.zip rights)).Pairwise doc.Apart := by
  induction lefts generalizing rights with
  | nil => exact List.Pairwise.nil
  | cons left lefts ih =>
    cases rights with
    | nil => exact List.Pairwise.nil
    | cons right rights =>
      rw [cons_append, pairwise_cons, pairwise_middle Apart.symm,
        pairwise_cons] at h
      obtain ⟨hleft, hright, hrest⟩ := h
      change (left :: right :: pairNodes (lefts.zip rights)).Pairwise doc.Apart
      refine pairwise_cons.mpr ⟨fun x hx ↦ ?_,
        pairwise_cons.mpr ⟨fun x hx ↦ ?_, ih hrest⟩⟩
      · rcases mem_cons.mp hx with rfl | hx
        · exact hleft x (by simp)
        · rcases mem_append.mp (mem_pairNodes_zip hx) with hx | hx
          · exact hleft x (by simp [hx])
          · exact hleft x (by simp [hx])
      · exact hright x (mem_pairNodes_zip hx)

theorem hung_pairNodes_zip (hung : doc.Hung (lefts ++ rights)) :
    doc.Hung (pairNodes (lefts.zip rights)) :=
  ⟨fun part hpart ↦ hung.exists_parent? part (mem_pairNodes_zip hpart),
    pairwise_pairNodes_zip hung.pairwise_apart⟩

/-- Exchanging the headers of separate loops leaves no loose ends. -/
theorem Separate.rootedAt_exchangeHeaders {roots : List NodeId}
    (separate : Separate doc left right) (forest : doc.Forest)
    (rooted : doc.RootedAt roots) (h : exchangeHeaders doc left right = .ok after) :
    after.Forest ∧ after.RootedAt roots := by
  obtain ⟨first, second, hfirst, hsecond, h⟩ := exchangeHeaders_eq_ok h
  have hung := hung_pairNodes_zip (separate.hung forest hfirst hsecond)
  obtain ⟨_, exchanged⟩ := exchanged_exchangeAll forest hung
  have hrooted := exchanged.toRecast.rootedAt forest hung rooted
  rcases h with rfl | ⟨range, -, step, -, rfl⟩
  · exact ⟨exchanged.forest, hrooted⟩
  · exact ⟨exchanged.forest.append range step,
      exchanged.forest.rootedAt_append hrooted range step⟩

/-! ### Headers in a document with nodes replaced -/

def Header.renamed (header : Header) (rename : NodeId → NodeId) (step? : Option NodeId) :
    Header where
  varNode := rename header.varNode
  range := header.range
  lower := rename header.lower
  upper := rename header.upper
  step? := step?

def Header.mapNodes (rename : NodeId → NodeId) (header : Header) : Header :=
  header.renamed rename (header.step?.map rename)

theorem Header.nodes_mapNodes (rename : NodeId → NodeId) (header : Header) :
    (header.mapNodes rename).nodes = header.nodes.map rename := by
  cases hstep : header.step? <;> simp [Header.mapNodes, Header.renamed, Header.nodes, hstep]

/-- What stands in the place of a node that hangs below a loop or a range is of the same kind. -/
def KeepsKinds (before after : Document) (parts : List NodeId) (rename : NodeId → NodeId) : Prop :=
  ∀ part ∈ parts, ∀ parent, before.parent? part = some parent →
    before.kind parent ∈ [Kind.doLoop, Kind.indexRange] →
      after.kind (rename part) = before.kind part

section Recast

variable {parts : List NodeId} (recast : Recast before after parts rename)
  (forest : before.Forest) (hkinds : KeepsKinds before after parts rename)

include recast forest hkinds

section

variable (hx : before.Clear parts x) (hkind : before.kind x ∈ [Kind.doLoop, Kind.indexRange])

include hx hkind

theorem kind_rename_of_recast {child : NodeId} (hchild : child ∈ before.children x) :
    after.kind (rename child) = before.kind child := by
  by_cases hpart : child ∈ parts
  · exact hkinds child hpart x (forest.parent?_of_mem hchild) hkind
  · rw [recast.rename_of_notMem child hpart, recast.kind_eq (hx.child forest hchild hpart)]

theorem childOf?_of_recast (kind : Kind) :
    after.childOf? x kind = (before.childOf? x kind).map rename := by
  rw [childOf?, recast.children x hx, find?_map]
  refine congrArg (Option.map rename) (find?_congr fun child hchild ↦ ?_)
  rw [Function.comp_apply, isKind, isKind,
    kind_rename_of_recast recast forest hkinds hx hkind hchild]

theorem childrenOf_of_recast (kinds : List Kind) :
    after.childrenOf x kinds = (before.childrenOf x kinds).map rename := by
  rw [childrenOf, recast.children x hx, filter_map]
  refine congrArg (List.map rename) (filter_congr fun child hchild ↦ ?_)
  rw [Function.comp_apply, kind_rename_of_recast recast forest hkinds hx hkind hchild]

end

/-- Assumes: the bounds are clear of the parts that are recast. The header is the renamed one. -/
theorem Parts.of_recast {header : Header} (hparts : Parts before loop header)
    (hclear : ∀ kind ∈ [Kind.lowerBound, Kind.upperBound], ∀ bound,
      before.childOf? header.range kind = some bound → before.Clear parts bound) :
    Parts after loop (header.mapNodes rename) := by
  obtain ⟨lowerBound, hlowerBound, hlower⟩ := hparts.lower
  obtain ⟨upperBound, hupperBound, hupper⟩ := hparts.upper
  have hlowerClear := hclear _ (by simp) lowerBound hlowerBound
  have hupperClear := hclear _ (by simp) upperBound hupperBound
  have hrangeClear := hlowerClear.of_parent? forest (forest.parent?_of_childOf? hlowerBound)
  have hloopClear := hrangeClear.of_parent? forest (forest.parent?_of_childOf? hparts.range)
  have hloop := childOf?_of_recast recast forest hkinds hloopClear
    (by rw [beq_iff_eq.mp hparts.isKind]; simp)
  have hrange := childOf?_of_recast recast forest hkinds hrangeClear
    (by rw [kind_of_childOf? hparts.range]; simp)
  have hkept {x : NodeId} (hx : before.Clear parts x) : rename x = x :=
    recast.rename_of_notMem x (hx.notMem forest)
  have hcontent {bound content : NodeId} (hbound : before.Clear parts bound)
      (h : before.firstChild? bound = some content) :
      after.firstChild? bound = some (rename content) := by
    rw [firstChild?, recast.children bound hbound, head?_map, ← firstChild?, h,
      Option.map_some]
  refine ⟨?_, ?_, ?_, ⟨lowerBound, ?_, hcontent hlowerClear hlower⟩,
    ⟨upperBound, ?_, hcontent hupperClear hupper⟩, ?_⟩
  · rw [Document.isKind, recast.kind_eq hloopClear]
    exact hparts.isKind
  · rw [hloop, hparts.varNode]
    rfl
  · rw [hloop, hparts.range, Option.map_some, hkept hrangeClear]
    rfl
  · change after.childOf? header.range _ = _
    rw [hrange, hlowerBound, Option.map_some, hkept hlowerClear]
  · change after.childOf? header.range _ = _
    rw [hrange, hupperBound, Option.map_some, hkept hupperClear]
  · change after.childOf? header.range _ = _
    rw [hrange, hparts.step?]
    rfl

end Recast

/-! ### Headers in a document with a step moved -/

/-- A step has moved from one range to the end of another one. -/
structure StepMoved (before after : Document) (step source target : NodeId) : Prop where
  forest : before.Forest
  moved : Moved before after step target ((before.children target).filter (· ≠ step)).length
  kind_step : before.kind step = .step
  parent?_step : before.parent? step = some source
  kind_source : before.kind source = .indexRange
  kind_target : before.kind target = .indexRange
  ne : source ≠ target

namespace StepMoved

variable {step source target : NodeId} (moved : StepMoved before after step source target)

include moved

theorem notMem_children (hx : x ≠ source) : step ∉ before.children x := by
  intro hmem
  have hparent := moved.forest.parent?_of_mem hmem
  rw [moved.parent?_step] at hparent
  exact hx (Option.some.inj hparent).symm

theorem filter_children (hx : x ≠ source) :
    (before.children x).filter (· ≠ step) = before.children x := by
  refine filter_eq_self.mpr fun child hchild ↦ decide_eq_true ?_
  rintro rfl
  exact moved.notMem_children hx hchild

theorem children_of_ne (hsource : x ≠ source) (htarget : x ≠ target) :
    after.children x = before.children x := by
  rw [moved.moved.children_of_ne x htarget, moved.filter_children hsource]

theorem children_source :
    after.children source = (before.children source).filter (· ≠ step) :=
  moved.moved.children_of_ne source moved.ne

theorem children_target : after.children target = before.children target ++ [step] := by
  have htarget := moved.filter_children moved.ne.symm
  rw [moved.moved.children_parent, htarget, take_length, drop_length]

theorem kind_eq (x : NodeId) : after.kind x = before.kind x := by
  rw [kind, kind, moved.moved.label_eq]

theorem keepsPlaces : KeepsPlaces before after [step] [source, target] := by
  have hne {x : NodeId} (hx : before.Clear [step] x) : x ≠ step := by
    rintro rfl
    exact hx.notMem moved.forest (mem_singleton_self x)
  have hfilter (ids : List NodeId) : (ids.filter (· ≠ step)).filter (before.Clear [step] ·) =
      ids.filter (before.Clear [step] ·) :=
    KeepsPlaces.filter_filter_of_imp fun x hx ↦ decide_eq_true (hne (of_decide_eq_true hx))
  have hout {x : NodeId} (hx : x ∉ [source, target]) : after.children x = before.children x := by
    rw [mem_pair, not_or] at hx
    exact moved.children_of_ne hx.1 hx.2
  refine ⟨⟨moved.moved.forest moved.forest, fun x hx ↦ ?_, fun x _ ↦ moved.moved.label_eq x,
    fun x hx ↦ moved.moved.parent?_of_ne (hne hx)⟩, fun x _ hx ↦ by rw [hout hx],
    fun x _ hx index child hchild _ ↦ by rwa [hout hx], fun x _ ↦ ?_⟩
  · rw [moved.moved.contains_eq]
    exact hx.1
  · by_cases hx : x = target
    · subst hx
      have hstep : [step].filter (before.Clear [step] ·) = [] := by
        refine filter_eq_nil_iff.mpr fun x hx hclear ↦ ?_
        exact hne (of_decide_eq_true hclear) (mem_singleton.mp hx)
      rw [moved.children_target, filter_append, hstep, append_nil]
    · rw [moved.moved.children_of_ne x hx, hfilter]

theorem element_eq (hx : ∀ y ∈ before.subtree x, y ∉ [source, target]) :
    after.element x = before.element x := by
  refine moved.forest.element_congr (moved.moved.forest moved.forest) fun y hy ↦ ?_
  have hout := hx y hy
  rw [mem_pair, not_or] at hout
  exact ⟨moved.moved.label_eq y, moved.children_of_ne hout.1 hout.2⟩

theorem childOf?_eq {kind : Kind} (hkind : kind ≠ .step) (x : NodeId) :
    after.childOf? x kind = before.childOf? x kind := by
  have hkinds : (after.isKind · kind) = (before.isKind · kind) := by
    funext y
    rw [isKind, isKind, moved.kind_eq]
  have hstep : before.isKind step kind = false := by
    rw [isKind, moved.kind_step, beq_eq_false_iff_ne]
    exact hkind.symm
  rw [childOf?, childOf?, hkinds]
  by_cases htarget : x = target
  · rw [htarget, moved.children_target, find?_append]
    simp [hstep]
  · rw [moved.moved.children_of_ne x htarget, find?_filter]
    refine find?_congr fun child _ ↦ ?_
    by_cases hchild : child = step
    · simp [hchild, hstep]
    · simp [hchild]

/-- A step that moves to another range leaves the other parts of a header as they are. -/
theorem parts {header : Header} (hparts : Parts before loop header) :
    Parts after loop { header with step? := after.childOf? header.range .step } := by
  have hbound {bound : NodeId} {kind : Kind} (hkind : kind ≠ .indexRange)
      (h : before.childOf? header.range kind = some bound) :
      after.firstChild? bound = before.firstChild? bound := by
    have hne {range : NodeId} (hrange : before.kind range = .indexRange) : bound ≠ range := by
      rintro rfl
      rw [kind_of_childOf? h] at hrange
      exact hkind hrange
    rw [firstChild?, firstChild?,
      moved.children_of_ne (hne moved.kind_source) (hne moved.kind_target)]
  obtain ⟨lowerBound, hlowerBound, hlower⟩ := hparts.lower
  obtain ⟨upperBound, hupperBound, hupper⟩ := hparts.upper
  refine ⟨?_, ?_, ?_, ⟨lowerBound, ?_, ?_⟩, ⟨upperBound, ?_, ?_⟩, rfl⟩
  · rw [isKind, moved.kind_eq]
    exact hparts.isKind
  · rw [moved.childOf?_eq (by decide)]
    exact hparts.varNode
  · rw [moved.childOf?_eq (by decide)]
    exact hparts.range
  · rw [moved.childOf?_eq (by decide)]
    exact hlowerBound
  · rw [hbound (by decide) hlowerBound]
    exact hlower
  · rw [moved.childOf?_eq (by decide)]
    exact hupperBound
  · rw [hbound (by decide) hupperBound]
    exact hupper

end StepMoved

/-! ### Ranges with a single step -/

def SingleStep (doc : Document) (range : NodeId) : Prop :=
  (doc.childrenOf range [.step]).length ≤ 1

instance {range : NodeId} : Decidable (SingleStep doc range) :=
  inferInstanceAs (Decidable (_ ≤ 1))

theorem childOf?_eq_head? (doc : Document) (range : NodeId) :
    doc.childOf? range .step = (doc.childrenOf range [.step]).head? := by
  rw [childrenOf, head?_filter, childOf?]
  refine find?_congr fun child _ ↦ ?_
  rw [isKind, contains_cons, contains_nil, Bool.or_false]

theorem SingleStep.childrenOf_eq {range : NodeId} (single : SingleStep doc range) :
    doc.childrenOf range [.step] = (doc.childOf? range .step).toList := by
  rw [childOf?_eq_head?]
  rw [SingleStep] at single
  match h : doc.childrenOf range [.step] with
  | [] => rfl
  | [step] => rfl
  | step :: other :: rest =>
    rw [h, length_cons, length_cons] at single
    omega

namespace StepMoved

variable {step source target : NodeId} (moved : StepMoved before after step source target)

include moved

theorem childrenOf_source :
    after.childrenOf source [.step] = (before.childrenOf source [.step]).filter (· ≠ step) := by
  rw [childrenOf, childrenOf, moved.children_source, filter_filter, filter_filter]
  refine filter_congr fun child _ ↦ ?_
  rw [moved.kind_eq, Bool.and_comm]

theorem childrenOf_target :
    after.childrenOf target [.step] = before.childrenOf target [.step] ++ [step] := by
  have hstep : [step].filter (fun child ↦ [Kind.step].contains (after.kind child)) = [step] := by
    simp [moved.kind_eq, moved.kind_step]
  rw [childrenOf, childrenOf, moved.children_target, filter_append, hstep]
  refine congrArg (· ++ [step]) (filter_congr fun child _ ↦ ?_)
  rw [moved.kind_eq]

theorem childrenOf_source_of_single (single : SingleStep before source)
    (hstep : before.childOf? source .step = some step) : after.childrenOf source [.step] = [] := by
  rw [moved.childrenOf_source, single.childrenOf_eq, hstep]
  simp

theorem childrenOf_target_of_none (hnone : before.childOf? target .step = none) :
    after.childrenOf target [.step] = [step] := by
  rw [childOf?_eq_head?, head?_eq_none_iff] at hnone
  rw [moved.childrenOf_target, hnone, nil_append]

end StepMoved

end LoopDirectives.Loop
