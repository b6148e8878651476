import LoopDirectives.Proofs.Document.Aging
import LoopDirectives.Proofs.Transformation.Perform

/-!
# One fusion

A candidate is a loop that a directive asks to fuse. `Candidate.Suits` says when another candidate
can be its partner, and `Candidate.Fused` what a document shows after the second was merged into the
first; a candidate without a partner loses its pragma and nothing else (`Document.LosesOnly`). The
loops and bodies of the candidates are found once, which works because a candidate stays ready
(`Candidate.Ready`) while other loops are fused.
-/

namespace LoopDirectives

open Document List

variable {doc : Document}

/-- A loop to be fused: the pragma that asks for it, the fusion, and the body of the loop. -/
structure Candidate where
  pragma : NodeId
  fusion : Fusion
  body : NodeId
  deriving DecidableEq

/-- What a document shows after it has lost one node. -/
structure Document.LosesOnly (before after : Document) (id : NodeId) : Prop where
  contains_iff : ∀ x, after.contains x = true ↔ before.contains x = true ∧ x ≠ id
  label_eq : ∀ x, x ≠ id → after.label x = before.label x
  parent?_eq : ∀ x, x ≠ id → after.parent? x = before.parent? x
  children_eq : ∀ x, x ≠ id → after.children x = (before.children x).filter (· ≠ id)

/-- Pragmas with a text have nothing below them. -/
def Document.LeafPragmas (doc : Document) : Prop :=
  ∀ x, doc.kind x = .pragma → doc.text x ≠ "" → doc.children x = []

namespace Candidate

abbrev loop (candidate : Candidate) : NodeId :=
  candidate.fusion.loop

def Attached (doc : Document) (candidate : Candidate) : Prop :=
  ∃ parent, doc.parent? candidate.pragma = some parent

/-- The second candidate can be the partner of the first: its pragma hangs in the document, and the
loops are different ones of the same group, below the same node, with the same range. -/
structure Suits (doc : Document) (first second : Candidate) : Prop where
  attached : second.Attached doc
  loop_ne : first.loop ≠ second.loop
  group_eq : first.fusion.group? = second.fusion.group?
  siblings : ∃ parent, doc.contains parent = true ∧
    doc.parent? first.loop = some parent ∧ doc.parent? second.loop = some parent
  sameIteration : Loop.sameIteration doc true first.loop second.loop = true

/-- The node is a part of the loop outside its body, or below such a part. -/
def InHeader (doc : Document) (candidate : Candidate) (x : NodeId) : Prop :=
  ∃ part ∈ doc.children candidate.loop, part ≠ candidate.body ∧ x ∈ doc.subtree part

/-- What a document shows after the second loop was merged into the first. -/
structure Fused (before after : Document) (first second : Candidate) : Prop where
  children_body : after.children first.body =
    before.children first.body ++ before.children second.body
  loop_gone : after.contains second.loop = false
  pragmas_gone : after.contains first.pragma = false ∧ after.contains second.pragma = false
  kept : ∀ x, before.contains x = true → before.kind x ≠ .pragma → after.contains x = true ∨
    x = second.loop ∨ x = second.body ∨ second.InHeader before x
  label_eq : ∀ x, after.contains x = true → after.label x = before.label x
  parent?_eq : ∀ x, after.contains x = true → after.parent? x =
    if x ∈ before.children second.body then some first.body else before.parent? x

/-- What a candidate is like as long as its loop and its pragma are there. -/
structure Ready (doc : Document) (candidate : Candidate) : Prop where
  pragma : doc.contains candidate.pragma = true →
    doc.kind candidate.pragma = .pragma ∧ doc.text candidate.pragma ≠ ""
  loop : doc.contains candidate.loop = true →
    doc.kind candidate.loop = .doLoop ∧
      doc.childrenOf candidate.loop [.body] = [candidate.body]
  beside : doc.contains candidate.pragma = true → doc.contains candidate.loop = true →
    doc.parent? candidate.pragma = doc.parent? candidate.loop

variable {doc before after : Document} {candidate first second : Candidate} {x id : NodeId}
  {wanted : Kind}

theorem suits_iff (forest : doc.Forest) :
    Suits doc first second ↔ (doc.parent? second.pragma).isSome ∧
      Fusion.compatible doc first.fusion second.fusion := by
  constructor
  · rintro ⟨⟨holder, hholder⟩, hne, hgroup, ⟨parent, -, hfirst, hsecond⟩, hsame⟩
    simp only [loop] at hne hfirst hsecond hsame
    simp [Fusion.compatible, hholder, hne, hgroup, hfirst, hsecond, hsame]
  · rintro ⟨hattached, hcompatible⟩
    obtain ⟨hne, parent, hfirst, hsecond⟩ := Fusion.parent?_of_compatible hcompatible
    simp only [Fusion.compatible, Bool.and_eq_true, beq_iff_eq] at hcompatible
    exact ⟨Option.isSome_iff_exists.mp hattached, hne, hcompatible.1.1.1.2,
      ⟨parent, forest.contains_parent hfirst, hfirst, hsecond⟩, hcompatible.2⟩

/-! ### The body of a ready candidate -/

theorem mem_childrenOf_iff :
    x ∈ doc.childrenOf id [wanted] ↔
      x ∈ doc.children id ∧ doc.kind x = wanted := by
  simp [childrenOf]

theorem childOf?_of_childrenOf {child : NodeId} (h : doc.childrenOf id [wanted] = [child]) :
    doc.childOf? id wanted = some child := by
  have hfilter : doc.childrenOf id [wanted] =
      (doc.children id).filter (doc.isKind · wanted) :=
    filter_congr fun x _ ↦ by simp [isKind, Bool.beq_eq_decide_eq]
  rw [childOf?, ← head?_filter, ← hfilter, h]
  rfl

namespace Ready

variable (ready : Ready doc candidate)

include ready

theorem childOf?_body (hlive : doc.contains candidate.loop) :
    doc.childOf? candidate.loop .body = some candidate.body :=
  childOf?_of_childrenOf (ready.loop hlive).2

theorem eq_body (hlive : doc.contains candidate.loop)
    (hx : x ∈ doc.children candidate.loop) (hkind : doc.kind x = .body) :
    x = candidate.body := by
  have hmem : x ∈ doc.childrenOf candidate.loop [.body] :=
    mem_childrenOf_iff.mpr ⟨hx, hkind⟩
  rw [(ready.loop hlive).2] at hmem
  exact mem_singleton.mp hmem

end Ready

end Candidate

/-! ### What a fusion leaves as it is -/

/-- The statements of one body have moved to another, and no body was deleted by itself. -/
structure Document.Reshaped (before after : Document) (moved : List NodeId) (target : NodeId)
    (doomed : List NodeId) : Prop extends Rearranged before after moved target doomed where
  target_body : after.contains target = true → before.kind target = .body
  moved_body : ∀ x ∈ moved, ∃ holder, before.kind holder = .body ∧
    ∀ y, before.parent? y = some holder ↔ y ∈ moved
  doomed_ne : ∀ x ∈ doomed, before.kind x ≠ .body

namespace Document.Reshaped

variable {before after : Document} {moved doomed : List NodeId} {target x : NodeId}
  (reshaped : Reshaped before after moved target doomed)

include reshaped

theorem ne_target (hlive : after.contains x) (hkind : before.kind x ≠ .body) :
    x ≠ target := by
  rintro rfl
  exact hkind (reshaped.target_body hlive)

theorem leafPragmas (leaf : before.LeafPragmas) : after.LeafPragmas := by
  intro x hkind htext
  cases hlive : after.contains x with
  | false => exact children_of_stale hlive
  | true =>
    rw [reshaped.kind_eq hlive] at hkind
    rw [text, reshaped.label_eq x hlive] at htext
    have hne : before.kind x ≠ .body := by simp [hkind]
    rw [reshaped.children_of_ne x hlive (reshaped.ne_target hlive hne), leaf x hkind htext]
    rfl

theorem childrenOf_body (hlive : after.contains x) (hkind : before.kind x ≠ .body)
    (forest : before.Forest) : after.childrenOf x [.body] = before.childrenOf x [.body] := by
  have hstays : (before.children x).filter (· ∉ moved) = before.children x := by
    refine filter_eq_self.mpr fun child hchild ↦ decide_eq_true fun hmem ↦ ?_
    obtain ⟨holder, hbody, hall⟩ := reshaped.moved_body child hmem
    cases (forest.parent?_of_mem hchild).symm.trans ((hall child).mpr hmem)
    exact hkind hbody
  have hchildren := reshaped.children_of_ne x hlive (reshaped.ne_target hlive hkind)
  rw [hstays] at hchildren
  have hkept : (before.childrenOf x [.body]).filter (· ∉ doomed) = before.childrenOf x [.body] :=
    filter_eq_self.mpr fun child hchild ↦ decide_eq_true fun hmem ↦
      reshaped.doomed_ne child hmem (Candidate.mem_childrenOf_iff.mp hchild).2
  have hkinds : after.childrenOf x [.body] =
      (after.children x).filter fun child ↦ [Kind.body].contains (before.kind child) :=
    filter_congr fun child hchild ↦ by
      rw [reshaped.kind_eq (reshaped.forest.contains_child hchild)]
  rw [hkinds, hchildren, ← hkept, childrenOf, filter_filter, filter_filter]
  exact filter_congr fun child _ ↦ Bool.and_comm _ _

theorem rootedAt {roots : List NodeId} (rooted : before.RootedAt roots) :
    after.RootedAt roots := by
  intro x hlive hparent
  rw [reshaped.parent?_eq x hlive] at hparent
  split at hparent
  · cases hparent
  · exact rooted x (reshaped.contains x hlive) hparent

theorem ready (forest : before.Forest) {candidate : Candidate}
    (ready : Candidate.Ready before candidate) : Candidate.Ready after candidate := by
  refine ⟨fun hlive ↦ ?_, fun hlive ↦ ?_, fun hpragma hloop ↦ ?_⟩
  · rw [reshaped.kind_eq hlive, text, reshaped.label_eq _ hlive]
    exact ready.pragma (reshaped.contains _ hlive)
  · obtain ⟨hkind, hbody⟩ := ready.loop (reshaped.contains _ hlive)
    rw [reshaped.kind_eq hlive, reshaped.childrenOf_body hlive (by simp [hkind]) forest]
    exact ⟨hkind, hbody⟩
  · have hsame := ready.beside (reshaped.contains _ hpragma) (reshaped.contains _ hloop)
    -- Siblings move together.
    have hboth : candidate.pragma ∈ moved ↔ candidate.loop ∈ moved := by
      constructor <;> intro hmem <;> obtain ⟨holder, -, hall⟩ := reshaped.moved_body _ hmem
      · rw [← hall, ← hsame]
        exact (hall _).mpr hmem
      · rw [← hall, hsame]
        exact (hall _).mpr hmem
    rw [reshaped.parent?_eq _ hpragma, reshaped.parent?_eq _ hloop, hsame]
    simp only [hboth]

theorem inHeader_cases (forest : before.Forest) {candidate : Candidate}
    (ready : Candidate.Ready before candidate) (h : candidate.InHeader after x) :
    candidate.InHeader before x ∨ ∃ part ∈ before.children candidate.loop,
      part ≠ candidate.body ∧ (part = target ∨ before.Above part target) ∧
        ∃ id ∈ moved, x ∈ before.subtree id := by
  obtain ⟨part, hpart, hbody, hmem⟩ := h
  have hlive := contains_of_mem_children hpart
  have hloop := (ready.loop (reshaped.contains _ hlive)).1
  have hbefore : part ∈ before.children candidate.loop :=
    reshaped.mem_children_of_ne (reshaped.ne_target hlive (by simp [hloop])) hpart
  rcases (reshaped.forest.mem_subtree_iff _ _).mp hmem with rfl | habove
  · exact Or.inl ⟨x, hbefore, hbody, forest.self_mem_subtree x⟩
  · rcases reshaped.above_cases habove with habove | ⟨hupper, id, hid, hbelow⟩
    · exact Or.inl ⟨part, hbefore, hbody, forest.mem_subtree_of_above habove⟩
    · exact Or.inr ⟨part, hbefore, hbody, hupper, id, hid,
        (forest.mem_subtree_iff _ _).mpr hbelow⟩

end Document.Reshaped

/-! ### Losing a pragma -/

theorem Document.subtree_of_leaf (forest : doc.Forest) {x y : NodeId}
    (hleaf : doc.children x = []) (h : y ∈ doc.subtree x) : y = x := by
  rw [forest.subtree_eq, hleaf] at h
  simpa using h

namespace Candidate

variable {doc : Document} {candidate first second : Candidate} {id : NodeId}

theorem losesOnly_delete (forest : doc.Forest) (hleaf : doc.children id = []) :
    LosesOnly doc (doc.delete id) id := by
  have hkept {x : NodeId} (hx : x ≠ id) : x ∉ doc.subtree id := fun hmem ↦
    hx (subtree_of_leaf forest hleaf hmem)
  refine ⟨fun x ↦ ?_, fun x hx ↦ forest.label_delete (hkept hx),
    fun x hx ↦ forest.parent?_delete (hkept hx), fun x hx ↦ forest.children_delete (hkept hx)⟩
  rw [forest.contains_delete_iff]
  refine and_congr_right fun _ ↦ ⟨?_, hkept⟩
  rintro hnot rfl
  exact hnot (forest.self_mem_subtree x)

theorem reshaped_delete (forest : doc.Forest) (hkind : doc.kind id ≠ .body) :
    Reshaped doc (doc.delete id) [] id [id] where
  toRearranged := (forest.pruned_deleteAll [id]).rearranged id
  target_body hlive := by
    rw [not_contains_delete] at hlive
    cases hlive
  moved_body x hx := by cases hx
  doomed_ne x hx := by rwa [mem_singleton.mp hx]

end Candidate

/-! ### Merging two loops -/

theorem Fusion.perform_of_bodies {first second : Fusion} {body extra : NodeId}
    (hbody : doc.childOf? first.loop .body = some body)
    (hextra : doc.childOf? second.loop .body = some extra) (marker : String) :
    Fusion.perform marker doc first second =
      .ok ((Pragma.cleanAround (merged doc body extra) marker second.loop loopWords
        loopWords).delete second.loop) := by
  have hkinds : doc.isKind body .body ∧ doc.isKind extra .body := by
    rw [isKind, isKind, kind_of_childOf? hbody, kind_of_childOf? hextra]
    exact ⟨rfl, rfl⟩
  unfold perform Loop.body?
  rw [hbody, hextra]
  dsimp only
  rw [Loop.appendBody, hkinds.1, hkinds.2]
  rfl

theorem Pragma.text_ne_of_mentions {text : String}
    (h : Pragma.mentions Fusion.loopWords text) : text ≠ "" := by
  rintro rfl
  revert h
  decide

namespace Candidate

/-- The loops of two candidates are different children of one node, each with its body. -/
structure SideBySide (doc : Document) (first second : Candidate) (parent : NodeId) :
    Prop where
  forest : doc.Forest
  loop_ne : first.loop ≠ second.loop
  first_loop : doc.parent? first.loop = some parent
  second_loop : doc.parent? second.loop = some parent
  loop_kinds : doc.kind first.loop = .doLoop ∧ doc.kind second.loop = .doLoop
  first_body : doc.childOf? first.loop .body = some first.body
  second_body : doc.childOf? second.loop .body = some second.body

variable {doc : Document} {first second : Candidate} {parent x : NodeId}

theorem Suits.sideBySide (suits : Suits doc first second) (forest : doc.Forest)
    (hfirst : Ready doc first) (hsecond : Ready doc second) :
    ∃ parent, SideBySide doc first second parent := by
  obtain ⟨parent, -, hone, hother⟩ := suits.siblings
  have hliveOne := contains_of_parent? hone
  have hliveOther := contains_of_parent? hother
  exact ⟨parent, forest, suits.loop_ne, hone, hother,
    ⟨(hfirst.loop hliveOne).1, (hsecond.loop hliveOther).1⟩,
    hfirst.childOf?_body hliveOne, hsecond.childOf?_body hliveOther⟩

namespace SideBySide

variable (beside : SideBySide doc first second parent)

include beside

theorem parent?_first_body : doc.parent? first.body = some first.loop :=
  beside.forest.parent?_of_childOf? beside.first_body

theorem parent?_second_body : doc.parent? second.body = some second.loop :=
  beside.forest.parent?_of_childOf? beside.second_body

theorem not_above_first_body : ¬ doc.Above second.loop first.body := by
  rw [above_iff_of_parent? beside.parent?_first_body]
  rintro (heq | habove)
  · exact beside.loop_ne heq.symm
  · exact beside.forest.not_above_sibling beside.second_loop beside.first_loop habove

theorem above_of_mem (hx : x ∈ doc.children second.body) : doc.Above second.loop x :=
  (above_of_parent? beside.parent?_second_body).trans
    (above_of_parent? (beside.forest.parent?_of_mem hx))

theorem gathered : Gathered doc (Fusion.merged doc first.body second.body)
    (doc.children second.body) first.body := by
  refine beside.forest.gathered_appendAll (contains_of_parent? beside.parent?_first_body)
    (beside.forest.nodup_children _) fun x hx ↦ ⟨beside.forest.contains_child hx, ?_, ?_⟩
  · rintro rfl
    exact beside.not_above_first_body (beside.above_of_mem hx)
  · exact fun habove ↦ beside.not_above_first_body ((beside.above_of_mem hx).trans habove)

theorem parent_ne : parent ≠ first.body ∧ parent ≠ second.body := by
  constructor
  · rintro rfl
    exact beside.forest.not_above_symm (above_of_parent? beside.first_loop)
      (above_of_parent? beside.parent?_first_body)
  · rintro rfl
    exact beside.forest.not_above_symm (above_of_parent? beside.second_loop)
      (above_of_parent? beside.parent?_second_body)

theorem body_ne : first.body ≠ second.body := by
  intro heq
  have hsecond := beside.parent?_second_body
  rw [← heq, beside.parent?_first_body] at hsecond
  exact beside.loop_ne (Option.some.inj hsecond)

theorem children_merged :
    (Fusion.merged doc first.body second.body).children first.body =
      doc.children first.body ++ doc.children second.body := by
  rw [beside.gathered.children_parent, filter_eq_self.mpr fun x hx ↦ ?_]
  refine decide_eq_true fun hmem ↦ beside.body_ne ?_
  exact Option.some.inj ((beside.forest.parent?_of_mem hx).symm.trans
    (beside.forest.parent?_of_mem hmem))

theorem children_merged_second_body :
    (Fusion.merged doc first.body second.body).children second.body = [] := by
  rw [beside.gathered.children_of_ne _ beside.body_ne.symm]
  exact filter_eq_nil_iff.mpr fun x hx ↦ by simp [hx]

/-- What a fusion deletes are children of the common parent: the second loop, and pragmas with a
text, those of the two directives among them. -/
theorem exists_doomed (hfirst : Ready doc first) (hsecond : Ready doc second)
    (hattached : first.Attached doc) (hother : second.Attached doc) (marker : String) :
    ∃ performed doomed,
      Fusion.perform marker doc first.fusion second.fusion = .ok performed ∧
      (performed.delete first.pragma).delete second.pragma =
        (Fusion.merged doc first.body second.body).deleteAll doomed ∧
      (second.loop ∈ doomed ∧ first.pragma ∈ doomed ∧ second.pragma ∈ doomed) ∧
      ∀ x ∈ doomed, doc.parent? x = some parent ∧
        (x = second.loop ∨ doc.kind x = .pragma ∧ doc.text x ≠ "") := by
  have hmerged : (Fusion.merged doc first.body second.body).Forest :=
    beside.forest.appendAll first.body _
  obtain ⟨doomed, hclean, hdoomed⟩ := Pragma.cleanAround_eq_deleteAll hmerged marker second.loop
    Fusion.loopWords Fusion.loopWords
  have hperform := Fusion.perform_of_bodies beside.first_body beside.second_body marker
  refine ⟨_, doomed ++ [second.loop, first.pragma, second.pragma], hperform, ?_, by simp,
    fun x hx ↦ ?_⟩
  · change ((Pragma.cleanAround _ marker second.loop _ _).delete _ |>.delete _).delete _ = _
    rw [hclean, deleteAll, deleteAll, foldl_append]
    rfl
  · rcases mem_append.mp hx with hx | hx
    · -- Moving the statements changes neither the siblings of the loop nor their labels.
      obtain ⟨⟨hpreceding, hfollowing⟩, hlabel⟩ := Fusion.siblings_merged beside.forest
        beside.first_loop beside.second_loop beside.first_body beside.second_body
      have hparent : doc.parent? x = some parent := by
        rcases hdoomed x hx with ⟨hrun, -⟩ | ⟨hrun, -⟩
        · have hsibling := mem_reverse.mp (Pragma.mem_of_mem_foreignRun hrun).1
          rw [hpreceding] at hsibling
          exact beside.forest.parent?_of_mem_siblings beside.second_loop (by simp [hsibling])
        · have hsibling := (Pragma.mem_of_mem_foreignRun hrun).1
          rw [hfollowing] at hsibling
          exact beside.forest.parent?_of_mem_siblings beside.second_loop (by simp [hsibling])
      have hpragma := (hdoomed x hx).elim
        (fun h ↦ And.intro (Pragma.mem_of_mem_foreignRun h.1).2.1 h.2)
        fun h ↦ And.intro (Pragma.mem_of_mem_foreignRun h.1).2.1 h.2
      rw [isKind, kind, text, hlabel x hparent] at hpragma
      exact ⟨hparent, Or.inr ⟨beq_iff_eq.mp hpragma.1, Pragma.text_ne_of_mentions hpragma.2⟩⟩
    · have hpragma {candidate : Candidate} (ready : Ready doc candidate)
          (hattached : candidate.Attached doc)
          (hloop : doc.parent? candidate.loop = some parent) :
          doc.parent? candidate.pragma = some parent ∧
            doc.kind candidate.pragma = .pragma ∧ doc.text candidate.pragma ≠ "" := by
        obtain ⟨holder, hholder⟩ := hattached
        have hlive := contains_of_parent? hholder
        exact ⟨(ready.beside hlive (contains_of_parent? hloop)).trans hloop, ready.pragma hlive⟩
      simp only [mem_cons, not_mem_nil, or_false] at hx
      rcases hx with rfl | rfl | rfl
      · exact ⟨beside.second_loop, Or.inl rfl⟩
      · exact (hpragma hfirst hattached beside.first_loop).imp_right Or.inr
      · exact (hpragma hsecond hother beside.second_loop).imp_right Or.inr

theorem mem_subtree_loop
    (hx : x ∈ (Fusion.merged doc first.body second.body).subtree second.loop) :
    x = second.loop ∨ x = second.body ∨ second.InHeader doc x := by
  have gathered := beside.gathered
  rcases (gathered.forest.mem_subtree_iff _ _).mp hx with rfl | habove
  · exact Or.inl rfl
  · obtain ⟨part, hpart, hbelow⟩ := habove.exists_child
    have hmem : part ∈ doc.children second.loop := by
      have hmerged := gathered.forest.mem_children hpart
      rw [gathered.children_of_ne _ fun heq ↦ ?_] at hmerged
      · exact mem_of_mem_filter hmerged
      · have hkind := kind_of_childOf? beside.first_body
        rw [← heq, beside.loop_kinds.2] at hkind
        cases hkind
    by_cases hbody : part = second.body
    · -- The body of the second loop is empty by then.
      rcases hbelow with rfl | hbelow
      · exact Or.inr (Or.inl hbody)
      · obtain ⟨child, hchild, -⟩ := hbelow.exists_child
        have hnone := gathered.forest.mem_children hchild
        rw [hbody, beside.children_merged_second_body] at hnone
        cases hnone
    · refine Or.inr (Or.inr ⟨part, hmem, hbody, (beside.forest.mem_subtree_iff _ _).mpr ?_⟩)
      refine hbelow.imp id fun hbelow ↦ ?_
      have hloop := above_of_parent? (beside.forest.parent?_of_mem hmem)
      rcases gathered.above_cases hbelow with habove | ⟨rfl | hupper, -⟩
      · exact habove
      · exact absurd hloop beside.not_above_first_body
      · exact absurd (hloop.trans hupper) beside.not_above_first_body

theorem eq_of_mem_subtree (leaf : doc.LeafPragmas) {pragma : NodeId}
    (hkind : doc.kind pragma = .pragma) (htext : doc.text pragma ≠ "")
    (hx : x ∈ (Fusion.merged doc first.body second.body).subtree pragma) : x = pragma := by
  have gathered := beside.gathered
  refine subtree_of_leaf gathered.forest ?_ hx
  rw [gathered.children_of_ne _ fun heq ↦ ?_, leaf pragma hkind htext]
  · rfl
  · rw [heq, kind_of_childOf? beside.first_body] at hkind
    cases hkind

section Doomed

variable {after : Document} {doomed : List NodeId}
  (pruned : Pruned (Fusion.merged doc first.body second.body) after doomed)
  (hdoomed : ∀ x ∈ doomed, doc.parent? x = some parent ∧
    (x = second.loop ∨ doc.kind x = .pragma ∧ doc.text x ≠ ""))

include pruned hdoomed

theorem reshaped :
    Reshaped doc after (doc.children second.body) first.body doomed where
  toRearranged := beside.gathered.rearranged pruned
  target_body _ := kind_of_childOf? beside.first_body
  moved_body _ _ := ⟨second.body, kind_of_childOf? beside.second_body, fun y ↦
    (beside.forest.mem_children_iff second.body y).symm⟩
  doomed_ne x hx := by
    rcases (hdoomed x hx).2 with rfl | hpragma
    · simp [beside.loop_kinds.2]
    · simp [hpragma.1]

theorem kept (leaf : doc.LeafPragmas) (hlive : doc.contains x)
    (hkind : doc.kind x ≠ .pragma) :
    after.contains x ∨ x = second.loop ∨ x = second.body ∨ second.InHeader doc x := by
  by_cases hafter : after.contains x
  · exact Or.inl hafter
  · rw [pruned.contains_iff, beside.gathered.contains_eq, not_and] at hafter
    have hgone := hafter hlive
    push Not at hgone
    obtain ⟨gone, hgone, hmem⟩ := hgone
    refine Or.inr ?_
    rcases (hdoomed gone hgone).2 with rfl | ⟨hpragma, htext⟩
    · exact beside.mem_subtree_loop hmem
    · rw [beside.eq_of_mem_subtree leaf hpragma htext hmem] at hkind
      exact absurd hpragma hkind

theorem inHeader_of_inHeader {candidate : Candidate} (ready : Ready doc candidate)
    (h : candidate.InHeader after x) : candidate.InHeader doc x := by
  have forest := beside.forest
  rcases (beside.reshaped pruned hdoomed).inHeader_cases forest ready h with
    h | ⟨part, hpart, hbody, hupper, statement, hstatement, hx⟩
  · exact h
  · have hparent := forest.parent?_of_mem hpart
    -- The statement came from the second loop, next to the first.
    have hloop : x ∈ doc.subtree second.loop :=
      forest.mem_subtree_trans hx ((forest.mem_subtree_iff _ _).mpr
        (Or.inr (beside.above_of_mem hstatement)))
    rw [above_iff_of_parent? beside.parent?_first_body] at hupper
    rcases hupper with rfl | rfl | hupper
    · -- The body of the first loop is no part of its header.
      exact absurd (ready.eq_body (contains_of_mem_children hpart) hpart
        (kind_of_childOf? beside.first_body)) hbody
    · -- Both loops are parts of the header.
      have hsame : candidate.loop = parent :=
        Option.some.inj (hparent.symm.trans beside.first_loop)
      refine ⟨second.loop, forest.mem_children (hsame ▸ beside.second_loop), ?_, hloop⟩
      intro heq
      have hkind := (ready.loop (contains_of_mem_children hpart)).2
      have hmem : candidate.body ∈ doc.childrenOf candidate.loop [.body] := by simp [hkind]
      have hbodyKind := (mem_childrenOf_iff.mp hmem).2
      rw [← heq, beside.loop_kinds.2] at hbodyKind
      cases hbodyKind
    · -- Both loops are below one part of the header.
      refine ⟨part, hpart, hbody, forest.mem_subtree_trans hloop ?_⟩
      rw [forest.mem_subtree_iff, above_iff_of_parent? beside.second_loop]
      exact Or.inr ((above_iff_of_parent? beside.first_loop).mp hupper)

theorem contains_first_body (leaf : doc.LeafPragmas) : after.contains first.body := by
  have hbody := kind_of_childOf? beside.first_body
  rcases beside.kept pruned hdoomed leaf (contains_of_parent? beside.parent?_first_body)
    (by simp [hbody]) with h | heq | heq | ⟨part, hpart, -, hmem⟩
  · exact h
  · rw [heq, beside.loop_kinds.2] at hbody
    cases hbody
  · exact absurd heq beside.body_ne
  · have hloop := above_of_parent? (beside.forest.parent?_of_mem hpart)
    rcases (beside.forest.mem_subtree_iff _ _).mp hmem with rfl | habove
    · exact absurd hloop beside.not_above_first_body
    · exact absurd (hloop.trans habove) beside.not_above_first_body

theorem children_body (leaf : doc.LeafPragmas) : after.children first.body =
    doc.children first.body ++ doc.children second.body := by
  rw [pruned.children_eq _ (beside.contains_first_body pruned hdoomed leaf),
    beside.children_merged]
  refine filter_eq_self.mpr fun x hx ↦ decide_eq_true fun hmem ↦ ?_
  have hparent := (hdoomed x hmem).1
  rcases mem_append.mp hx with hx | hx
  · exact beside.parent_ne.1
      (Option.some.inj (hparent.symm.trans (beside.forest.parent?_of_mem hx)))
  · exact beside.parent_ne.2
      (Option.some.inj (hparent.symm.trans (beside.forest.parent?_of_mem hx)))

end Doomed

end SideBySide

theorem exists_fused (forest : doc.Forest) (leaf : doc.LeafPragmas)
    (hfirst : Ready doc first) (hsecond : Ready doc second)
    (hattached : first.Attached doc) (suits : Suits doc first second)
    (marker : String) :
    ∃ performed doomed,
      Fusion.perform marker doc first.fusion second.fusion = .ok performed ∧
      Fused doc ((performed.delete first.pragma).delete second.pragma) first second ∧
      Reshaped doc ((performed.delete first.pragma).delete second.pragma)
        (doc.children second.body) first.body doomed ∧
      ∀ candidate x, Ready doc candidate →
        candidate.InHeader ((performed.delete first.pragma).delete second.pragma) x →
        candidate.InHeader doc x := by
  obtain ⟨parent, beside⟩ := suits.sideBySide forest hfirst hsecond
  obtain ⟨performed, doomed, hperform, hdeleted, ⟨hloop, hpragma, hother⟩, hdoomed⟩ :=
    beside.exists_doomed hfirst hsecond hattached suits.attached marker
  have hforest := beside.gathered.forest
  have pruned := hforest.pruned_deleteAll doomed
  rw [← hdeleted] at pruned
  have hreshaped := beside.reshaped pruned hdoomed
  refine ⟨performed, doomed, hperform, ⟨beside.children_body pruned hdoomed leaf,
    pruned.not_contains hforest hloop,
    ⟨pruned.not_contains hforest hpragma, pruned.not_contains hforest hother⟩,
    fun x hlive hkind ↦ beside.kept pruned hdoomed leaf hlive hkind,
    hreshaped.label_eq, hreshaped.parent?_eq⟩, hreshaped, fun _ _ ready h ↦
      beside.inHeader_of_inHeader pruned hdoomed ready h⟩

end Candidate

end LoopDirectives
