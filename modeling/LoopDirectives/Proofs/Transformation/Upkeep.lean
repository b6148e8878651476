import LoopDirectives.Proofs.Document.Policy
import LoopDirectives.Proofs.Transformation.Perform

/-!
# Transformations keep to a policy

What a transformation copies within a program is part of the header of a loop or a variable, and
there all labels are good. What it copies from another unit is allowed if everything in that unit
is. So a tidy document stays tidy when a plan is performed: each kind of transformation has its own
lemma, such as `Interchange.careful_perform` and `BoundsImport.tends_performFrom`.
-/

namespace LoopDirectives

open Document List

variable {policy : Policy} {origin doc after : Document}

/-! ### Loops -/

namespace Loop

open Policy

variable {loop left right : NodeId}

theorem careful_copyOf (tidy : policy.Tidy origin doc) {node : NodeId}
    (sound : policy.Sound doc node) :
    policy.Careful origin doc (copyOf doc node).1 ∧
      ∀ copy, (copyOf doc node).2 = some copy →
        policy.Sound (copyOf doc node).1 copy := by
  cases hlive : doc.contains node with
  | false =>
    rw [copyOf_of_stale hlive]
    exact ⟨tidy.refl, fun copy hcopy ↦ by cases hcopy⟩
  | true =>
    have helement := tidy.every_element sound hlive
    rw [copyOf_of_contains tidy.forest hlive]
    refine ⟨careful_plant tidy helement, fun copy hcopy ↦ ?_⟩
    cases hcopy
    exact sound_of_new tidy helement (Nat.le_refl _)

theorem careful_exchange (tidy : policy.Tidy origin doc)
    (hleft : policy.Sound doc left) (hright : policy.Sound doc right) :
    policy.Careful origin doc (exchange doc left right) := by
  obtain ⟨hfirst, hleftCopy⟩ := careful_copyOf tidy hleft
  obtain ⟨hsecond, hrightCopy⟩ := careful_copyOf hfirst.tidy (hfirst.sound right hright)
  have hboth := hfirst.trans hsecond
  unfold exchange
  dsimp only
  split
  · next leftCopy rightCopy hleftEq hrightEq =>
    have hplacedLeft := hboth.tidy.careful_insertBeside right 1
      (hsecond.sound leftCopy (hleftCopy leftCopy hleftEq))
    have hplacedRight := hplacedLeft.tidy.careful_insertBeside left 1
      (hplacedLeft.sound rightCopy (hrightCopy rightCopy hrightEq))
    have hdeletedLeft := hplacedRight.tidy.careful_delete left
    exact hboth.trans (hplacedLeft.trans (hplacedRight.trans (hdeletedLeft.trans
      (hdeletedLeft.tidy.careful_delete right))))
  · exact hboth

theorem Parts.sound {header : Header} (parts : Parts doc loop header)
    (tidy : policy.Tidy origin doc) :
    (∀ node ∈ header.nodes, policy.Sound doc node) ∧ policy.Roomy doc header.range := by
  have hpart {id node : NodeId} {kind : Kind} (h : doc.childOf? id kind = some node)
      (hkind : kind ∈ headerKinds) : policy.Sound doc node :=
    tidy.header node (kind_of_childOf? h ▸ hkind)
  obtain ⟨lowerBound, hlowerBound, hlower⟩ := parts.lower
  obtain ⟨upperBound, hupperBound, hupper⟩ := parts.upper
  refine ⟨fun node hnode ↦ ?_, tidy.roomy_of_mem_children (mem_children_of_childOf? hlowerBound)⟩
  simp only [Header.nodes, cons_append, nil_append, mem_cons,
    Option.mem_toList] at hnode
  rcases hnode with rfl | rfl | rfl | hstep
  · exact hpart parts.varNode (by decide)
  · exact (hpart hlowerBound (by decide)).of_mem_children tidy.forest
      (mem_children_of_firstChild? hlower)
  · exact (hpart hupperBound (by decide)).of_mem_children tidy.forest
      (mem_children_of_firstChild? hupper)
  · exact hpart (parts.step?.trans hstep) (by decide)

theorem careful_exchangeAll (tidy : policy.Tidy origin doc) {pairs : List (NodeId × NodeId)}
    (hpairs : ∀ pair ∈ pairs, policy.Sound doc pair.1 ∧ policy.Sound doc pair.2) :
    policy.Careful origin doc (exchangeAll doc pairs) := by
  refine List.foldlRecOn pairs _ tidy.refl fun later hcareful pair hpair ↦ ?_
  obtain ⟨hleft, hright⟩ := hpairs pair hpair
  exact hcareful.trans (careful_exchange hcareful.tidy (hcareful.sound _ hleft)
    (hcareful.sound _ hright))

theorem careful_exchangeHeaders (tidy : policy.Tidy origin doc)
    (h : exchangeHeaders doc left right = .ok after) :
    policy.Careful origin doc after := by
  obtain ⟨first, second, hfirst, hsecond, h⟩ := exchangeHeaders_eq_ok h
  obtain ⟨hfirst, hfirstRange⟩ := hfirst.sound tidy
  obtain ⟨hsecond, hsecondRange⟩ := hsecond.sound tidy
  have hall : policy.Careful origin doc
      (exchangeAll doc (first.nodes.zip second.nodes)) := by
    refine careful_exchangeAll tidy fun pair hpair ↦ ?_
    obtain ⟨hleft, hright⟩ := of_mem_zip hpair
    exact ⟨hfirst _ hleft, hsecond _ hright⟩
  rcases h with rfl | ⟨range, hrange, step, hstep, rfl⟩
  · exact hall
  · refine hall.trans (hall.tidy.careful_append (hall.roomy _ ?_) (hall.sound _ ?_))
    · rcases mem_pair.mp hrange with rfl | rfl
      · exact hfirstRange
      · exact hsecondRange
    · exact (mem_append.mp hstep).elim (hfirst _) (hsecond _)

end Loop

/-! ### Interchange, demotion, removal and rotation -/

/-- An interchange keeps to a policy. -/
theorem Interchange.careful_perform (tidy : policy.Tidy origin doc)
    (interchange : Interchange) :
    policy.Careful origin doc (interchange.perform doc).state :=
  perform_induction (policy.Careful origin doc) tidy.refl fun hcareful _ _ _ h ↦
    hcareful.trans (Loop.careful_exchangeHeaders hcareful.tidy h)

namespace Demotion

theorem careful_toScalar? (tidy : policy.Tidy origin doc) {reference scalar : NodeId}
    (h : Reference.toScalar? doc reference = some (after, scalar)) :
    policy.Careful origin doc after := by
  obtain ⟨var, hvar, h⟩ := Option.bind_eq_some_iff.mp h
  obtain ⟨⟨copied, copy⟩, hcopy, h⟩ := Option.bind_eq_some_iff.mp h
  cases h
  rw [tidy.forest.copy?_eq] at hcopy
  rw [Reference.varOf?, path?_pair] at hvar
  obtain ⟨holder, -, hvar⟩ := Option.bind_eq_some_iff.mp hvar
  have hsound : policy.Sound doc var :=
    tidy.header var (kind_of_childOf? hvar ▸ (by decide))
  obtain ⟨hcopied, hscalar⟩ := tidy.careful_copyFrom? hcopy
    (tidy.every_element hsound (copyFrom?_eq_some hcopy).1)
  have hplaced := hcopied.tidy.careful_insertBeside reference 1 hscalar
  exact hcopied.trans (hplaced.trans (hplaced.tidy.careful_delete reference))

/-- A demotion keeps to a policy. -/
theorem careful_perform (tidy : policy.Tidy origin doc) (demotion : Demotion)
    (pragma : NodeId) :
    policy.Careful origin doc (demotion.perform doc pragma).state := by
  refine perform_induction (policy.Careful origin doc) tidy.refl
    (fun hcareful _ h ↦ hcareful.trans (careful_toScalar? hcareful.tidy h))
    (fun hcareful _ h ↦ ?_) fun hcareful ↦ hcareful.trans (hcareful.tidy.careful_delete _)
  obtain ⟨_, -, h⟩ := exists_of_bind_eq_ok h
  cases h
  exact hcareful.trans (hcareful.tidy.careful_deleteAll _)

end Demotion

/-- A removal keeps to a policy. -/
theorem Removal.careful_perform (tidy : policy.Tidy origin doc) (removal : Removal)
    (pragma : NodeId) :
    policy.Careful origin doc (removal.perform doc pragma) := by
  cases removal with
  | region closing =>
    have hbetween := tidy.careful_deleteAll (Siblings.between doc pragma closing)
    exact hbetween.trans (hbetween.tidy.careful_delete closing)
  | single statement => exact tidy.careful_delete statement

theorem Rotation.upholds_perform (tidy : policy.Tidy origin doc) {rotation : Rotation}
    (h : rotation.perform doc = .ok after) : policy.Upholds origin doc after := by
  unfold perform at h
  split at h
  · cases h
  · next first hfirst =>
    cases h
    have hmem := Loop.mem_children_of_firstChild? hfirst
    refine tidy.upholds_append (tidy.roomy_of_mem_children hmem) fun upper hupper hkind ↦ ?_
    exact (tidy.header upper hkind).mono tidy.forest (tidy.forest.mem_subtree_trans
      (tidy.forest.mem_subtree_of_mem_children hmem) hupper)

/-! ### Fusion -/

theorem Pragma.careful_cleanAround (tidy : policy.Tidy origin doc) (marker : String)
    (loop : NodeId) (words : List String) :
    policy.Careful origin doc (Pragma.cleanAround doc marker loop words words) := by
  obtain ⟨doomed, hclean, -⟩ := Pragma.cleanAround_eq_deleteAll tidy.forest marker loop words words
  rw [hclean]
  exact tidy.careful_deleteAll doomed

namespace Fusion

variable {first second : Fusion}

theorem upholds_merged (tidy : policy.Tidy origin doc) {parent body extra : NodeId}
    (hkind : doc.kind first.loop = .doLoop)
    (hfirst : doc.parent? first.loop = some parent)
    (hsecond : doc.parent? second.loop = some parent)
    (hbody : doc.childOf? first.loop .body = some body)
    (hextra : doc.childOf? second.loop .body = some extra) :
    policy.Upholds origin doc (merged doc body extra) := by
  have forest := tidy.forest
  have hlive := forest.contains_child (mem_children_of_childOf? hbody)
  have hroomy := tidy.roomy_of_body hlive (kind_of_childOf? hbody)
  by_cases hheader : ∃ upper, body ∈ doc.subtree upper ∧ doc.kind upper ∈ headerKinds
  · obtain ⟨upper, hupper, hupperKind⟩ := hheader
    -- Neither the body nor its loop is of such a kind, so the node is above both loops.
    have hparent : parent ∈ doc.subtree upper := by
      rcases (forest.mem_subtree_of_parent? (forest.parent?_of_childOf? hbody)).mp hupper with
        rfl | hupper
      · rw [kind_of_childOf? hbody] at hupperKind
        exact absurd hupperKind (by decide)
      · rcases (forest.mem_subtree_of_parent? hfirst).mp hupper with rfl | hupper
        · rw [hkind] at hupperKind
          exact absurd hupperKind (by decide)
        · exact hupper
    have hloop : second.loop ∈ doc.subtree upper :=
      (forest.mem_subtree_of_parent? hsecond).mpr (Or.inr hparent)
    have hsound := ((tidy.header upper hupperKind).mono forest hloop).of_mem_children forest
      (mem_children_of_childOf? hextra)
    exact (tidy.careful_appendAll hroomy fun statement hstatement ↦
      hsound.of_mem_children forest hstatement).toUpholds
  · refine tidy.upholds_appendAll hroomy (fun upper hupper hupperKind ↦ ?_) _
    exact hheader ⟨upper, hupper, hupperKind⟩

theorem upholds_perform (tidy : policy.Tidy origin doc) {marker : String}
    (hcompatible : compatible doc first second)
    (h : perform marker doc first second = .ok after) :
    policy.Upholds origin doc after := by
  obtain ⟨-, parent, hfirst, hsecond⟩ := parent?_of_compatible hcompatible
  obtain ⟨body, extra, hbody, hextra, rfl⟩ := perform_eq_ok h
  have hkind : doc.kind first.loop = .doLoop := by
    simp only [compatible, Loop.sameIteration, Bool.and_eq_true] at hcompatible
    simpa [isKind] using hcompatible.2.1.1.1
  have hmerged := upholds_merged tidy hkind hfirst hsecond hbody hextra
  have hcleaned := Pragma.careful_cleanAround hmerged.tidy marker second.loop loopWords
  exact hmerged.trans (hcleaned.trans (hcleaned.tidy.careful_delete second.loop)).toUpholds

end Fusion

/-! ### Imports -/

def Policy.Supplies (policy : Policy) (source : Document) : Prop :=
  ∀ x, source.contains x = true → (source.element x).Every policy.Allows

theorem Policy.supplies_of_holds {source : Document} (forest : source.Forest)
    (h : ∀ x, source.contains x → source.Holds policy.Allows x) :
    policy.Supplies source := by
  intro x hx
  exact forest.every_element_iff.mpr fun y hy ↦ h y (forest.contains_of_mem_subtree hx hy)

namespace Import

variable {source target before middle last : SourceUnit}

/-- The document of the unit is tidy, and its tables are roomy. -/
structure Tended (policy : Policy) (origin : Document) (unit : SourceUnit) : Prop where
  tidy : policy.Tidy origin unit.document
  tables : ∀ table ∈ unit.tableNodes, policy.Roomy unit.document table

/-- The second unit is reached from the first by careful edits, with its root and its tables where
they were. -/
structure Tends (policy : Policy) (origin : Document) (before after : SourceUnit) : Prop where
  same : SourceUnit.SamePlaces before after
  careful : policy.Careful origin before.document after.document

theorem Tends.trans (first : Tends policy origin before middle)
    (second : Tends policy origin middle last) : Tends policy origin before last :=
  ⟨first.same.trans second.same, first.careful.trans second.careful⟩

theorem Tends.tended {last : SourceUnit} (tends : Tends policy origin before last)
    (tended : Tended policy origin before) : Tended policy origin last := by
  refine ⟨tends.careful.tidy, fun table htable ↦ ?_⟩
  rw [tends.same.tableNodes_eq] at htable
  exact tends.careful.roomy table (tended.tables table htable)

namespace Tended

theorem refl (tended : Tended policy origin target) : Tends policy origin target target :=
  ⟨.refl target, tended.tidy.refl⟩

end Tended

theorem careful_of_copied (tidy : policy.Tidy origin doc) {source : Document} {copy : NodeId}
    (supplies : policy.Supplies source) (copied : Copied source doc after copy) :
    policy.Careful origin doc after ∧ policy.Sound after copy := by
  obtain ⟨rfl, id, node, hlive, hnode, hretypes⟩ := copied
  have hallowed := supplies id hlive
  suffices h : policy.Careful origin doc after ∧
      ∀ x : NodeId, doc.slots.size ≤ x.index → policy.Sound after x from
    ⟨h.1, h.2 _ (Nat.le_refl _)⟩
  induction hretypes with
  | refl =>
    exact ⟨Policy.careful_plant tidy hallowed, fun _ ↦ Policy.sound_of_new tidy hallowed⟩
  | tail _ step ih =>
    obtain ⟨name, value, hname, rfl⟩ := step
    have hretyped := ih.1.tidy.careful_setAttribute hname value (ih.2 node hnode)
    exact ⟨ih.1.trans hretyped, fun y hy ↦ hretyped.sound y (ih.2 y hy)⟩

section Declare

variable {node copy : NodeId} {last : SourceUnit} (tended : Tended policy origin target)
  (supplies : policy.Supplies source.document)

include tended supplies

theorem tends_declares (declares : Declares source target last) :
    Tends policy origin target last := by
  rcases declares.cases tended.tidy.forest with rfl | ⟨typed, copy, hcopied, entered⟩
  · exact tended.refl
  · obtain ⟨hcareful, hcopy⟩ := careful_of_copied tended.tidy supplies hcopied
    refine ⟨entered.same, ?_⟩
    rcases entered.document with heq | heq | ⟨table, htable, heq⟩
    · rwa [heq]
    · rw [heq]
      exact hcareful.trans (hcareful.tidy.careful_delete copy)
    · rw [heq]
      exact hcareful.trans (hcareful.tidy.careful_append
        (hcareful.roomy table (tended.tables table htable)) hcopy)

theorem tends_fetches {copies : List NodeId} (fetches : Fetches source target last copies) :
    Tends policy origin target last ∧ ∀ copy ∈ copies, policy.Sound last.document copy := by
  induction fetches with
  | nothing => exact ⟨tended.refl, forall_mem_nil _⟩
  | declares first _ ih =>
    have hfirst := tends_declares tended supplies first
    exact (ih (hfirst.tended tended)).imp_left hfirst.trans
  | @copies before _ doc copy _ first _ ih =>
    obtain ⟨hcareful, hcopy⟩ := careful_of_copied tended.tidy supplies first
    have hfirst : Tends policy origin before { before with document := doc } :=
      ⟨⟨rfl, rfl, rfl, rfl, rfl⟩, hcareful⟩
    obtain ⟨hmore, hothers⟩ := ih (hfirst.tended tended)
    exact ⟨hfirst.trans hmore,
      forall_mem_cons.mpr ⟨hmore.careful.sound copy hcopy, hothers⟩⟩

end Declare

theorem careful_assemble (tidy : policy.Tidy origin doc) {kind : Kind}
    (hkind : kind = .lowerBound ∨ kind = .upperBound) (shape : BoundShape)
    {operands : List NodeId} (hoperands : ∀ operand ∈ operands, policy.Sound doc operand) :
    policy.Careful origin doc (assemble doc kind shape operands).1 ∧
      policy.Sound (assemble doc kind shape operands).1 doc.fresh := by
  have hmem : kind ∈ [Kind.lowerBound, .upperBound, .binary .plus] := by
    rcases hkind with rfl | rfl <;> decide
  have hsum : Kind.binary .plus ∈ [Kind.lowerBound, .upperBound, .binary .plus] := by decide
  have hallowed : (shape.frame kind).Every policy.Allows :=
    shape.every_frame (fun _ ↦ ⟨policy.good_new _ hmem, fun _ ↦ policy.roomy_new _ hmem⟩)
      fun _ ↦ ⟨policy.good_new _ hsum, fun _ ↦ policy.roomy_new _ hsum⟩
  have hroomy : (shape.frame kind).Every fun label _ ↦ policy.roomy label :=
    shape.every_frame (fun _ ↦ policy.roomy_new _ hmem) fun _ ↦ policy.roomy_new _ hsum
  obtain ⟨hnew, hlt⟩ := shape.holder_new doc kind
  have hplanted := Policy.careful_plant tidy hallowed
  have hfilled := hplanted.tidy.careful_appendAll
    ⟨hlt, fun hlive ↦ tidy.forest.holds_plant hroomy hnew hlive⟩
    fun operand hoperand ↦ hplanted.sound operand (hoperands operand hoperand)
  rw [assemble_eq]
  exact ⟨hplanted.trans hfilled,
    hfilled.sound _ (Policy.sound_of_new tidy hallowed (Nat.le_refl _))⟩

theorem tends_importBound (tended : Tended policy origin target)
    (supplies : policy.Supplies source.document) {bound copy : NodeId}
    (h : importBoundInPlace source bound target = .ok copy last) :
    Tends policy origin target last ∧ policy.Sound last.document copy := by
  obtain ⟨shape, imported, operands, hshape, himported, rfl, rfl⟩ := importBoundInPlace_eq_ok h
  obtain ⟨htends, hoperands⟩ := tends_fetches tended supplies (fetches_importOperands himported)
  have hkind : source.document.kind bound = .lowerBound ∨
      source.document.kind bound = .upperBound := by
    unfold shapeOf at hshape
    split at hshape
    · next hbound => simpa [isBound, isKind] using hbound
    · cases hshape
  obtain ⟨hassembled, hcopy⟩ := careful_assemble htends.careful.tidy hkind shape hoperands
  exact ⟨htends.trans ⟨⟨rfl, rfl, rfl, rfl, rfl⟩, hassembled⟩, hcopy⟩

end Import

namespace BoundsImport

open Import

variable {program unit : SourceUnit}

/-- Bounds from a unit that is as the policy asks keep to it. -/
theorem tends_performFrom (tended : Tended policy origin program)
    (supplies : policy.Supplies unit.document) (plan : BoundsImport) :
    Tends policy origin program (plan.performFrom unit program).state := by
  unfold performFrom
  split
  · exact tended.refl
  · split
    · next hlower =>
      obtain ⟨_, hfetches⟩ := reaches_of_importBound_error hlower
      exact (tends_fetches tended supplies hfetches).1
    · next lower withLower hlower =>
      obtain ⟨hfirst, hlowerSound⟩ := tends_importBound tended supplies hlower
      have htended := hfirst.tended tended
      split
      · next hupper =>
        obtain ⟨_, hfetches⟩ := reaches_of_importBound_error hupper
        have hsecond := (tends_fetches htended supplies hfetches).1
        exact (hfirst.trans hsecond).trans
          ⟨⟨rfl, rfl, rfl, rfl, rfl⟩, (hsecond.tended htended).tidy.careful_delete lower⟩
      · next upper withBoth hupper =>
        obtain ⟨hsecond, hupperSound⟩ := tends_importBound htended supplies hupper
        refine Outcome.state_ofExcept (Tends policy origin program) (hfirst.trans hsecond)
          fun after hafter ↦ ?_
        obtain ⟨oldLower, oldUpper, -, -, rfl⟩ := replaceBounds_eq_ok hafter
        have hreplaced := hsecond.careful.tidy.careful_replace oldLower
          (hsecond.careful.sound lower hlowerSound)
        exact hfirst.trans (hsecond.trans ⟨⟨rfl, rfl, rfl, rfl, rfl⟩,
          hreplaced.trans (hreplaced.tidy.careful_replace oldUpper
            (hreplaced.sound upper hupperSound))⟩)

end BoundsImport

end LoopDirectives
