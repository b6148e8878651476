import LoopDirectives.Proofs.Loop.RangeText

/-!
# Laws of comparing ranges

Two expressions are the same when they have the same tags and letters at the same places
(`Element.sameExpression_iff`). Comparing loops builds on that with parts that may be missing: a
missing part is the same as nothing, a missing step the same as a missing step, and a range of
assumed shape the same as any other such range. The comparison is symmetric, reflexive on loops that
have all parts, and transitive through a loop whose range is not of assumed shape
(`sameIteration_laws`).
-/

namespace LoopDirectives

open Text

/-! ### Comparing expressions -/

namespace Tree

universe u v w

variable {α : Type u} {β : Type v} {γ : Type w} {related : α → β → Bool} {f : α → γ} {g : β → γ}

mutual

theorem agree_iff_map_eq (h : ∀ x y, related x y ↔ f x = g y) (left : Tree α)
    (right : Tree β) : left.agree related right ↔ left.map f = right.map g := by
  match left, right with
  | .node x lefts, .node y rights =>
    rw [agree, Bool.and_eq_true, h, agreeAll_iff_mapAll_eq h lefts rights, map, map, node.injEq]

theorem agreeAll_iff_mapAll_eq (h : ∀ x y, related x y ↔ f x = g y)
    (lefts : List (Tree α)) (rights : List (Tree β)) :
    agreeAll related lefts rights ↔ mapAll f lefts = mapAll g rights := by
  match lefts, rights with
  | [], [] => exact iff_of_true rfl rfl
  | [], right :: rights => simp [agreeAll, mapAll]
  | left :: lefts, [] => simp [agreeAll, mapAll]
  | left :: lefts, right :: rights =>
    rw [agreeAll, Bool.and_eq_true, agree_iff_map_eq h left right,
      agreeAll_iff_mapAll_eq h lefts rights, mapAll, mapAll, List.cons.injEq]

end

end Tree

namespace Element

def letters (element : Element) : Tree (String × String) :=
  element.map fun label ↦ (label.tag, lower label.text)

/-- Expressions are the same if their trees are, up to the case of letters. -/
theorem sameExpression_iff {left right : Element} :
    left.sameExpression right ↔ left.letters = right.letters := by
  refine Tree.agree_iff_map_eq (fun first second ↦ ?_) left right
  rw [Bool.and_eq_true, beq_iff_eq, sameLetters_iff, Prod.mk.injEq]

end Element

namespace Loop

variable {doc : Document}

/-! ### Comparing parts that may be missing -/

section Parts

variable {left? right? third? : Option NodeId} {left right third : NodeId}

theorem sameOperand_iff : sameOperand doc left? right? ↔
    ∃ left right, left? = some left ∧ right? = some right ∧
      (doc.element left).letters = (doc.element right).letters := by
  cases left? <;> cases right? <;>
    simp [sameOperand, Document.sameExpression, Element.sameExpression_iff]

theorem sameOperand_comm (left? right? : Option NodeId) :
    sameOperand doc left? right? = sameOperand doc right? left? := by
  rw [Bool.eq_iff_iff, sameOperand_iff, sameOperand_iff]
  constructor
  · rintro ⟨left, right, hleft, hright, hsame⟩
    exact ⟨right, left, hright, hleft, hsame.symm⟩
  · rintro ⟨right, left, hright, hleft, hsame⟩
    exact ⟨left, right, hleft, hright, hsame.symm⟩

theorem sameOperand_trans (hfirst : sameOperand doc left? right?)
    (hsecond : sameOperand doc right? third?) :
    sameOperand doc left? third? := by
  obtain ⟨left, right, hleft, hright, hsame⟩ := sameOperand_iff.mp hfirst
  obtain ⟨middle, third, hmiddle, hthird, hothers⟩ := sameOperand_iff.mp hsecond
  obtain rfl : right = middle := Option.some.inj (hright.symm.trans hmiddle)
  exact sameOperand_iff.mpr ⟨left, third, hleft, hthird, hsame.trans hothers⟩

theorem sameOperand_self_iff : sameOperand doc left? left? ↔ left?.isSome := by
  cases left? <;> simp [sameOperand, Document.sameExpression, Element.sameExpression_iff]

theorem sameStep_comm (left right : NodeId) :
    sameStep doc left right = sameStep doc right left := by
  unfold sameStep
  cases doc.childOf? left .step <;> cases doc.childOf? right .step <;>
    simp only [sameContent, sameOperand_comm]

theorem sameStep_trans (hleft : sameStep doc left right)
    (hright : sameStep doc right third) : sameStep doc left third := by
  have hfirst := isSome_of_sameStep hleft
  have hlast := isSome_of_sameStep hright
  unfold sameStep at *
  cases hl : doc.childOf? left .step <;> cases hr : doc.childOf? right .step <;>
    cases ht : doc.childOf? third .step <;> simp_all only [Option.isSome, reduceCtorEq]
  exact sameOperand_trans hleft hright

theorem sameStep_self
    (h : ∀ step, doc.childOf? left .step = some step →
      (doc.firstChild? step).isSome) : sameStep doc left left := by
  unfold sameStep
  cases hstep : doc.childOf? left .step with
  | none => rfl
  | some step => exact sameOperand_self_iff.mpr (h step hstep)

end Parts

/-! ### Comparing ranges -/

section Ranges

variable {withLower : Bool} {left right third range : NodeId}

def assumed (doc : Document) (range : NodeId) : Bool :=
  doc.flag range "is_assumed_shape"

/-- Two ranges have the same upper bounds and steps, and the same lower bounds if these count. -/
structure SameParts (doc : Document) (withLower : Bool) (left right : NodeId) : Prop where
  lower : withLower = true → sameBound doc .lowerBound left right = true
  upper : sameBound doc .upperBound left right = true
  step : sameStep doc left right = true

theorem sameRange_iff : sameRange doc withLower left right ↔
    doc.isKind left .indexRange ∧ doc.isKind right .indexRange ∧
      ((assumed doc left ∧ assumed doc right) ∨
        SameParts doc withLower left right) := by
  have hparts : ((!withLower || sameBound doc .lowerBound left right) ∧
      sameBound doc .upperBound left right) ∧
        sameStep doc left right ↔ SameParts doc withLower left right := by
    rw [Bool.or_eq_true, Bool.not_eq_true', ← Bool.not_eq_true, ← imp_iff_not_or]
    exact ⟨fun h ↦ ⟨h.1.1, h.1.2, h.2⟩, fun h ↦ ⟨⟨h.lower, h.upper⟩, h.step⟩⟩
  simp only [sameRange, Bool.and_eq_true, Bool.or_eq_true, and_assoc, assumed, ← hparts]

theorem SameParts.symm (h : SameParts doc withLower left right) :
    SameParts doc withLower right left where
  lower hlower := (sameOperand_comm _ _).trans (h.lower hlower)
  upper := (sameOperand_comm _ _).trans h.upper
  step := (sameStep_comm _ _).trans h.step

theorem SameParts.trans (hleft : SameParts doc withLower left right)
    (hright : SameParts doc withLower right third) :
    SameParts doc withLower left third where
  lower hlower := sameOperand_trans (hleft.lower hlower) (hright.lower hlower)
  upper := sameOperand_trans hleft.upper hright.upper
  step := sameStep_trans hleft.step hright.step

theorem sameRange_symm (h : sameRange doc withLower left right) :
    sameRange doc withLower right left := by
  obtain ⟨hleft, hright, hparts⟩ := sameRange_iff.mp h
  exact sameRange_iff.mpr ⟨hright, hleft, hparts.imp And.symm SameParts.symm⟩

/-- Ranges that are the same as a range that is not of assumed shape have its parts, and so are the
same as each other. -/
theorem sameRange_trans (hassumed : assumed doc right = false)
    (hleft : sameRange doc withLower left right)
    (hright : sameRange doc withLower right third) :
    sameRange doc withLower left third := by
  obtain ⟨hfirst, -, hparts⟩ := sameRange_iff.mp hleft
  obtain ⟨-, hthird, hothers⟩ := sameRange_iff.mp hright
  rw [hassumed] at hparts hothers
  have hparts := hparts.resolve_left fun h ↦ Bool.false_ne_true h.2
  have hothers := hothers.resolve_left fun h ↦ Bool.false_ne_true h.1
  exact sameRange_iff.mpr ⟨hfirst, hthird, .inr (hparts.trans hothers)⟩

/-- A range without a part that is missing or empty: it is of assumed shape, or there is something
in both of its bounds and in its step if it has one. -/
def CompleteRange (doc : Document) (range : NodeId) : Prop :=
  assumed doc range = true ∨
    (content? doc range .lowerBound).isSome = true ∧
      (content? doc range .upperBound).isSome = true ∧
      ∀ step, doc.childOf? range .step = some step →
        (doc.firstChild? step).isSome = true

theorem sameRange_self (hkind : doc.isKind range .indexRange)
    (hcomplete : CompleteRange doc range) :
    sameRange doc withLower range range := by
  refine sameRange_iff.mpr ⟨hkind, hkind, hcomplete.imp (fun h ↦ ⟨h, h⟩) ?_⟩
  rintro ⟨hlower, hupper, hstep⟩
  exact ⟨fun _ ↦ sameOperand_self_iff.mpr hlower, sameOperand_self_iff.mpr hupper,
    sameStep_self hstep⟩

theorem sameRange_of_withLower (h : sameRange doc true left right) :
    sameRange doc withLower left right := by
  obtain ⟨hleft, hright, hparts⟩ := sameRange_iff.mp h
  refine sameRange_iff.mpr ⟨hleft, hright, hparts.imp_right fun hparts ↦ ?_⟩
  exact ⟨fun _ ↦ hparts.lower rfl, hparts.upper, hparts.step⟩

end Ranges

/-! ### Comparing loops -/

section Loops

variable {withLower : Bool} {left right third loop : NodeId}

theorem sameIteration_iff : sameIteration doc withLower left right ↔
    doc.isKind left .doLoop ∧ doc.isKind right .doLoop ∧
      sameOperand doc (varNode? doc left) (varNode? doc right) ∧
      ∃ range other, doc.childOf? left .indexRange = some range ∧
        doc.childOf? right .indexRange = some other ∧
        sameRange doc withLower range other := by
  unfold sameIteration
  cases doc.childOf? left .indexRange <;> cases doc.childOf? right .indexRange <;>
    simp [and_assoc]

theorem sameIteration_symm (h : sameIteration doc withLower left right) :
    sameIteration doc withLower right left := by
  obtain ⟨hleft, hright, hvar, range, other, hrange, hother, hsame⟩ := sameIteration_iff.mp h
  exact sameIteration_iff.mpr ⟨hright, hleft, (sameOperand_comm _ _).trans hvar, other, range,
    hother, hrange, sameRange_symm hsame⟩

theorem sameIteration_trans
    (hassumed : ∀ range, doc.childOf? right .indexRange = some range →
      assumed doc range = false)
    (hfirst : sameIteration doc withLower left right)
    (hsecond : sameIteration doc withLower right third) :
    sameIteration doc withLower left third := by
  obtain ⟨hleft, -, hvar, range, middle, hrange, hmiddle, hsame⟩ := sameIteration_iff.mp hfirst
  obtain ⟨-, hthird, hvars, found, last, hfound, hlast, hothers⟩ := sameIteration_iff.mp hsecond
  obtain rfl : middle = found := Option.some.inj (hmiddle.symm.trans hfound)
  exact sameIteration_iff.mpr ⟨hleft, hthird, sameOperand_trans hvar hvars, range, last, hrange,
    hlast, sameRange_trans (hassumed middle hmiddle) hsame hothers⟩

theorem sameIteration_self {range : NodeId} (hkind : doc.isKind loop .doLoop)
    (hvar : (varNode? doc loop).isSome)
    (hrange : doc.childOf? loop .indexRange = some range)
    (hcomplete : CompleteRange doc range) :
    sameIteration doc withLower loop loop :=
  sameIteration_iff.mpr ⟨hkind, hkind, sameOperand_self_iff.mpr hvar, range, range, hrange, hrange,
    sameRange_self (beq_iff_eq.mpr (Document.kind_of_childOf? hrange)) hcomplete⟩

/-- The laws of comparing loops, with or without regard to their lower bounds. The comparison is
symmetric on all nodes and transitive through every loop whose range is not of assumed shape. Every
loop with a variable and a complete range is the same as itself. Loops that are the same with regard
to their lower bounds are so without. -/
theorem sameIteration_laws (doc : Document) (withLower : Bool) :
    (∀ left right, sameIteration doc withLower left right =
      sameIteration doc withLower right left) ∧
    (∀ left right third,
      (∀ range, doc.childOf? right .indexRange = some range →
        assumed doc range = false) →
      sameIteration doc withLower left right = true →
      sameIteration doc withLower right third = true →
      sameIteration doc withLower left third = true) ∧
    (∀ loop range, doc.isKind loop .doLoop = true →
      (varNode? doc loop).isSome = true →
      doc.childOf? loop .indexRange = some range → CompleteRange doc range →
      sameIteration doc withLower loop loop = true) ∧
    ∀ left right, sameIteration doc true left right = true →
      sameIteration doc withLower left right = true := by
  refine ⟨fun left right ↦ ?_, fun left right third ↦ sameIteration_trans,
    fun loop range ↦ sameIteration_self, fun left right h ↦ ?_⟩
  · rw [Bool.eq_iff_iff]
    exact ⟨sameIteration_symm, sameIteration_symm⟩
  · obtain ⟨hleft, hright, hvar, range, other, hrange, hother, hsame⟩ := sameIteration_iff.mp h
    exact sameIteration_iff.mpr ⟨hleft, hright, hvar, range, other, hrange, hother,
      sameRange_of_withLower hsame⟩

def loopsOver (ranges : List (List (String × String) × List Element)) : Document :=
  let loop (range : List (String × String) × List Element) : Element :=
    .branch "FdoStatement" [.var "i", .marked "indexRange" range.1 range.2]
  (Document.ofElement (.branch "body" (ranges.map loop))).1

def boundsTo (name : String) : List Element :=
  [.branch "lowerBound" [.int "1"], .branch "upperBound" [.var name], .branch "step" [.int "2"]]

theorem sameIteration_laws_steppedLoops :
    sameIteration (loopsOver [([], boundsTo "n"), ([], boundsTo "N")]) true ⟨1⟩ ⟨10⟩ = true ∧
    sameIteration (loopsOver [([], boundsTo "n"), ([], boundsTo "N")]) true ⟨10⟩ ⟨1⟩ = true ∧
    sameIteration (loopsOver [([], boundsTo "n"), ([], boundsTo "N")]) true ⟨1⟩ ⟨1⟩ = true ∧
    sameIteration (loopsOver [([], boundsTo "n"), ([], boundsTo "N")]) true ⟨10⟩ ⟨10⟩ = true ∧
    sameIteration (loopsOver [([], boundsTo "n"), ([], boundsTo "N")]) false ⟨1⟩ ⟨10⟩ = true := by
  obtain ⟨hsymm, htrans, hself, -⟩ :=
    sameIteration_laws (loopsOver [([], boundsTo "n"), ([], boundsTo "N")]) true
  obtain ⟨-, -, -, hweaken⟩ :=
    sameIteration_laws (loopsOver [([], boundsTo "n"), ([], boundsTo "N")]) false
  have hsame : sameIteration (loopsOver [([], boundsTo "n"), ([], boundsTo "N")]) true ⟨1⟩ ⟨10⟩ =
      true := by decide +kernel
  have hback := (hsymm ⟨10⟩ ⟨1⟩).trans hsame
  refine ⟨hsame, hback, htrans ⟨1⟩ ⟨10⟩ ⟨1⟩ ?_ hsame hback,
    hself ⟨10⟩ ⟨12⟩ (by decide +kernel) (by decide +kernel) (by decide +kernel) (.inr ?_),
    hweaken ⟨1⟩ ⟨10⟩ hsame⟩
  · intro range hrange
    obtain rfl : ⟨12⟩ = range := Option.some.inj ((by decide +kernel : _ = _).trans hrange)
    decide +kernel
  · refine ⟨by decide +kernel, by decide +kernel, fun step hstep ↦ ?_⟩
    obtain rfl : ⟨17⟩ = step := Option.some.inj ((by decide +kernel : _ = _).trans hstep)
    decide +kernel

/-- Through a range of assumed shape the comparison is not transitive. -/
example :
    let doc := loopsOver
      [([], boundsTo "n"), ([("is_assumed_shape", "true")], boundsTo "n"),
        ([("is_assumed_shape", "true")], [])]
    sameIteration doc true ⟨1⟩ ⟨10⟩ ∧ sameIteration doc true ⟨10⟩ ⟨19⟩ ∧
      sameIteration doc true ⟨1⟩ ⟨19⟩ = false := by
  decide +kernel

end Loops

end Loop

end LoopDirectives
