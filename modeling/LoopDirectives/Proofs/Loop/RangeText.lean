import LoopDirectives.Proofs.Expression.Letters
import LoopDirectives.Proofs.Sample
import LoopDirectives.Proofs.Transformation.Perform

/-!
# Equal ranges as they are printed

Loops are fused when their variables and ranges are the same, attributes aside. The text of a range
shows two of these: the names of named arguments, and which ranges are of assumed shape. Loops with
the same iteration therefore have the same text up to case where their ranges agree in these marks
(`sameLetters_of_sameIteration`); without that the texts can differ
(`not_sameLetters_of_sameIteration`).
-/

namespace LoopDirectives

open Text Expression List

namespace Loop

variable {doc : Document} {left right range : NodeId}

def content? (doc : Document) (range : NodeId) (kind : Kind) : Option NodeId :=
  (doc.childOf? range kind).bind doc.firstChild?

def rangeText? (doc : Document) (loop : NodeId) : Option String :=
  (doc.childOf? loop .indexRange).map fun range ↦ Expression.text (doc.element range)

def printedParts : List Kind := [.lowerBound, .upperBound, .step]

/-- Whether two ranges agree in the marks of what is printed: both or none is of assumed shape, and
if none is, then the expressions in their parts agree in their marks. -/
def rangesMarkedAlike (doc : Document) (left right : NodeId) : Bool :=
  doc.flag left "is_assumed_shape" == doc.flag right "is_assumed_shape" &&
    (doc.flag left "is_assumed_shape" || printedParts.all fun kind ↦
      match content? doc left kind, content? doc right kind with
      | some left, some right => (doc.element left).marksAlike (doc.element right)
      | _, _ => true)

def marksAlike (doc : Document) (left right : NodeId) : Bool :=
  match doc.childOf? left .indexRange, doc.childOf? right .indexRange with
  | some left, some right => rangesMarkedAlike doc left right
  | _, _ => true

/-- Both loops have a variable and a range. The variables have the same letters, and so have the
texts of the ranges if these agree in their marks. -/
structure PrintedAlike (doc : Document) (left right : NodeId) : Prop where
  names : ∃ name other, varName? doc left = some name ∧
    varName? doc right = some other ∧ sameLetters name other = true
  ranges : ∃ text other, rangeText? doc left = some text ∧
    rangeText? doc right = some other ∧
      (marksAlike doc left right = true → sameLetters text other = true)

/-! ### The text of a range -/

theorem kind_written (element : Element) : (written element).kind = element.kind := by
  cases element
  rfl

theorem writtenAll_eq_map (elements : List Element) :
    writtenAll elements = elements.map written := by
  induction elements with
  | nil => rfl
  | cons element rest ih => rw [writtenAll, ih, map_cons]

theorem isSome_of_sameStep (h : sameStep doc left right) :
    (doc.childOf? left .step).isSome = (doc.childOf? right .step).isSome := by
  unfold sameStep at h
  cases hleft : doc.childOf? left .step <;> cases hright : doc.childOf? right .step <;>
    simp_all [sameContent, sameOperand]

section Text

variable (forest : doc.Forest)

include forest

theorem kind_element (node : NodeId) : (doc.element node).kind = doc.kind node := by
  rw [forest.element_eq]
  rfl

theorem written_element (node : NodeId) :
    (written (doc.element node)).text =
      compose (doc.element node)
        ((doc.children node).map (written ∘ doc.element)) := by
  rw [forest.element_eq, written, writtenAll_eq_map, map_map]

theorem find?_written (node : NodeId) (kind : Kind) :
    ((doc.children node).map (written ∘ doc.element)).find?
        (fun part ↦ part.kind == kind) =
      (doc.childOf? node kind).map (written ∘ doc.element) := by
  rw [find?_map, Document.childOf?]
  congr 2
  funext child
  simp [kind_written, kind_element forest, Document.isKind]

theorem partText_written {kind : Kind} (hkind : kind ∈ printedParts) :
    partText ((doc.children range).map (written ∘ doc.element)) kind =
      ((content? doc range kind).map fun node ↦ (written (doc.element node)).text).getD
        [] := by
  rw [partText, find?_written forest, content?]
  cases hpart : doc.childOf? range kind with
  | none => rfl
  | some part =>
    have hcompose : (doc.element part).value.kind = kind :=
      (kind_element forest part).trans (Document.kind_of_childOf? hpart)
    rw [Option.map_some, Option.map_some, Option.getD_some, Function.comp_apply,
      written_element forest, compose, hcompose, Option.bind_some, Document.firstChild?]
    simp only [printedParts, mem_cons, not_mem_nil, or_false] at hkind
    rcases hkind with rfl | rfl | rfl <;> cases doc.children part <;> rfl

theorem any_written (node : NodeId) (kind : Kind) :
    (((doc.children node).map (written ∘ doc.element)).any
        fun part ↦ part.kind == kind) = (doc.childOf? node kind).isSome := by
  rw [← isSome_find?, find?_written forest, Option.isSome_map]

theorem written_range (hkind : doc.isKind range .indexRange) :
    (written (doc.element range)).text = rangeText (doc.label range)
      ((doc.children range).map (written ∘ doc.element)) := by
  have hcompose : (doc.element range).value.kind = .indexRange :=
    (kind_element forest range).trans (beq_iff_eq.mp hkind)
  have hlabel : (doc.element range).value = doc.label range := by
    rw [forest.element_eq]
    rfl
  rw [written_element forest, compose, hcompose, hlabel]

theorem lowerChars_partText_of_same {kind : Kind} (hkind : kind ∈ printedParts)
    (hsame : sameOperand doc (content? doc left kind) (content? doc right kind) =
      true)
    (hmarks : ∀ first second, content? doc left kind = some first →
      content? doc right kind = some second →
        (doc.element first).marksAlike (doc.element second)) :
    lowerChars (partText ((doc.children left).map (written ∘ doc.element)) kind) =
      lowerChars (partText ((doc.children right).map (written ∘ doc.element)) kind) := by
  rw [partText_written forest hkind, partText_written forest hkind]
  cases hleft : content? doc left kind with
  | none => simp [sameOperand, hleft] at hsame
  | some first =>
    cases hright : content? doc right kind with
    | none => simp [sameOperand, hright] at hsame
    | some second =>
      rw [hleft, hright] at hsame
      exact congrArg Written.text
        (lower_written _ _ (Element.printsAlike_iff.mpr ⟨hsame, hmarks _ _ hleft hright⟩))

theorem sameLetters_range (hsame : sameRange doc true left right)
    (hmarks : rangesMarkedAlike doc left right) :
    sameLetters (Expression.text (doc.element left))
      (Expression.text (doc.element right)) := by
  simp only [sameRange, Bool.and_eq_true] at hsame
  obtain ⟨⟨hleft, hright⟩, hparts⟩ := hsame
  simp only [rangesMarkedAlike, Bool.and_eq_true, beq_iff_eq, Document.flag] at hmarks hparts
  obtain ⟨hflag, hmarks⟩ := hmarks
  rw [sameLetters_iff, lower, lower, Expression.text, Expression.text, String.toList_ofList,
    String.toList_ofList, written_range forest hleft, written_range forest hright]
  congr 1
  rw [rangeText, rangeText, ← hflag]
  cases hassumed : (doc.label left).flag "is_assumed_shape" with
  | true => rfl
  | false =>
    simp only [hassumed, Bool.false_and, Bool.false_or, Bool.not_true, Bool.and_eq_true,
      all_eq_true] at hparts hmarks
    have hletters (kind : Kind) (hkind : kind ∈ printedParts)
        (hsame : sameOperand doc (content? doc left kind)
          (content? doc right kind)) :=
      lowerChars_partText_of_same forest hkind hsame fun first second hfirst hsecond ↦ by
        simpa [hfirst, hsecond] using hmarks kind hkind
    obtain ⟨⟨hlower, hupper⟩, hstep⟩ := hparts
    have hlower := hletters .lowerBound (by decide) hlower
    have hupper := hletters .upperBound (by decide) hupper
    rw [any_written forest, any_written forest, isSome_of_sameStep hstep]
    cases hright : doc.childOf? right .step with
    | none => simp [lowerChars_append, lowerChars_cons, hlower, hupper]
    | some step =>
      obtain ⟨other, hleft⟩ : ∃ other, doc.childOf? left .step = some other :=
        Option.isSome_iff_exists.mp ((isSome_of_sameStep hstep).trans (by rw [hright]; rfl))
      rw [sameStep, hleft, hright] at hstep
      have hstep := hletters .step (by decide) (by rwa [content?, content?, hleft, hright])
      simp [lowerChars_append, lowerChars_cons, hlower, hupper, hstep]

theorem printedAlike_of_sameIteration (h : sameIteration doc true left right) :
    PrintedAlike doc left right := by
  simp only [sameIteration, Bool.and_eq_true] at h
  obtain ⟨⟨⟨hleft, hright⟩, hvariables⟩, hranges⟩ := h
  constructor
  · rw [varName?, varName?, if_pos hleft, if_pos hright]
    cases hfirst : varNode? doc left <;> cases hsecond : varNode? doc right <;>
      simp only [hfirst, hsecond, sameOperand, Bool.false_eq_true] at hvariables
    next first second =>
    refine ⟨_, _, rfl, rfl, ?_⟩
    rw [Document.sameExpression, forest.element_eq, forest.element_eq] at hvariables
    simp only [Element.sameExpression, Tree.agree, Bool.and_eq_true] at hvariables
    exact hvariables.1.2
  · unfold rangeText? marksAlike
    split at hranges
    · next first second hfirst hsecond =>
      rw [hfirst, hsecond]
      exact ⟨_, _, rfl, rfl, sameLetters_range forest hranges⟩
    · cases hranges

end Text

/-- Loops with the same iteration have the same letters in their variables, and in the texts of
their ranges if these agree in their marks; so have any two loops that fusing takes for a pair. -/
theorem sameLetters_of_sameIteration (forest : doc.Forest) :
    (∀ left right, sameIteration doc true left right = true →
      PrintedAlike doc left right) ∧
    ∀ first second : Transformation, first.canPair doc second = true →
      ∃ one other : Fusion, first.stage.plan? = some (.fusion one) ∧
        second.stage.plan? = some (.fusion other) ∧
        PrintedAlike doc one.loop other.loop := by
  refine ⟨fun left right ↦ printedAlike_of_sameIteration forest, fun first second hpair ↦ ?_⟩
  obtain ⟨one, other, hone, hother, hcompatible⟩ := Transformation.fusions_of_canPair hpair
  rw [Fusion.compatible, Bool.and_eq_true] at hcompatible
  exact ⟨one, other, hone, hother, printedAlike_of_sameIteration forest hcompatible.2⟩

def loopPair (upper other : Element) (marks : List (String × String)) : Document :=
  let loop (upper : Element) (attributes : List (String × String)) : Element :=
    .branch "FdoStatement"
      [.var "i",
       .marked "indexRange" attributes
        [.branch "lowerBound" [.int "1"], .branch "upperBound" [upper]],
       .branch "body" []]
  (Document.ofElement (.branch "body" [loop upper [], loop other marks])).1

def namedCall (argument value : String) : Element :=
  .branch "functionCall"
    [.leaf "name" "f",
     .branch "arguments" [.marked "namedValue" [("name", argument)] [.var value]]]

def markedSection (attributes : List (String × String)) : Element :=
  .arrayRef "a"
    [.marked "indexRange" attributes
      [.branch "lowerBound" [.int "1"], .branch "upperBound" [.var "n"]]]

theorem sameLetters_of_sameIteration_namedCalls :
    rangeText? (loopPair (namedCall "lo" "K") (namedCall "LO" "k") []) ⟨1⟩ = some "1:f(lo=K)" ∧
      rangeText? (loopPair (namedCall "lo" "K") (namedCall "LO" "k") []) ⟨13⟩ =
        some "1:f(LO=k)" ∧
      PrintedAlike (loopPair (namedCall "lo" "K") (namedCall "LO" "k") []) ⟨1⟩ ⟨13⟩ :=
  ⟨by decide +kernel, by decide +kernel,
    (sameLetters_of_sameIteration (Document.forest_ofElement _)).1 _ _ (by decide +kernel)⟩

/-- Loops whose ranges are printed differently can be fused: the names of arguments do not count,
nor whether a section or one of the two ranges is of assumed shape. -/
theorem not_sameLetters_of_sameIteration :
    (Fusion.compatible (loopPair (namedCall "lo" "k") (namedCall "hi" "k") [])
        { group? := none, loop := ⟨1⟩ } { group? := none, loop := ⟨13⟩ } = true ∧
      rangeText? (loopPair (namedCall "lo" "k") (namedCall "hi" "k") []) ⟨1⟩ =
        some "1:f(lo=k)" ∧
      rangeText? (loopPair (namedCall "lo" "k") (namedCall "hi" "k") []) ⟨13⟩ =
        some "1:f(hi=k)") ∧
    (Fusion.compatible
        (loopPair (markedSection []) (markedSection [("is_assumed_shape", "true")]) [])
        { group? := none, loop := ⟨1⟩ } { group? := none, loop := ⟨16⟩ } = true ∧
      rangeText? (loopPair (markedSection []) (markedSection [("is_assumed_shape", "true")]) [])
        ⟨1⟩ = some "1:a(1:n)" ∧
      rangeText? (loopPair (markedSection []) (markedSection [("is_assumed_shape", "true")]) [])
        ⟨16⟩ = some "1:a(:)") ∧
    (Fusion.compatible
        (loopPair (markedSection []) (markedSection []) [("is_assumed_shape", "true")])
        { group? := none, loop := ⟨1⟩ } { group? := none, loop := ⟨16⟩ } = true ∧
      rangeText? (loopPair (markedSection []) (markedSection []) [("is_assumed_shape", "true")])
        ⟨1⟩ = some "1:a(1:n)" ∧
      rangeText? (loopPair (markedSection []) (markedSection []) [("is_assumed_shape", "true")])
        ⟨16⟩ = some ":") := by
  decide +kernel

end Loop

end LoopDirectives
