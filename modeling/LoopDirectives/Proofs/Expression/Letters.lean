import Mathlib.Data.List.Forall2
import LoopDirectives.Expression
import LoopDirectives.Loop.Range
import LoopDirectives.Proofs.Document.Forest

/-!
# Equal expressions as they are printed

Comparing two expressions looks at tags, texts and shape, printing one also at two attributes: the
name of a named argument, and the mark of a range of assumed shape. Equal expressions that agree in
these at every place (`Element.marksAlike`) are printed alike but for the case of letters
(`Expression.lower_written`). The proof goes through the printer one kind of element at a time.
-/

namespace LoopDirectives

open Text List

variable {left right : Label}

namespace Text

theorem lowerChars_append (first second : List Char) :
    lowerChars (first ++ second) = lowerChars first ++ lowerChars second :=
  map_append

theorem lowerChars_cons (c : Char) (rest : List Char) :
    lowerChars (c :: rest) = c.toLower :: lowerChars rest :=
  map_cons

end Text

/-! ### Trees that agree -/

namespace Tree

universe u v

variable {α : Type u} {β : Type v}

theorem agreeAll_iff_forall₂ (related : α → β → Bool) (lefts : List (Tree α))
    (rights : List (Tree β)) : agreeAll related lefts rights ↔
      List.Forall₂ (fun left right ↦ agree related left right) lefts rights := by
  induction lefts generalizing rights with
  | nil => cases rights <;> simp [agreeAll]
  | cons left lefts ih => cases rights <;> simp [agreeAll, ih]

mutual

theorem agree_and (first second : α → β → Bool) (left : Tree α) (right : Tree β) :
    left.agree (fun x y ↦ first x y && second x y) right =
      (left.agree first right && left.agree second right) := by
  match left, right with
  | .node x lefts, .node y rights =>
    simp only [agree, agreeAll_and first second lefts rights]
    ac_rfl

theorem agreeAll_and (first second : α → β → Bool) (lefts : List (Tree α))
    (rights : List (Tree β)) :
    agreeAll (fun x y ↦ first x y && second x y) lefts rights =
      (agreeAll first lefts rights && agreeAll second lefts rights) := by
  match lefts, rights with
  | [], [] => rfl
  | [], _ :: _ => rfl
  | _ :: _, [] => rfl
  | left :: lefts, right :: rights =>
    simp only [agreeAll, agree_and first second left right, agreeAll_and first second lefts rights]
    ac_rfl

end

end Tree

/-! ### Marks -/

/-- Whether two labels agree in the attribute that is printed for their kind, if there is one. -/
def Label.marksAlike (left right : Label) : Bool :=
  match left.kind with
  | .namedArgument =>
    sameLetters ((left.attribute? "name").getD "") ((right.attribute? "name").getD "")
  | .indexRange => left.flag "is_assumed_shape" == right.flag "is_assumed_shape"
  | _ => true

/-- Whether two labels agree in their tag, in the letters of their text, and in their marks. -/
def Label.printsAlike (left right : Label) : Bool :=
  (left.tag == right.tag && sameLetters left.text right.text) && left.marksAlike right

theorem Label.kind_eq_of_printsAlike (h : left.printsAlike right) :
    left.kind = right.kind := by
  simp only [printsAlike, Bool.and_eq_true, beq_iff_eq] at h
  rw [kind, kind, h.1.1]

theorem Label.text_of_printsAlike (h : left.printsAlike right) :
    lowerChars left.text.toList = lowerChars right.text.toList := by
  simp only [printsAlike, Bool.and_eq_true, sameLetters_iff] at h
  exact String.ofList_injective h.1.2

namespace Element

def marksAlike (left right : Element) : Bool :=
  left.agree Label.marksAlike right

/-- Two elements agree, at every place, in all that printing takes from there. -/
def PrintsAlike (left right : Element) : Prop :=
  left.agree Label.printsAlike right = true

theorem printsAlike_iff {left right : Element} :
    left.PrintsAlike right ↔ left.sameExpression right = true ∧ left.marksAlike right = true := by
  rw [← Bool.and_eq_true]
  exact iff_of_eq (congrArg (· = true) (Tree.agree_and _ _ left right))

variable {left right : Element}

section

variable (h : left.PrintsAlike right)

include h

theorem PrintsAlike.label : left.value.printsAlike right.value := by
  cases left; cases right
  exact (Bool.and_eq_true_iff.mp h).1

theorem PrintsAlike.branches : List.Forall₂ PrintsAlike left.branches right.branches := by
  cases left; cases right
  exact (Tree.agreeAll_iff_forall₂ _ _ _).mp (Bool.and_eq_true_iff.mp h).2

theorem PrintsAlike.rel_childOf? (kind : Kind) :
    Option.Rel PrintsAlike (left.childOf? kind) (right.childOf? kind) := by
  rw [childOf?, childOf?]
  have hbranches := h.branches
  generalize left.branches = lefts, right.branches = rights at hbranches ⊢
  induction hbranches with
  | nil => exact .none
  | cons hfirst _ ih =>
    rw [find?_cons, find?_cons, ← Label.kind_eq_of_printsAlike hfirst.label]
    split
    · exact .some hfirst
    · exact ih

theorem PrintsAlike.rel_path? (kinds : List Kind) :
    Option.Rel PrintsAlike (left.path? kinds) (right.path? kinds) := by
  induction kinds generalizing left right with
  | nil => exact .some h
  | cons kind kinds ih =>
    rw [path?, path?, foldlM_cons, foldlM_cons]
    have hchild := h.rel_childOf? kind
    generalize left.childOf? kind = left?, right.childOf? kind = right? at hchild
    cases hchild with
    | none => exact .none
    | some hchild => exact ih hchild

end

theorem lowerChars_text_of_rel {left? right? : Option Element}
    (h : Option.Rel PrintsAlike left? right?) :
    lowerChars ((left?.map text).getD "").toList =
      lowerChars ((right?.map text).getD "").toList := by
  cases h with
  | none => rfl
  | some h => exact Label.text_of_printsAlike h.label

end Element

/-! ### Printing -/

namespace Expression

variable {left right : Label}

def Written.lower (part : Written) : Written :=
  { part with text := lowerChars part.text, below := part.below.map lowerChars }

section Lower

variable (parts : List Written)

theorem lowerChars_operandText (operand? : Option Written) (operator : Kind) (right : Bool) :
    lowerChars (operandText operand? operator right) =
      operandText (operand?.map Written.lower) operator right := by
  cases operand? with
  | none => rfl
  | some operand =>
    simp only [operandText, Option.map_some, Written.lower]
    split
    · simp [lowerChars]
    · rfl

theorem lowerChars_commaList (texts : List (List Char)) :
    lowerChars (commaList texts) = commaList (texts.map lowerChars) := by
  match texts with
  | [] => rfl
  | [text] => simp [commaList]
  | first :: second :: rest =>
    have ih := lowerChars_commaList (second :: rest)
    simp only [commaList, map_cons, intersperse_cons_cons, flatten_cons,
      lowerChars_append] at ih ⊢
    rw [ih]
    rfl

theorem lowerChars_applied (name : List Char) (texts : List (List Char)) :
    lowerChars (applied name texts) = applied (lowerChars name) (texts.map lowerChars) := by
  rw [applied, applied, lowerChars_append, lowerChars_append, lowerChars_cons,
    lowerChars_commaList]
  rfl

theorem find?_lower (kind : Kind) :
    (parts.map Written.lower).find? (fun part ↦ part.kind == kind) =
      (parts.find? fun part ↦ part.kind == kind).map Written.lower :=
  find?_map ..

theorem lowerChars_partText (kind : Kind) :
    lowerChars (partText parts kind) = partText (parts.map Written.lower) kind := by
  rw [partText, partText, find?_lower]
  cases parts.find? fun part ↦ part.kind == kind <;> rfl

theorem lowerChars_rangeText (label : Label) :
    lowerChars (rangeText label parts) = rangeText label (parts.map Written.lower) := by
  have hany : ((parts.map Written.lower).any fun part ↦ part.kind == .step) =
      parts.any fun part ↦ part.kind == .step := any_map
  rw [rangeText, rangeText, hany]
  split
  · rfl
  · split <;>
      simp only [lowerChars_append, lowerChars_cons, lowerChars_partText] <;> rfl

theorem map_lowerChars_text :
    (parts.map Written.text).map lowerChars = (parts.map Written.lower).map Written.text := by
  rw [map_map, map_map]
  rfl

theorem lowerChars_text_head? : lowerChars ((parts.head?.map Written.text).getD []) =
    ((parts.map Written.lower).head?.map Written.text).getD [] := by
  cases parts <;> rfl

theorem map_lowerChars_below (kind : Kind) :
    (((parts.find? fun part ↦ part.kind == kind).map Written.below).getD []).map lowerChars =
      (((parts.map Written.lower).find? fun part ↦ part.kind == kind).map Written.below).getD
        [] := by
  rw [find?_lower]
  cases parts.find? fun part ↦ part.kind == kind <;> rfl

end Lower

theorem lowerChars_name_of_marksAlike (hkind : left.kind = .namedArgument)
    (h : left.marksAlike right) :
    lowerChars ((left.attribute? "name").getD "").toList =
      lowerChars ((right.attribute? "name").getD "").toList := by
  rw [Label.marksAlike, hkind] at h
  exact String.ofList_injective (sameLetters_iff.mp h)

theorem flag_of_marksAlike (hkind : left.kind = .indexRange) (h : left.marksAlike right) :
    left.flag "is_assumed_shape" = right.flag "is_assumed_shape" := by
  rw [Label.marksAlike, hkind] at h
  exact beq_iff_eq.mp h

/-- Elements that print alike have the same letters if the elements below them have: whatever the
printer takes from the element itself is the same there. -/
theorem lowerChars_compose {left right : Element} (h : left.PrintsAlike right)
    {parts others : List Written}
    (hparts : parts.map Written.lower = others.map Written.lower) :
    lowerChars (compose left parts) = lowerChars (compose right others) := by
  have hmarks : left.value.marksAlike right.value := (Bool.and_eq_true_iff.mp h.label).2
  have hfirst : lowerChars ((parts.head?.map Written.text).getD []) =
      lowerChars ((others.head?.map Written.text).getD []) := by
    rw [lowerChars_text_head?, lowerChars_text_head?, hparts]
  have hdrop : (parts.drop 1).map Written.lower = (others.drop 1).map Written.lower := by
    rw [map_drop, map_drop, hparts]
  rw [compose, compose, ← Label.kind_eq_of_printsAlike h.label]
  cases hkind : left.value.kind <;> dsimp only
  case arrayReference =>
    rw [lowerChars_applied, lowerChars_applied, Element.lowerChars_text_of_rel (h.rel_path? _),
      map_lowerChars_text, map_lowerChars_text, hdrop]
  case variableReference | arrayIndex | lowerBound | upperBound | step => exact hfirst
  case indexRange =>
    rw [lowerChars_rangeText, lowerChars_rangeText, hparts, rangeText, rangeText,
      flag_of_marksAlike hkind hmarks]
  case negation | complement =>
    simp only [lowerChars_append, lowerChars_cons, lowerChars_operandText, ← head?_map,
      hparts]
  case call =>
    rw [lowerChars_applied, lowerChars_applied,
      Element.lowerChars_text_of_rel (h.rel_childOf? _), map_lowerChars_below,
      map_lowerChars_below, hparts]
  case namedArgument =>
    rw [lowerChars_append, lowerChars_append, lowerChars_cons, lowerChars_cons, hfirst,
      lowerChars_name_of_marksAlike hkind hmarks]
  case binary operator =>
    simp only [lowerChars_append, lowerChars_cons, lowerChars_operandText, ← getElem?_map,
      hparts]
  all_goals exact Label.text_of_printsAlike h.label

mutual

/-- Elements that print alike up to the case of letters are written alike in lower case. -/
theorem lower_written (left right : Element) (h : left.PrintsAlike right) :
    (written left).lower = (written right).lower := by
  match left, right with
  | .node label branches, .node other others =>
    have hparts := map_lower_writtenAll branches others h.branches
    have hbelow := congrArg (List.map Written.text) hparts
    rw [← map_lowerChars_text, ← map_lowerChars_text] at hbelow
    simp only [written, Written.lower, Written.mk.injEq]
    exact ⟨Label.kind_eq_of_printsAlike h.label, lowerChars_compose h hparts, hbelow⟩

theorem map_lower_writtenAll (lefts rights : List Element)
    (h : List.Forall₂ Element.PrintsAlike lefts rights) :
    (writtenAll lefts).map Written.lower = (writtenAll rights).map Written.lower := by
  match lefts, rights with
  | [], [] => rfl
  | left :: lefts, right :: rights =>
    obtain ⟨hfirst, hrest⟩ := forall₂_cons.mp h
    rw [writtenAll, writtenAll, map_cons, map_cons, lower_written left right hfirst,
      map_lower_writtenAll lefts rights hrest]

end

end Expression

end LoopDirectives
