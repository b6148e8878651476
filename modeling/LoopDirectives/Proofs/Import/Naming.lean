import LoopDirectives.Proofs.Import.InPlace
import LoopDirectives.Transformation.BoundsImport

/-!
# The name of a source unit

The name under which a module was asked for shows in the messages about it and nowhere else: what is
imported from a unit, and whether it can be imported, is the same under every name
(`alike_importBound`, `performFrom_congr`).
-/

namespace LoopDirectives

section Results

variable {Cause First Last : Type}

theorem toOption_bind (first : Except Cause First) (next : First → Except Cause Last) :
    (first >>= next).toOption = first.toOption.bind fun value ↦ (next value).toOption := by
  cases first <;> rfl

theorem cases_of_toOption_eq {one other : Except Cause First} (h : one.toOption = other.toOption) :
    (∃ value, one = .ok value ∧ other = .ok value) ∨
      ∃ cause otherCause, one = .error cause ∧ other = .error otherCause := by
  cases one with
  | error cause =>
    cases other with
    | error otherCause => exact .inr ⟨cause, otherCause, rfl, rfl⟩
    | ok value => cases h
  | ok value =>
    cases other with
    | error otherCause => cases h
    | ok otherValue =>
      cases h
      exact .inl ⟨value, rfl, rfl⟩

end Results

/-- The unit in another role, that is, under another name. -/
def SourceUnit.as (unit : SourceUnit) (role : UnitRole) : SourceUnit :=
  { unit with role }

variable (source : SourceUnit) (role : UnitRole)

namespace Import

/-! ### The checks -/

theorem toOption_checkTypeFrom (bound : Nat) (visited : List String) (type? : Option String) :
    (checkTypeFrom (source.as role) bound visited type?).toOption =
      (checkTypeFrom source bound visited type?).toOption := by
  induction bound generalizing visited type? with
  | zero => rfl
  | succ bound ih =>
    cases type? with
    | none => rfl
    | some id =>
      have hlink : link? (source.as role) id = link? source id := rfl
      rw [checkTypeFrom, checkTypeFrom, hlink]
      split
      · rfl
      · split
        · rfl
        · exact ih ..

theorem toOption_checkOperand (node : NodeId) :
    (checkOperand (source.as role) node).toOption = (checkOperand source node).toOption := by
  have hsymbol : symbolOf? (source.as role) node = symbolOf? source node := rfl
  have hdocument : (source.as role).document = source.document := rfl
  rw [checkOperand, checkOperand, hsymbol, hdocument]
  split
  · rw [toOption_bind, toOption_bind]
    simp only [checkType, toOption_checkTypeFrom]
    rfl
  · rfl

theorem toOption_checkOperands (nodes : List NodeId) :
    (checkOperands (source.as role) nodes).toOption = (checkOperands source nodes).toOption := by
  induction nodes with
  | nil => rfl
  | cons node rest ih =>
    rw [checkOperands, checkOperands, toOption_bind, toOption_bind, toOption_checkOperand, ih]

/-! ### The changes -/

namespace InPlace

/-- Both actions return the same and leave the unit in the same state, but for why they fail. -/
def Alike {α : Type} (one other : InPlace α) : Prop :=
  ∀ unit, (∃ value after, one unit = .ok value after ∧ other unit = .ok value after) ∨
    ∃ cause otherCause after, one unit = .error cause after ∧ other unit = .error otherCause after

variable {α β : Type}

theorem Alike.refl (action : InPlace α) : Alike action action := by
  intro unit
  cases action unit with
  | ok value after => exact .inl ⟨value, after, rfl, rfl⟩
  | error cause after => exact .inr ⟨cause, cause, after, rfl, rfl⟩

theorem Alike.bind {one other : InPlace α} {next otherNext : α → InPlace β}
    (first : Alike one other) (rest : ∀ value, Alike (next value) (otherNext value)) :
    Alike (one >>= next) (other >>= otherNext) := by
  intro unit
  rw [bind_eq, bind_eq]
  rcases first unit with ⟨value, middle, hone, hother⟩ | ⟨cause, otherCause, after, hone, hother⟩
  · rw [hone, hother]
    exact rest value middle
  · rw [hone, hother]
    exact .inr ⟨cause, otherCause, after, rfl, rfl⟩

theorem alike_check {one other : Except TransformError α} (h : one.toOption = other.toOption) :
    Alike (check one) (check other) := by
  intro unit
  rcases cases_of_toOption_eq h with ⟨value, rfl, rfl⟩ | ⟨cause, otherCause, rfl, rfl⟩
  · exact .inl ⟨value, unit, rfl, rfl⟩
  · exact .inr ⟨cause, otherCause, unit, rfl, rfl⟩

end InPlace

open InPlace

theorem alike_importLink (link : TypeLink) (reference? : Option String) :
    Alike (importLinkInPlace (source.as role) link reference?)
      (importLinkInPlace source link reference?) := by
  intro target
  rw [importLinkInPlace_eq, importLinkInPlace_eq]
  by_cases hnode : source.document.contains link.node
  · exact .inl ⟨_, _, if_pos hnode, if_pos hnode⟩
  · exact .inr ⟨_, _, target, if_neg hnode, if_neg hnode⟩

theorem alike_importTypeGuarded (bound : Nat) (inProgress : List String) (id : String) :
    Alike (importTypeGuarded (source.as role) bound inProgress id)
      (importTypeGuarded source bound inProgress id) := by
  induction bound generalizing inProgress id with
  | zero => exact .refl _
  | succ bound ih =>
    have hlink : link? (source.as role) id = link? source id := rfl
    rw [importTypeGuarded, importTypeGuarded, hlink]
    split
    · exact .refl _
    · split
      · exact fun target ↦ .inr ⟨_, _, target, rfl, rfl⟩
      · exact alike_importLink source role _ none
      · exact (ih _ _).bind fun imported ↦ alike_importLink source role _ (some imported)

theorem alike_importType? (type? : Option String) :
    Alike (importType?InPlace (source.as role) type?) (importType?InPlace source type?) := by
  cases type? with
  | none => exact .refl _
  | some id => exact (alike_importTypeGuarded source role _ [] id).bind fun _ ↦ .refl _

theorem alike_importSymbolOf (node : NodeId) :
    Alike (importSymbolOfInPlace (source.as role) node) (importSymbolOfInPlace source node) := by
  have hsymbol : symbolOf? (source.as role) node = symbolOf? source node := rfl
  rw [importSymbolOfInPlace, importSymbolOfInPlace, hsymbol]
  split
  · exact .refl _
  · refine (Alike.refl _).bind fun target ↦ ?_
    split
    · exact .refl _
    · exact (alike_importType? source role _).bind fun _ ↦ .refl _

theorem alike_importOperand (node : NodeId) :
    Alike (importOperandInPlace (source.as role) node) (importOperandInPlace source node) :=
  (alike_check (toOption_checkOperand source role node)).bind fun _ ↦
    (alike_importType? source role _).bind fun _ ↦
      (alike_importSymbolOf source role node).bind fun _ ↦ .refl _

theorem alike_importOperands (nodes : List NodeId) :
    Alike (importOperandsInPlace (source.as role) nodes) (importOperandsInPlace source nodes) := by
  induction nodes with
  | nil => exact .refl _
  | cons node rest ih =>
    exact (alike_importOperand source role node).bind fun _ ↦ ih.bind fun _ ↦ .refl _

/-- The name of the source unit makes no difference to the import. -/
theorem alike_importBound (bound : NodeId) :
    Alike (importBoundInPlace (source.as role) bound) (importBoundInPlace source bound) :=
  (Alike.refl _).bind fun shape ↦
    (alike_check (toOption_checkOperands source role shape.operands)).bind fun _ ↦
      (alike_importOperands source role shape.operands).bind fun _ ↦ .refl _

end Import

theorem BoundsImport.performFrom_as (plan : BoundsImport) (program : SourceUnit) :
    (plan.performFrom (source.as role) program).state = (plan.performFrom source program).state ∧
      (plan.performFrom (source.as role) program).isOk =
        (plan.performFrom source program).isOk := by
  have hbounds : plan.declaredBounds (source.as role) = plan.declaredBounds source := rfl
  rw [performFrom, performFrom, hbounds]
  split
  · exact ⟨rfl, rfl⟩
  · next lower upper _ =>
    rcases Import.alike_importBound source role lower program with
      ⟨copy, withLower, hone, hother⟩ | ⟨_, _, _, hone, hother⟩
    · rw [hone, hother]
      rcases Import.alike_importBound source role upper withLower with
        ⟨_, _, hone, hother⟩ | ⟨_, _, _, hone, hother⟩
      · simp only [hone, hother, and_self]
      · simp only [hone, hother]
        exact ⟨trivial, rfl⟩
    · rw [hone, hother]
      exact ⟨rfl, rfl⟩

/-- Units that differ in their names only give the same result, but for the text of an error. -/
theorem BoundsImport.performFrom_congr {one other : SourceUnit} {role : UnitRole}
    (h : one.as role = other.as role) (plan : BoundsImport) (program : SourceUnit) :
    (plan.performFrom one program).state = (plan.performFrom other program).state ∧
      (plan.performFrom one program).isOk = (plan.performFrom other program).isOk := by
  have hone := plan.performFrom_as one role program
  have hother := plan.performFrom_as other role program
  rw [h] at hone
  exact ⟨hone.1.symm.trans hother.1, hone.2.symm.trans hother.2⟩

end LoopDirectives
