import LoopDirectives.Proofs.Document.Grafting
import LoopDirectives.Proofs.Sample

/-!
# References

A reference is replaced by a copy of its variable (`Reference.substituted_toScalar?`). An index has
an offset when it holds the variable itself, the variable minus a constant or the variable plus a
constant. The operands are looked for by their kinds, so a constant minus a variable passes for the
variable minus the constant: what is found is right just where the operands are in order
(`Reference.arraysAtOffsets_sound_iff`).
-/

namespace LoopDirectives

open List

/-- The value of a sum or difference of variables and integer constants, given the values of the
variables. -/
def Element.value? (values : String → Int) : Element → Option Int
  | .node label branches =>
    match label.kind, branches with
    | .var, _ => some (values label.text)
    | .constant .integer, _ => some (Nat.ofDigitChars 10 label.text.toList 0)
    | .binary .plus, [left, right] =>
      (value? values left).bind fun first => (value? values right).map (first + ·)
    | .binary .minus, [left, right] =>
      (value? values left).bind fun first => (value? values right).map (first - ·)
    | _, _ => none

namespace Reference

open Document

variable {doc after : Document} {reference parent var index expression left right : NodeId}
  {offset : Int} {offsets : List Int}

/-! ### The variable of a reference -/

theorem mem_children_of_varOf? (h : varOf? doc reference = some var) :
    ∃ part ∈ doc.children reference, var ∈ doc.children part ∧
      doc.kind var = .var := by
  rw [varOf?, path?_pair] at h
  obtain ⟨part, hpart, hvar⟩ := Option.bind_eq_some_iff.mp h
  exact ⟨part, mem_children_of_childOf? hpart, mem_children_of_childOf? hvar,
    kind_of_childOf? hvar⟩

theorem varOf?_of_stale (h : doc.contains reference = false) :
    varOf? doc reference = none := by
  by_contra hsome
  obtain ⟨var, hvar⟩ := Option.ne_none_iff_exists'.mp hsome
  obtain ⟨part, hpart, -⟩ := mem_children_of_varOf? hvar
  simp [contains_of_mem_children hpart] at h

section

variable (forest : doc.Forest) (hvar : varOf? doc reference = some var)

include forest hvar

theorem mem_subtree_of_varOf? :
    doc.contains var ∧ var ∈ doc.subtree reference := by
  obtain ⟨part, hpart, hchild, -⟩ := mem_children_of_varOf? hvar
  exact ⟨forest.contains_child hchild, forest.mem_subtree_trans
    (forest.mem_subtree_of_mem_children hchild) (forest.mem_subtree_of_mem_children hpart)⟩

/-- Assumes: a reference that hangs below a node. Its variable takes its place. -/
theorem substituted_toScalar? (hparent : doc.parent? reference = some parent) :
    ∃ after, toScalar? doc reference = some (after, doc.fresh) ∧
      Substituted doc after [(reference, var)] (putFor reference doc.fresh) := by
  have planted := forest.planted_plant (doc.element var)
  have place := (planted.placed_nil forest).insertAfter forest hparent (by simp)
    (mem_singleton_self _) (by simp)
  obtain ⟨hlive, -⟩ := mem_subtree_of_varOf? forest hvar
  refine ⟨((doc.plant none (doc.element var)).1.insertAfter reference
    doc.fresh).delete reference, ?_, place.recast forest (by simp [putFor]),
    fun x hx ↦ (place.contains_iff forest hx).mp, ?_⟩
  · simp [toScalar?, hvar, forest.copy?_eq, copyFrom?_eq_plant, hlive, snd_plant]
  · intro pair hpair
    cases mem_singleton.mp hpair
    exact (place.element_rename forest (hung_singleton hparent) (by simp)).trans
      (by simpa [putFor] using forest.element_plant _)

theorem varOf?_of_recast {parts : List NodeId} {rename : NodeId → NodeId}
    (recast : Recast doc after parts rename) (hlive : doc.contains reference)
    (hapart : ∀ part ∈ parts, doc.Apart reference part) :
    varOf? after reference = some var := by
  rw [← hvar, varOf?, varOf?, path?_pair, path?_pair,
    recast.childOf?_of_apart forest hlive hapart (forest.self_mem_subtree _)]
  refine Option.bind_congr fun part hpart ↦ ?_
  exact recast.childOf?_of_apart forest hlive hapart
    (forest.mem_subtree_of_mem_children (mem_children_of_childOf? hpart)) _

end

/-! ### Indices at an offset -/

/-- The index holds one expression, whose value is that of a variable less the offset. -/
def Denotes (doc : Document) (index : NodeId) (offset : Int) : Prop :=
  ∃ expression name, doc.children index = [expression] ∧
    ∀ values, (doc.element expression).value? values = some (values name - offset)

/-- The index holds one expression, which is a variable or has two operands; a difference begins
with its variable. -/
def Proper (doc : Document) (index : NodeId) : Prop :=
  ∃ expression, doc.children index = [expression] ∧
    (doc.kind expression = .var ∨ ∃ left right, doc.children expression = [left, right] ∧
      (doc.kind expression = .binary .minus → doc.kind left = .var))

/-- The index is literally a variable, a variable minus a constant or a variable plus a constant, as
the offset has it. -/
def Literal (doc : Document) (index : NodeId) (offset : Int) : Prop :=
  if offset = 0 then ∃ var, doc.children index = [var] ∧ doc.kind var = .var
  else ∃ expression var constant, doc.children index = [expression] ∧
    doc.kind expression = .binary (if 0 < offset then .minus else .plus) ∧
    doc.children expression = [var, constant] ∧ doc.kind var = .var ∧
    doc.kind constant = .constant .integer ∧ doc.text constant = toString offset.natAbs

theorem hasOffset_of_literal (h : Literal doc index offset) :
    hasOffset doc index offset := by
  unfold Literal at h
  unfold hasOffset
  split at h
  · obtain ⟨var, hchildren, hkind⟩ := h
    simp [childOf?, isKind, *]
  · obtain ⟨expression, var, constant, hchildren, hkind, hoperands, hvar, hconstant, htext⟩ := h
    simp [childOf?, isKind, *]

/-- An index with an offset that holds one expression holds a variable, or one with an operator
whose operands are a variable and a constant, if there are two. -/
theorem hasOffset_cases (h : hasOffset doc index offset)
    (hindex : doc.children index = [expression]) :
    offset = 0 ∧ doc.kind expression = .var ∨
      offset ≠ 0 ∧ doc.kind expression = .binary (if 0 < offset then .minus else .plus) ∧
      ∀ left right, doc.children expression = [left, right] →
        ∃ var constant, (left = var ∧ right = constant ∨ left = constant ∧ right = var) ∧
          doc.kind var = .var ∧ doc.kind constant = .constant .integer ∧
          doc.text constant = toString offset.natAbs := by
  unfold hasOffset at h
  split at h
  · next hzero =>
    obtain ⟨var, hvar⟩ := Option.isSome_iff_exists.mp h
    have hmem := mem_children_of_childOf? hvar
    rw [hindex, mem_singleton] at hmem
    exact Or.inl ⟨hzero, hmem ▸ kind_of_childOf? hvar⟩
  · next hzero =>
    obtain ⟨found, hfound, h⟩ := (Option.any_eq_true _ _).mp h
    have hmem := mem_children_of_childOf? hfound
    rw [hindex, mem_singleton] at hmem
    subst hmem
    obtain ⟨hvar, h⟩ := Bool.and_eq_true_iff.mp h
    obtain ⟨var, hvar⟩ := Option.isSome_iff_exists.mp hvar
    obtain ⟨constant, hconstant, htext⟩ := (Option.any_eq_true _ _).mp h
    have hkinds := kind_of_childOf? hvar
    have hkindc := kind_of_childOf? hconstant
    refine Or.inr ⟨hzero, kind_of_childOf? hfound, fun left right hoperands ↦
      ⟨var, constant, ?_, hkinds, hkindc, beq_iff_eq.mp htext⟩⟩
    have hvarMem := mem_children_of_childOf? hvar
    have hconstantMem := mem_children_of_childOf? hconstant
    rw [hoperands, mem_pair] at hvarMem hconstantMem
    have hne : var ≠ constant := by
      rintro rfl
      simp [hkinds] at hkindc
    rcases hvarMem with rfl | rfl <;> rcases hconstantMem with rfl | rfl <;> simp_all

section

variable (forest : doc.Forest) {x : NodeId} (values : String → Int)

include forest

theorem value?_of_var (h : doc.kind x = .var) :
    (doc.element x).value? values = some (values (doc.text x)) := by
  change (doc.label x).kind = _ at h
  rw [forest.element_eq]
  simp [Element.value?, h, text]

theorem value?_of_constant (h : doc.kind x = .constant .integer)
    (htext : doc.text x = toString offset.natAbs) :
    (doc.element x).value? values = some (offset.natAbs : Int) := by
  change (doc.label x).kind = _ at h
  change (doc.label x).text = _ at htext
  rw [forest.element_eq]
  simp [Element.value?, h, htext, Nat.ofDigitChars_ten_toDigits]

theorem value?_of_operator {positive : Prop} [Decidable positive]
    (h : doc.kind x = .binary (if positive then .minus else .plus)) {value : Int} :
    (doc.element x).value? values = some value ↔
      ∃ left right first second, doc.children x = [left, right] ∧
        (doc.element left).value? values = some first ∧
        (doc.element right).value? values = some second ∧
        (if positive then first - second else first + second) = value := by
  change (doc.label x).kind = _ at h
  rw [forest.element_eq]
  match hchildren : doc.children x with
  | [] | [_] | _ :: _ :: _ :: _ => split at h <;> simp [Element.value?, h]
  | [left, right] =>
    split at h <;> simp [Element.value?, Option.bind_eq_some_iff, *]

end

/-- Where an index has an offset, it holds the value of a variable less the offset just in case its
operands are in order. -/
theorem denotes_iff_proper (forest : doc.Forest)
    (h : hasOffset doc index offset) :
    Denotes doc index offset ↔ Proper doc index := by
  constructor
  · rintro ⟨expression, name, hindex, hvalue⟩
    refine ⟨expression, hindex, ?_⟩
    rcases hasOffset_cases h hindex with ⟨-, hvar⟩ | ⟨hzero, hkind, hoperands⟩
    · exact Or.inl hvar
    obtain ⟨left, right, first, second, hchildren, hfirst, hsecond, heq⟩ :=
      (value?_of_operator forest (fun _ ↦ 0) hkind).mp (hvalue fun _ ↦ 0)
    refine Or.inr ⟨left, right, hchildren, fun hminus ↦ ?_⟩
    obtain ⟨var, constant, ⟨rfl, rfl⟩ | ⟨rfl, rfl⟩, hvar, hconstant, htext⟩ :=
      hoperands left right hchildren
    · exact hvar
    · -- Where all variables are zero, the constant less the variable is the offset itself.
      rw [value?_of_constant forest _ hconstant htext] at hfirst
      rw [value?_of_var forest _ hvar] at hsecond
      cases hfirst
      cases hsecond
      rw [hminus] at hkind
      grind
  · rintro ⟨expression, hindex, horder⟩
    rcases hasOffset_cases h hindex with ⟨rfl, hvar⟩ | ⟨hzero, hkind, hoperands⟩
    · exact ⟨expression, doc.text expression, hindex, fun values ↦ by
        rw [value?_of_var forest values hvar, Int.sub_zero]⟩
    rcases horder with hvar | ⟨left, right, hchildren, hminus⟩
    · simp [hvar] at hkind
    obtain ⟨var, constant, horder, hvar, hconstant, htext⟩ := hoperands left right hchildren
    refine ⟨expression, doc.text var, hindex, fun values ↦ ?_⟩
    have hfirst := value?_of_var forest values hvar
    have hsecond := value?_of_constant forest values hconstant htext
    rw [value?_of_operator forest values hkind]
    rcases horder with ⟨rfl, rfl⟩ | ⟨rfl, rfl⟩
    · refine ⟨_, _, _, _, hchildren, hfirst, hsecond, ?_⟩
      split <;> omega
    · refine ⟨_, _, _, _, hchildren, hsecond, hfirst, ?_⟩
      split
      · next hpositive =>
        rw [if_pos hpositive] at hkind
        rw [hminus hkind] at hconstant
        cases hconstant
      · omega

/-- The reference has an index for every offset of the list, and the condition holds of the two. -/
def AtEach (doc : Document) (reference : NodeId) (offsets : List Int)
    (condition : NodeId → Int → Prop) : Prop :=
  ∀ (position : Nat) (offset : Int), offsets[position]? = some offset → ∃ index,
    (doc.childrenOf reference [.arrayIndex])[position]? = some index ∧ condition index offset

theorem AtEach.imp {condition other : NodeId → Int → Prop}
    (h : AtEach doc reference offsets condition)
    (himp : ∀ {index offset}, condition index offset → other index offset) :
    AtEach doc reference offsets other := fun position offset hoffset ↦
  (h position offset hoffset).imp fun _ ↦ And.imp_right himp

theorem mem_arraysAtOffsets_iff {array : String} {node : NodeId} :
    reference ∈ arraysAtOffsets doc array offsets node ↔
      reference ∈ arraysBelow doc array node ∧
        AtEach doc reference offsets (hasOffset doc · ·) := by
  rw [arraysAtOffsets, mem_filter, Bool.and_eq_true, decide_eq_true_eq, all_eq_true]
  refine and_congr_right fun _ ↦ ⟨fun ⟨hlength, hall⟩ position offset hoffset ↦ ?_, fun h ↦ ?_⟩
  · have hlt := Nat.lt_of_lt_of_le (List.getElem?_eq_some_iff.mp hoffset).1 hlength
    exact ⟨_, getElem?_eq_getElem hlt, hall (_, offset) (mem_of_getElem?
      (getElem?_zip_eq_some.mpr ⟨getElem?_eq_getElem hlt, hoffset⟩))⟩
  · refine ⟨Nat.not_lt.mp fun hlt ↦ ?_, fun pair hpair ↦ ?_⟩
    · obtain ⟨index, hindex, -⟩ := h _ _ (getElem?_eq_getElem hlt)
      simp at hindex
    · obtain ⟨position, hposition⟩ := getElem?_of_mem hpair
      obtain ⟨hindex, hoffset⟩ := getElem?_zip_eq_some.mp hposition
      obtain ⟨index, hfound, hhas⟩ := h position _ hoffset
      cases hfound.symm.trans hindex
      exact hhas

/-- The value of an index that is found is that of a variable less the offset just in case it holds
one expression whose operands are in order: a constant less a variable is found too. All references
that literally have the offsets are found. -/
theorem arraysAtOffsets_sound_iff (forest : doc.Forest) (array : String) (offsets : List Int)
    (node : NodeId) :
    (∀ reference ∈ arraysAtOffsets doc array offsets node,
      AtEach doc reference offsets fun index offset ↦
        (Denotes doc index offset ↔ Proper doc index)) ∧
    ∀ reference ∈ arraysBelow doc array node,
      AtEach doc reference offsets (Literal doc) →
        reference ∈ arraysAtOffsets doc array offsets node :=
  ⟨fun _ hreference ↦ (mem_arraysAtOffsets_iff.mp hreference).2.imp (denotes_iff_proper forest),
    fun _ hreference hliteral ↦ mem_arraysAtOffsets_iff.mpr
      ⟨hreference, hliteral.imp hasOffset_of_literal⟩⟩

def reversedOffset : Document :=
  (ofElement (.branch "body" [.arrayRef "a"
    [.branch "arrayIndex" [.branch "minusExpr" [.int "3", .var "i"]]]])).1

/-- The reference is found at the offset `3`, though its index is no variable less `3`. -/
theorem arraysAtOffsets_sound_iff_reversedOffset :
    ⟨1⟩ ∈ arraysAtOffsets reversedOffset "a" [3] ⟨0⟩ ∧ ¬ Denotes reversedOffset ⟨4⟩ 3 := by
  have hfound : ⟨1⟩ ∈ arraysAtOffsets reversedOffset "a" [3] ⟨0⟩ := by decide +kernel
  obtain ⟨hsound, -⟩ :=
    arraysAtOffsets_sound_iff (forest_ofElement _ : reversedOffset.Forest) "a" [3] ⟨0⟩
  obtain ⟨index, hindex, hiff⟩ := hsound ⟨1⟩ hfound 0 3 rfl
  obtain rfl : index = ⟨4⟩ := Option.some.inj (hindex.symm.trans (by decide +kernel))
  refine ⟨hfound, fun hdenotes ↦ ?_⟩
  obtain ⟨expression, hexpression, hcases⟩ := hiff.mp hdenotes
  have hchildren : reversedOffset.children ⟨4⟩ = [⟨5⟩] := by decide +kernel
  cases hexpression.symm.trans hchildren
  have hoperands : reversedOffset.children ⟨5⟩ = [⟨6⟩, ⟨7⟩] := by decide +kernel
  rcases hcases with hvar | ⟨left, right, hpair, horder⟩
  · exact absurd hvar (by decide +kernel)
  · cases hpair.symm.trans hoperands
    exact absurd (horder (by decide +kernel)) (by decide +kernel)

end Reference

end LoopDirectives
