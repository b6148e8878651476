import LoopDirectives.Proofs.Import.TypeMeaning

/-!
# Importing a bound is decided up front

A bound can be imported when it holds a constant, a variable or a sum of two of those, and all their
types lead over declared basic types only (`SourceUnit.ImportableBound`), whatever unit it goes to.
What was done in place before a failure stays done, but where the import of a bound fails, nothing
was done (`Import.importBound_decided`).
-/

namespace LoopDirectives

open Document List

/-! ### What can be imported -/

namespace SourceUnit

variable {unit : SourceUnit} {elements : TableElements} {node bound : NodeId}

/-- The node is a constant or a variable, and its type and that of its symbol are resolvable. -/
structure ImportableOperand (unit : SourceUnit) (node : NodeId) : Prop where
  kind : unit.document.kind node = .var ∨ ∃ type, unit.document.kind node = .constant type
  type : ∀ id, unit.document.typeId? node = some id → unit.Resolvable id
  symbol : unit.document.kind node = .var → ∀ symbol,
    unit.symbols.get? (unit.document.text node) = some symbol →
      ∀ id, symbol.type? = some id → unit.Resolvable id

/-- The node is a bound that holds an operand that can be imported, or the sum of two. -/
def ImportableBound (unit : SourceUnit) (bound : NodeId) : Prop :=
  (unit.document.kind bound = .lowerBound ∨ unit.document.kind bound = .upperBound) ∧
    ∃ content rest, unit.document.children bound = content :: rest ∧
      (unit.ImportableOperand content ∨
        unit.document.kind content = .binary .plus ∧
          ∃ left right, unit.document.children content = [left, right] ∧
            unit.ImportableOperand left ∧ unit.ImportableOperand right)

end SourceUnit

namespace Import

variable {source target : SourceUnit} {elements : SourceUnit.TableElements} {node bound : NodeId}
  {type? : Option String} {symbol : Symbol} {nodes : List NodeId} {doc : Document}

/-! ### What is checked -/

theorem isOperand_iff {kind : Kind} :
    isOperand kind ↔ kind = .var ∨ ∃ type, kind = .constant type := by
  cases kind <;> simp [isOperand, Kind.isConstant]

theorem checkType_eq_ok_iff (live : source.Live) :
    checkType source type? = .ok () ↔ ∀ id, type? = some id → source.Resolvable id := by
  cases type? with
  | none => simp [checkType, checkTypeFrom_none]
  | some id =>
    simp only [Option.some.injEq, forall_eq', ← TypeChain.exists_of_iff live, checkType]
    have hagrees := importTypeGuarded_agrees live (source.types.entries.length + 1) [] id source
    rcases importTypeGuarded_cases source (source.types.entries.length + 1) [] id source with
      ⟨chain, _, _, hchain, -, hrun⟩ | ⟨⟨_, hchain⟩, _, _, hrun⟩
    · rcases hagrees with ⟨_, -, herror⟩ | ⟨hcheck, -⟩
      · cases hrun.symm.trans herror
      · exact iff_of_true hcheck ⟨chain, hchain⟩
    · rcases hagrees with ⟨_, hcheck, -⟩ | ⟨-, _, _, hok⟩
      · exact iff_of_false (by simp [hcheck]) (by simp [TypeChain.of, hchain])
      · cases hrun.symm.trans hok

theorem bind_eq_ok_unit_iff {first : Except TransformError Unit}
    {second : Unit → Except TransformError Unit} :
    (first >>= second) = .ok () ↔ first = .ok () ∧ second () = .ok () := by
  cases first <;> simp [bind, Except.bind]

theorem checkOperand_eq_ok_iff (live : source.Live) :
    checkOperand source node = .ok () ↔ source.ImportableOperand node := by
  unfold checkOperand
  split
  · next hkind =>
    rw [bind_eq_ok_unit_iff, checkType_eq_ok_iff live, checkType_eq_ok_iff live]
    constructor
    · rintro ⟨htype, hsymbol⟩
      refine ⟨isOperand_iff.mp hkind, htype, fun hvar symbol hfound id hid ↦ hsymbol id ?_⟩
      simp [symbolOf?, isKind, hvar, hfound, hid]
    · intro h
      refine ⟨h.type, fun id hid ↦ ?_⟩
      obtain ⟨symbol, hsymbol, hid⟩ := Option.bind_eq_some_iff.mp hid
      unfold symbolOf? at hsymbol
      split at hsymbol
      · next hvar => exact h.symbol (of_decide_eq_true hvar) symbol hsymbol id hid
      · cases hsymbol
  · next hkind =>
    constructor
    · intro h
      cases h
    · intro h
      exact absurd (isOperand_iff.mpr h.kind) hkind

theorem checkOperands_eq_ok_iff (live : source.Live) :
    checkOperands source nodes = .ok () ↔ ∀ node ∈ nodes, source.ImportableOperand node := by
  induction nodes with
  | nil => simp [checkOperands]
  | cons first rest ih =>
    rw [checkOperands, bind_eq_ok_unit_iff, checkOperand_eq_ok_iff live, ih,
      forall_mem_cons]

theorem isBound_iff :
    isBound doc bound ↔
      doc.kind bound = .lowerBound ∨ doc.kind bound = .upperBound := by
  simp [isBound, isKind]

theorem shapeOf_eq_ok_iff {shape : BoundShape} :
    shapeOf doc bound = .ok shape ↔ isBound doc bound ∧
      ∃ content rest, doc.children bound = content :: rest ∧
        (isOperand (doc.kind content) ∧ shape = .single content ∨
          doc.kind content = .binary .plus ∧
            ∃ left right, doc.children content = [left, right] ∧ shape = .sum left right) := by
  unfold shapeOf firstChild?
  by_cases hbound : isBound doc bound
  · rw [if_pos hbound]
    cases hchildren : doc.children bound with
    | nil => simp
    | cons content rest =>
      simp only [head?_cons, hbound, true_and, isKind, List.cons.injEq, existsAndEq]
      by_cases hplus : doc.kind content = .binary .plus
      · have hoperand : isOperand (.binary .plus) = false := rfl
        simp only [hplus, beq_self_eq_true, if_true, hoperand, true_and]
        split
        · next left right hsides => simp [hsides, eq_comm]
        · next hother =>
          simp only [reduceCtorEq, false_and, false_or, false_iff, not_exists, not_and]
          exact fun left right hsides ↦ absurd hsides (hother left right)
      · simp only [hplus, beq_iff_eq, if_false, false_and, or_false]
        split
        · next hoperand => simp [hoperand, eq_comm]
        · next hoperand => simp [hoperand]
  · simp [hbound]

theorem importableBound_iff (live : source.Live) :
    source.ImportableBound bound ↔ Checked source bound := by
  simp only [Checked, shapeOf_eq_ok_iff, checkOperands_eq_ok_iff live, SourceUnit.ImportableBound,
    isBound_iff]
  constructor
  · rintro ⟨hbound, content, rest, hchildren, hoperand | ⟨hplus, left, right, hsides, hoperands⟩⟩
    · exact ⟨.single content, ⟨hbound, content, rest, hchildren,
        .inl ⟨isOperand_iff.mpr hoperand.kind, rfl⟩⟩, by simpa [BoundShape.operands] using hoperand⟩
    · exact ⟨.sum left right, ⟨hbound, content, rest, hchildren,
        .inr ⟨hplus, left, right, hsides, rfl⟩⟩, by simpa [BoundShape.operands] using hoperands⟩
  · rintro ⟨shape, ⟨hbound, content, rest, hchildren, hshape⟩, hoperands⟩
    refine ⟨hbound, content, rest, hchildren, ?_⟩
    obtain ⟨-, rfl⟩ | ⟨hplus, left, right, hsides, rfl⟩ := hshape
    · exact .inl (by simpa [BoundShape.operands] using hoperands)
    · exact .inr ⟨hplus, left, right, hsides, by simpa [BoundShape.operands] using hoperands⟩

/-! ### The outcome -/

/-- Whether a bound can be imported does not depend on the unit it is imported into. If it can, a
copy of it is returned; if not, the import fails, and a unit changed in place is left as it was. -/
theorem importBound_decided (coherent : source.Coherent) (bound : NodeId) :
    (source.ImportableBound bound → ∀ target, ∃ after copy,
      importBound source bound target = .ok (after, copy) ∧
        importBoundInPlace source bound target = .ok copy after) ∧
    (¬ source.ImportableBound bound → ∃ cause, ∀ target,
      importBound source bound target = .error cause ∧
        importBoundInPlace source bound target = .error cause target) := by
  obtain ⟨elements, indexed⟩ := coherent
  rw [importableBound_iff indexed.readable.live]
  constructor
  · intro checked target
    obtain ⟨copy, after, hrun⟩ := total_importBoundInPlace indexed.readable.live checked target
    exact ⟨after, copy, InPlace.commit_eq_ok_iff.mpr hrun, hrun⟩
  · intro hnot
    obtain ⟨cause, hrun⟩ := importBoundInPlace_of_not_checked hnot
    refine ⟨cause, fun target ↦ ⟨?_, hrun target⟩⟩
    rw [importBound, hrun target]
    rfl

/-- A module with two types made from each other and one made from a type that is not declared. The
lower bound needs the first two only, the upper bound a sum with a constant of the third. -/
def tangledModule : SourceUnit :=
  let range : Element := .range (.typed "Var" "C" "n")
    (.branch "plusExpr" [.typed "Var" "C" "n", .typed "FintConstant" "L" "1"])
  .withTables (.module "tangled")
    (Document.ofElement (.moduleFile
      [.basicType "C" "D" [], .basicType "D" "C" [], .basicType "L" "M" [range]] [] [])).1 ⟨0⟩
    { types := ⟨1⟩, symbols := ⟨12⟩, declarations := ⟨13⟩ }

theorem indexedBy_tangledModule :
    tangledModule.IndexedBy { types := ⟨1⟩, symbols := ⟨12⟩, declarations := ⟨13⟩ } :=
  SourceUnit.indexedBy_withTables (Document.forest_ofElement _) ⟨rfl, rfl⟩ ⟨rfl, rfl⟩ ⟨rfl, rfl⟩

theorem importBound_decided_of_tangledModule :
    tangledModule.Coherent ∧
      (tangledModule.ImportableBound ⟨6⟩ ∧ ∀ target, ∃ after copy,
        importBound tangledModule ⟨6⟩ target = .ok (after, copy) ∧
          importBoundInPlace tangledModule ⟨6⟩ target = .ok copy after) ∧
      ¬ tangledModule.ImportableBound ⟨8⟩ ∧ ∃ cause, ∀ target,
        importBound tangledModule ⟨8⟩ target = .error cause ∧
          importBoundInPlace tangledModule ⟨8⟩ target = .error cause target := by
  have coherent : tangledModule.Coherent := ⟨_, indexedBy_tangledModule⟩
  have hlower : tangledModule.ImportableBound ⟨6⟩ :=
    (importableBound_iff indexedBy_tangledModule.readable.live).mpr ⟨.single ⟨7⟩, rfl, rfl⟩
  have hupper : ¬ tangledModule.ImportableBound ⟨8⟩ := by
    rw [importableBound_iff indexedBy_tangledModule.readable.live]
    rintro ⟨shape, hshape, hcheck⟩
    have hsum : (.ok (.sum ⟨10⟩ ⟨11⟩) : Except TransformError BoundShape) = .ok shape := hshape
    rw [← Except.ok.inj hsum] at hcheck
    have hfails : (checkOperands tangledModule [⟨10⟩, ⟨11⟩]).toBool = false := by decide +kernel
    exact Bool.false_ne_true (hfails.symm.trans (congrArg Except.toBool hcheck))
  exact ⟨coherent, ⟨hlower, (importBound_decided coherent ⟨6⟩).1 hlower⟩, hupper,
    (importBound_decided coherent ⟨8⟩).2 hupper⟩

end Import

end LoopDirectives
