import LoopDirectives.Import.Bounds
import LoopDirectives.Proofs.Except

/-!
# Imports in place

An import follows the types that it needs twice, first to check them and then to make them
available. From a unit whose tables list only what is there, the second traversal gets as far as the
first one (`Import.importTypeGuarded_agrees`), so an import of a bound fails before it changes
anything or not at all (`Import.eq_of_importBoundInPlace_error`).
-/

namespace LoopDirectives

open Document List

/-- The tables list only elements that are there. -/
structure SourceUnit.Live (unit : SourceUnit) : Prop where
  types : ∀ entry ∈ unit.types.entries, unit.document.contains entry.node = true
  symbols : ∀ symbol ∈ unit.symbols.entries, unit.document.contains symbol.node = true

namespace Import

/-! ### Runs -/

namespace InPlace

def Total {α : Type} (action : InPlace α) : Prop :=
  ∀ unit, ∃ value after, action unit = .ok value after

/-- However a run of the action ends, it leaves the unit in the relation to what it was before. -/
def Leaves {α : Type} (relation : SourceUnit → SourceUnit → Prop) (action : InPlace α) : Prop :=
  ∀ unit, match action unit with
    | .ok _ after => relation unit after
    | .error _ after => relation unit after

variable {α β : Type} {action : InPlace α} {next : α → InPlace β} {unit after : SourceUnit}
  {value : β} {cause : TransformError}

theorem bind_eq : (action >>= next) unit =
    match action unit with
    | .ok result middle => next result middle
    | .error cause middle => .error cause middle := by
  show EStateM.bind action next unit = _
  unfold EStateM.bind
  cases action unit <;> rfl

theorem bind_eq_ok (h : (action >>= next) unit = .ok value after) :
    ∃ result middle, action unit = .ok result middle ∧ next result middle = .ok value after := by
  rw [bind_eq] at h
  cases haction : action unit with
  | error cause middle => simp [haction] at h
  | ok result middle => exact ⟨result, middle, rfl, by simpa [haction] using h⟩

theorem bind_eq_error (h : (action >>= next) unit = .error cause after) :
    action unit = .error cause after ∨
      ∃ result middle, action unit = .ok result middle ∧
        next result middle = .error cause after := by
  rw [bind_eq] at h
  cases haction : action unit with
  | error cause middle => exact .inl (by simpa [haction] using h)
  | ok result middle => exact .inr ⟨result, middle, rfl, by simpa [haction] using h⟩

section

variable {relation : SourceUnit → SourceUnit → Prop}

theorem Leaves.of_ok (leaves : action.Leaves relation) {value : α}
    (h : action unit = .ok value after) : relation unit after := by
  simpa only [h] using leaves unit

theorem Leaves.of_error (leaves : action.Leaves relation) (h : action unit = .error cause after) :
    relation unit after := by
  simpa only [h] using leaves unit

theorem Leaves.mono {other : SourceUnit → SourceUnit → Prop} (leaves : action.Leaves relation)
    (h : ∀ {before after}, relation before after → other before after) : action.Leaves other := by
  intro unit
  cases hrun : action unit with
  | ok value after => exact h (leaves.of_ok hrun)
  | error cause after => exact h (leaves.of_error hrun)

theorem Leaves.bind
    (htrans : ∀ {first second third}, relation first second → relation second third →
      relation first third)
    (haction : action.Leaves relation) (hnext : ∀ value, (next value).Leaves relation) :
    (action >>= next).Leaves relation := by
  intro unit
  cases h : (action >>= next) unit with
  | ok value after =>
    obtain ⟨result, middle, hrun, h⟩ := bind_eq_ok h
    exact htrans (haction.of_ok hrun) ((hnext result).of_ok h)
  | error cause after =>
    rcases bind_eq_error h with hrun | ⟨result, middle, hrun, h⟩
    · exact haction.of_error hrun
    · exact htrans (haction.of_ok hrun) ((hnext result).of_error h)

theorem leaves_check (hrefl : ∀ unit, relation unit unit) (result : Except TransformError α) :
    (check result).Leaves relation := by
  intro unit
  cases result <;> exact hrefl unit

end

theorem commit_eq_ok_iff {α : Type} {run : EStateM.Result TransformError SourceUnit α} {value : α} :
    commit run = .ok (after, value) ↔ run = .ok value after := by
  cases run <;> simp [commit, and_comm]

theorem check_bind_of_ok {result : Except TransformError α} {value : α} (h : result = .ok value) :
    (check result >>= next) = next value := by
  rw [h]
  rfl

theorem check_bind_of_error {result : Except TransformError α} (h : result = .error cause) :
    (check result >>= next) unit = .error cause unit := by
  rw [h]
  rfl

theorem check_bind_eq_ok {result : Except TransformError α}
    (h : (check result >>= next) unit = .ok value after) :
    ∃ found, result = .ok found ∧ next found unit = .ok value after := by
  cases result with
  | error cause => cases h
  | ok found => exact ⟨found, rfl, h⟩

theorem Total.bind (haction : action.Total) (hnext : ∀ value, (next value).Total) :
    (action >>= next).Total := by
  intro unit
  obtain ⟨value, middle, hrun⟩ := haction unit
  rw [bind_eq, hrun]
  exact hnext value middle

theorem total_pure (value : α) : Total (pure value) := fun unit ↦ ⟨value, unit, rfl⟩

theorem total_modifyGet (change : SourceUnit → α × SourceUnit) : Total (modifyGet change) :=
  fun unit ↦ ⟨(change unit).1, (change unit).2, rfl⟩

end InPlace

variable {source target : SourceUnit} {node bound : NodeId} {id : String} {link : TypeLink}
  {reference? type? : Option String} {nodes : List NodeId} {doc : Document}

/-! ### Types -/

theorem link?_eq_some_iff : link? source id = some (link, reference?) ↔
    ∃ entry form, source.types.get? id = some entry ∧ entry.form = .basic form ∧
      link = { id, node := entry.node } ∧ reference? = form.reference? := by
  unfold link?
  cases source.types.get? id with
  | none => simp
  | some entry =>
    cases hform : entry.form with
    | basic form => simp [hform, @eq_comm _ link, @eq_comm _ reference?]
    | function form => simp [hform]
    | other => simp [hform]

theorem contains_of_existing? (h : (existing? source target link reference?).isSome) :
    source.document.contains link.node := by
  rw [existing?, Option.isSome_map, find?_isSome] at h
  obtain ⟨entry, -, hsame⟩ := h
  simp only [sameType, Bool.and_eq_true] at hsame
  exact hsame.1.1.1.1.1.2

/-- A type is found only if its element is there, so without it the import of a link fails. -/
theorem importLinkInPlace_eq (target : SourceUnit) :
    importLinkInPlace source link reference? target =
      if source.document.contains link.node then
        .ok (importLink source target link reference?).2
          (importLink source target link reference?).1
      else .error (.undeclaredType link.id source.name) target := by
  have hdemand : ((existing? source target link reference?).isSome ||
      source.document.contains link.node) = source.document.contains link.node := by
    cases hfound : (existing? source target link reference?).isSome with
    | false => rfl
    | true => exact (contains_of_existing? hfound).symm
  show (InPlace.demand ((existing? source target link reference?).isSome ||
    source.document.contains link.node) (.undeclaredType link.id source.name) >>= fun _ ↦
      modifyGet fun target ↦ (importLink source target link reference?).swap) target = _
  rw [hdemand]
  cases source.document.contains link.node <;> rfl

theorem checkTypeFrom_none (bound : Nat) (visited : List String) :
    checkTypeFrom source bound visited none = .ok () := by
  cases bound <;> rfl

/-- Both traversals end at the same place: with the same error, before anything was changed, or
with all types made available. -/
theorem importTypeGuarded_agrees (live : source.Live) (bound : Nat) (visited : List String)
    (id : String) (target : SourceUnit) :
    (∃ cause, checkTypeFrom source bound visited (some id) = .error cause ∧
      importTypeGuarded source bound visited id target = .error cause target) ∨
    checkTypeFrom source bound visited (some id) = .ok () ∧
      ∃ result after, importTypeGuarded source bound visited id target = .ok result after := by
  induction bound generalizing visited id with
  | zero => exact .inr ⟨rfl, id, target, rfl⟩
  | succ bound ih =>
    unfold checkTypeFrom importTypeGuarded
    split
    · exact .inr ⟨rfl, id, target, rfl⟩
    · cases hlink : link? source id with
      | none => exact .inl ⟨_, rfl, rfl⟩
      | some found =>
        obtain ⟨link, reference?⟩ := found
        have hnode : source.document.contains link.node := by
          obtain ⟨entry, _, hentry, -, rfl, -⟩ := link?_eq_some_iff.mp hlink
          exact live.types entry (mem_of_find?_eq_some hentry)
        have hstep (reference? : Option String) (middle : SourceUnit) :
            ∃ result after, importLinkInPlace source link reference? middle = .ok result after := by
          rw [importLinkInPlace_eq, if_pos hnode]
          exact ⟨_, _, rfl⟩
        cases reference? with
        | none => exact .inr ⟨checkTypeFrom_none bound _, hstep none target⟩
        | some reference =>
          rcases ih (id :: visited) reference with
            ⟨cause, hcheck, hrun⟩ | ⟨hcheck, imported, middle, hrun⟩
          · refine .inl ⟨cause, hcheck, ?_⟩
            dsimp only
            rw [InPlace.bind_eq, hrun]
          · refine .inr ⟨hcheck, ?_⟩
            dsimp only
            rw [InPlace.bind_eq, hrun]
            exact hstep (some imported) middle

theorem total_importType?InPlace (live : source.Live) (h : checkType source type? = .ok ()) :
    (importType?InPlace source type?).Total := by
  cases type? with
  | none => exact InPlace.total_pure none
  | some id =>
    refine InPlace.Total.bind (fun target ↦ ?_) fun _ ↦ InPlace.total_pure _
    rcases importTypeGuarded_agrees live (source.types.entries.length + 1) [] id target with
      ⟨cause, hcheck, -⟩ | ⟨-, hrun⟩
    · cases h.symm.trans hcheck
    · exact hrun

/-! ### Operands and bounds -/

theorem mem_of_symbolOf? {symbol : Symbol} (h : symbolOf? source node = some symbol) :
    symbol ∈ source.symbols.entries := by
  unfold symbolOf? at h
  split at h
  · exact mem_of_find?_eq_some h
  · cases h

theorem contains_of_isOperand (h : isOperand (doc.kind node)) :
    doc.contains node := by
  cases hnode : doc.node? node with
  | none =>
    have hblank : isOperand Label.blank.kind = false := by decide +kernel
    simp [kind, label, hnode, hblank] at h
  | some found => simp [Document.contains, hnode]

theorem total_importSymbolOfInPlace (live : source.Live)
    (h : checkType source ((symbolOf? source node).bind Symbol.type?) = .ok ()) :
    (importSymbolOfInPlace source node).Total := by
  unfold importSymbolOfInPlace
  cases hsymbol : symbolOf? source node with
  | none => exact InPlace.total_pure ()
  | some symbol =>
    rw [hsymbol] at h
    have hnode := live.symbols symbol (mem_of_symbolOf? hsymbol)
    refine InPlace.Total.bind (fun unit ↦ ⟨unit, unit, rfl⟩) fun target ↦ ?_
    split
    · exact InPlace.total_pure ()
    · refine (total_importType?InPlace live h).bind fun type? ↦ ?_
      rw [InPlace.demand, InPlace.check_bind_of_ok (if_pos hnode)]
      exact (InPlace.total_modifyGet _).bind fun _ ↦ InPlace.total_modifyGet _

theorem total_importOperandInPlace (live : source.Live) (h : checkOperand source node = .ok ()) :
    (importOperandInPlace source node).Total := by
  unfold importOperandInPlace
  rw [InPlace.check_bind_of_ok h]
  unfold checkOperand at h
  split at h
  · next hkind =>
    obtain ⟨_, htype, hsymbol⟩ := exists_of_bind_eq_ok h
    refine (total_importType?InPlace live htype).bind fun type? ↦
      (total_importSymbolOfInPlace live hsymbol).bind fun _ target ↦ ?_
    unfold copyInPlace copyFrom?
    rw [if_pos (contains_of_isOperand hkind)]
    exact ⟨_, _, rfl⟩
  · cases h

theorem total_importOperandsInPlace (live : source.Live)
    (h : checkOperands source nodes = .ok ()) : (importOperandsInPlace source nodes).Total := by
  induction nodes with
  | nil => exact InPlace.total_pure []
  | cons first rest ih =>
    obtain ⟨_, hfirst, hrest⟩ := exists_of_bind_eq_ok h
    exact (total_importOperandInPlace live hfirst).bind fun _ ↦
      (ih hrest).bind fun _ ↦ InPlace.total_pure _

/-- The bound holds what can be imported, and its operands pass their checks. -/
def Checked (source : SourceUnit) (bound : NodeId) : Prop :=
  ∃ shape, shapeOf source.document bound = .ok shape ∧
    checkOperands source shape.operands = .ok ()

/-- Assumes: tables of live elements. Once a bound has passed the checks, nothing fails. -/
theorem total_importBoundInPlace (live : source.Live) (checked : Checked source bound) :
    (importBoundInPlace source bound).Total := by
  obtain ⟨shape, hshape, hoperands⟩ := checked
  unfold importBoundInPlace
  rw [InPlace.check_bind_of_ok hshape, InPlace.check_bind_of_ok hoperands]
  exact (total_importOperandsInPlace live hoperands).bind fun _ ↦ InPlace.total_modifyGet _

/-- A bound that fails a check changes nothing. -/
theorem importBoundInPlace_of_not_checked (h : ¬ Checked source bound) :
    ∃ cause, ∀ target, importBoundInPlace source bound target = .error cause target := by
  unfold importBoundInPlace
  cases hshape : shapeOf source.document bound with
  | error cause => exact ⟨cause, fun target ↦ InPlace.check_bind_of_error rfl⟩
  | ok shape =>
    rw [InPlace.check_bind_of_ok rfl]
    cases hoperands : checkOperands source shape.operands with
    | error cause => exact ⟨cause, fun target ↦ InPlace.check_bind_of_error rfl⟩
    | ok value => exact absurd ⟨shape, hshape, hoperands⟩ h

/-- Assumes: tables of live elements. An import that fails has written nothing. -/
theorem eq_of_importBoundInPlace_error (live : source.Live) {after : SourceUnit}
    {cause : TransformError} (h : importBoundInPlace source bound target = .error cause after) :
    after = target := by
  by_cases checked : Checked source bound
  · obtain ⟨copy, done, hrun⟩ := total_importBoundInPlace live checked target
    cases h.symm.trans hrun
  · obtain ⟨other, hrun⟩ := importBoundInPlace_of_not_checked checked
    cases h.symm.trans (hrun target)
    rfl

end Import

end LoopDirectives
