import LoopDirectives.Proofs.Import.Atomic
import LoopDirectives.Proofs.Import.Attaching

/-!
# Imports of bounds that fail

A loop gets two bounds, each imported as a whole or not at all. When the upper one cannot be
imported, the new lower bound is deleted again, but what its operands needed stays in the tables
(`sameContent_discard_iff`). In every other case a failed import leaves the program as it was
(`BoundsImport.perform_of_failure`), and what the program had is still there in any case.
-/

namespace LoopDirectives

open Document List

/-! ### Nothing new is left -/

namespace Document

variable {doc after : Document} {x : NodeId}

theorem rootedAt_range (doc : Document) :
    doc.RootedAt ((List.range doc.slots.size).map NodeId.mk) :=
  fun x hlive _ ↦ mem_map.mpr ⟨x.index, mem_range.mpr (index_lt_size hlive), rfl⟩

/-- A new node hangs below new nodes only, so there is none where no new node hangs nowhere. -/
theorem Scope.Guards.not_contains_new (guards : doc.fresher.Guards after)
    (rooted : after.RootedAt ((List.range doc.slots.size).map NodeId.mk))
    (hx : doc.slots.size ≤ x.index) : after.contains x = false := by
  by_contra hlive
  rw [Bool.not_eq_false] at hlive
  have hstep {upper lower : NodeId} (h : after.parent? lower = some upper)
      (hlower : doc.slots.size ≤ lower.index) : doc.slots.size ≤ upper.index := by
    simpa [Scope.Admits, fresher, Scope.below] using guards.above h (Or.inl hlower)
  obtain ⟨root, hroot, hnone, hbelow⟩ := guards.forest.exists_root hlive
  obtain ⟨index, hindex, rfl⟩ := mem_map.mp (rooted root hroot hnone)
  have hold := Nat.not_le.mpr (mem_range.mp hindex)
  rcases hbelow with rfl | habove
  · exact hold hx
  · induction habove with
    | single h => exact hold (hstep h hx)
    | tail _ h ih => exact ih (hstep h hx) (guards.forest.contains_parent h)

end Document

namespace SourceUnit

structure SameContent (before after : SourceUnit) : Prop where
  role : after.role = before.role
  root : after.root = before.root
  node? : ∀ id, after.document.node? id = before.document.node? id
  types : after.types = before.types
  symbols : after.symbols = before.symbols
  declarations : after.declarations = before.declarations

theorem SameContent.refl (unit : SourceUnit) : SameContent unit unit :=
  ⟨rfl, rfl, fun _ ↦ rfl, rfl, rfl, rfl⟩

theorem IndexedBy.tabled {unit : SourceUnit} {elements : TableElements}
    (indexed : unit.IndexedBy elements) : unit.Tabled where
  types := by rw [indexed.element?_types, Option.isSome_some]
  symbols := by rw [indexed.element?_symbols, Option.isSome_some]
  index_lt entry hentry := index_lt_size (indexed.readable.types entry hentry)

end SourceUnit

open SourceUnit

namespace Import

variable {source target after : SourceUnit} {bound copy : NodeId}

def discard (unit : SourceUnit) (bound : NodeId) : SourceUnit :=
  { unit with document := unit.document.delete bound }

theorem importBound_iff {elements : TableElements} (indexed : source.IndexedBy elements)
    (bound : NodeId) (target : SourceUnit) :
    (∃ copy after, importBoundInPlace source bound target = .ok copy after) ↔
      source.ImportableBound bound := by
  rw [importableBound_iff indexed.readable.live]
  constructor
  · rintro ⟨copy, after, hok⟩
    by_contra hnot
    obtain ⟨cause, herror⟩ := importBoundInPlace_of_not_checked hnot
    cases hok.symm.trans (herror target)
  · intro checked
    exact total_importBoundInPlace indexed.readable.live checked target

theorem keeps_discard (forest : target.document.Forest)
    (h : importBoundInPlace source bound target = .ok copy after) :
    Keeps target (discard after copy) := by
  have hserves := serves_newNodes forest
  obtain ⟨hextends, hnew⟩ := hserves.extends_importBound h
  have hdiscards : Extends (newNodes target) target (discard after copy) :=
    ⟨⟨hextends.same.role, hextends.same.root, hextends.same.types, hextends.same.symbols,
        hextends.same.declarations⟩,
      hextends.steps.tail (.delete _ copy (Scope.inside_of_new _ copy hnew))⟩
  obtain ⟨shape, imported, operands, -, himported, rfl, -⟩ := importBoundInPlace_eq_ok h
  have htables := (fetches_importOperands himported).tablesExtend
  exact keeps_of_extends forest hdiscards ⟨htables.types, htables.symbols, htables.declarations⟩

/-- A bound that is imported and discarded leaves no trace if everything it needs was there. -/
theorem sameContent_discard_iff (hsource : source.Readable) (forest : target.document.Forest)
    (h : importBoundInPlace source bound target = .ok copy after) (tabled : target.Tabled) :
    SameContent target (discard after copy) ↔
      ∀ operand ∈ operandsOf source.document bound, Provided source target operand := by
  obtain ⟨shape, imported, operands, hshape, himported, rfl, rfl⟩ := importBoundInPlace_eq_ok h
  obtain ⟨hall, hgrows⟩ := importOperands_spec hsource forest tabled himported
  rw [operandsOf_eq hshape]
  constructor
  · intro same
    by_contra hmissing
    push Not at hmissing
    have hlt := hgrows hmissing
    have htypes : imported.types = target.types := same.types
    have hsymbols : imported.symbols = target.symbols := same.symbols
    rw [tableSize, tableSize, htypes, hsymbols] at hlt
    exact Nat.lt_irrefl _ hlt
  · intro hprovided
    obtain ⟨doc, copied, rfl⟩ := hall hprovided
    have hcopies := copied.contains_copy forest
    have hforest := copied.forest forest
    have hguards := Scope.Steps.guards forest.guards_fresher
      (copied.steps forest.guards_fresher)
    have hassemble := steps_assemble hguards (source.document.kind bound) shape
      fun operand hoperand ↦ (hcopies operand hoperand).2
    have hsteps := ((copied.steps forest.guards_fresher).trans hassemble.1).tail
      (.delete _ doc.fresh (Scope.inside_of_new _ _ hguards.size_le))
    have rooted := (hassemble.1.forest hforest).rootedAt_delete
      (rootedAt_assemble hforest (source.document.kind bound) shape
        (copied.rootedAt forest (rootedAt_range target.document))
        fun operand hoperand ↦ (hcopies operand hoperand).1)
    refine ⟨rfl, rfl, fun id ↦ ?_, rfl, rfl, rfl⟩
    by_cases hold : id.index < target.document.slots.size
    · exact forest.node?_of_steps hsteps hold
    · rw [Nat.not_lt] at hold
      have hgone := (Scope.Steps.guards forest.guards_fresher hsteps).not_contains_new rooted hold
      rw [node?_eq_none_of_size_le hold]
      exact contains_eq_false_iff.mp hgone

end Import

/-! ### The bounds of a loop -/

namespace BoundsImport

open Import

variable {plan : BoundsImport} {unit program : SourceUnit} {cause : TransformError}

/-- The lower bound that the unit declares can be imported and needs something that the program does
not have, and the upper bound cannot be imported. -/
def Halfway (plan : BoundsImport) (unit program : SourceUnit) : Prop :=
  ∃ lower upper, plan.declaredBounds unit = .ok (lower, upper) ∧ unit.ImportableBound lower ∧
    ¬ unit.ImportableBound upper ∧
    ∃ operand ∈ operandsOf unit.document lower, ¬ Provided unit program operand

/-- Assumes: a loop with bounds. A failed import has changed content exactly if it stopped halfway.
-/
theorem performFrom_of_failure (forest : program.document.Forest) (tabled : program.Tabled)
    (coherent : unit.Coherent) (hbounded : isBounded program.document plan.loop)
    (herror : (plan.performFrom unit program).result = .error cause) :
    Keeps program (plan.performFrom unit program).state ∧
      (¬ SameContent program (plan.performFrom unit program).state ↔
        plan.Halfway unit program) := by
  obtain ⟨elements, indexed⟩ := coherent
  unfold performFrom at herror ⊢
  cases hbounds : plan.declaredBounds unit with
  | error cause =>
    refine ⟨.refl program, iff_of_false (not_not.mpr (.refl program)) ?_⟩
    rintro ⟨lower, upper, hdeclared, -⟩
    cases hbounds.symm.trans hdeclared
  | ok bounds =>
    obtain ⟨lower, upper⟩ := bounds
    have hlower := importBound_iff indexed lower program
    simp only [hbounds] at herror ⊢
    cases himport : importBoundInPlace unit lower program with
    | error cause changed =>
      obtain rfl := eq_of_importBoundInPlace_error indexed.readable.live himport
      refine ⟨.refl changed, iff_of_false (not_not.mpr (.refl changed)) ?_⟩
      rintro ⟨first, second, hdeclared, himportable, -⟩
      cases hbounds.symm.trans hdeclared
      obtain ⟨_, _, hok⟩ := hlower.mpr himportable
      cases himport.symm.trans hok
    | ok copy withLower =>
      have hupper := importBound_iff indexed upper withLower
      simp only [himport] at herror ⊢
      cases himportUpper : importBoundInPlace unit upper withLower with
      | error cause changed =>
        obtain rfl := eq_of_importBoundInPlace_error indexed.readable.live himportUpper
        have hsame := sameContent_discard_iff indexed.readable forest himport tabled
        refine ⟨keeps_discard forest himport, (not_congr hsame).trans ?_⟩
        push Not
        constructor
        · rintro hmissing
          refine ⟨lower, upper, hbounds, hlower.mp ⟨_, _, himport⟩, fun himportable ↦ ?_, hmissing⟩
          obtain ⟨_, _, hok⟩ := hupper.mpr himportable
          cases himportUpper.symm.trans hok
        · rintro ⟨first, second, hdeclared, -, -, hmissing⟩
          cases hbounds.symm.trans hdeclared
          exact hmissing
      | ok other withBoth =>
        obtain ⟨range, oldLower, oldUpper, hrange, holdLower, holdUpper⟩ :=
          exists_bounds_of_isBounded hbounded
        have hserves := serves_newNodes forest
        have hfirst := (hserves.extends_importBound himport).1
        have hboth := hfirst.trans ((hserves.extends hfirst).extends_importBound himportUpper).1
        simp only [himportUpper, replaceBounds_of_extends forest hrange holdLower holdUpper hboth,
          Outcome.ofExcept] at herror
        cases herror

/-- An import that fails keeps all that the program had. It leaves it exactly as it was unless the
lower bound was imported with something that the program did not have and then the upper bound could
not be imported. -/
theorem perform_of_failure {files : Files} {workspace : Workspace} {directive : PlacedDirective}
    (forest : workspace.program.document.Forest) (tabled : workspace.program.Tabled)
    (hmodules : ∀ entry ∈ workspace.library.modules, entry.2.Coherent)
    (hplan : plan? workspace.program.document directive = some plan)
    (herror : (plan.perform files workspace).result = .error cause) :
    ((plan.perform files workspace).state.library = workspace.library ∨
      ∃ unit, workspace.library.load files plan.module =
        .ok ((plan.perform files workspace).state.library, unit)) ∧
    Keeps workspace.program (plan.perform files workspace).state.program ∧
    (¬ SameContent workspace.program (plan.perform files workspace).state.program ↔
      ∃ library unit, workspace.library.load files plan.module = .ok (library, unit) ∧
        plan.Halfway unit workspace.program) := by
  have hbounded := (nextLoop?_of_plan? hplan).2
  unfold perform at herror ⊢
  cases hload : workspace.library.load files plan.module with
  | error failure =>
    refine ⟨Or.inl rfl, .refl _, iff_of_false (not_not.mpr (.refl _)) ?_⟩
    rintro ⟨library, unit, hok, -⟩
    cases hok
  | ok loaded =>
    obtain ⟨library, unit⟩ := loaded
    have coherent := (Library.forall_load SourceUnit.Coherent hmodules (fun hmodule ↦ by
      obtain ⟨_, _, -, hread⟩ := Library.exists_read_of_readModule hmodule
      exact coherent_of_read hread) hload).2.1
    rw [hload] at herror
    obtain ⟨hkeeps, hchanged⟩ := performFrom_of_failure forest tabled coherent hbounded herror
    refine ⟨Or.inr ⟨unit, rfl⟩, hkeeps, hchanged.trans ⟨fun halfway ↦ ⟨library, unit, rfl, halfway⟩,
      ?_⟩⟩
    rintro ⟨other, found, hok, halfway⟩
    cases hok
    exact halfway

/-- A module that declares `a(n : 2 * 3)`, of whose bounds only the lower one can be imported. -/
def productModule : SourceUnit :=
  let range : Element := .range (.typed "Var" "K" "n") (.branch "mulExpr" [.int "2", .int "3"])
  .withTables (.module "m")
    (Document.ofElement (.moduleFile [.basicType "K" "Fint" [], .basicType "A" "Freal" [range]]
      [.symbol "n" "K", .symbol "a" "A"] [.declaration "n" "K"])).1 ⟨0⟩
    { types := ⟨1⟩, symbols := ⟨11⟩, declarations := ⟨16⟩ }

def productWorkspace : Workspace where
  program :=
    .withTables .program
      (Document.ofElement (.program [] [.pragma "lsm import-bounds", .loop "i" []])).1 ⟨0⟩
      { types := ⟨1⟩, symbols := ⟨2⟩, declarations := ⟨3⟩ }
  library := { modules := [("m", productModule)] }

def productPlan : BoundsImport :=
  { module := "m", array := "a", dimension := 1, loop := ⟨6⟩ }

theorem indexedBy_productModule :
    productModule.IndexedBy { types := ⟨1⟩, symbols := ⟨11⟩, declarations := ⟨16⟩ } :=
  SourceUnit.indexedBy_withTables (Document.forest_ofElement _) (by decide +kernel)
    (by decide +kernel) (by decide +kernel)

theorem halfway_productPlan : productPlan.Halfway productModule productWorkspace.program := by
  have hbounds : productPlan.declaredBounds productModule = .ok (⟨5⟩, ⟨7⟩) := by decide +kernel
  have hlower : productModule.ImportableBound ⟨5⟩ :=
    (importableBound_iff indexedBy_productModule.readable.live).mpr
      ⟨.single ⟨6⟩, rfl, by decide +kernel⟩
  have hupper : ¬ productModule.ImportableBound ⟨7⟩ := by
    rw [importableBound_iff indexedBy_productModule.readable.live]
    rintro ⟨shape, hshape, -⟩
    have hfails : (shapeOf productModule.document ⟨7⟩).toBool = false := by decide +kernel
    exact Bool.false_ne_true (hfails.symm.trans (congrArg Except.toBool hshape))
  have hfree : productWorkspace.program.symbols.contains "n" = false := by decide +kernel
  have hsymbol : symbolOf? productModule ⟨6⟩ =
      some { name := "n", type? := some "K", storage? := none, node := ⟨12⟩ } := by decide +kernel
  have hoperand : (⟨6⟩ : NodeId) ∈ operandsOf productModule.document ⟨5⟩ := by decide +kernel
  refine ⟨⟨5⟩, ⟨7⟩, hbounds, hlower, hupper, ⟨6⟩, hoperand, fun hprovided ↦ ?_⟩
  exact Bool.false_ne_true (hfree.symm.trans (hprovided.2 _ hsymbol))

theorem perform_of_failure_productWorkspace :
    (productPlan.perform { origin := "/", home := "/" } productWorkspace).result =
        .error (.unsupportedBound "mulExpr") ∧
      Keeps productWorkspace.program
        (productPlan.perform { origin := "/", home := "/" } productWorkspace).state.program ∧
      ¬ SameContent productWorkspace.program
        (productPlan.perform { origin := "/", home := "/" } productWorkspace).state.program := by
  have hplan : plan? productWorkspace.program.document
      { keyword := "import-bounds", clauses := [{ name := "module", arguments := ["m"] },
          { name := "array", arguments := ["a"] }], pragma := ⟨5⟩, line := 2 } =
      some productPlan := by decide +kernel
  have herror : (productPlan.perform { origin := "/", home := "/" } productWorkspace).result =
      .error (.unsupportedBound "mulExpr") := by decide +kernel
  have indexed : productWorkspace.program.IndexedBy
      { types := ⟨1⟩, symbols := ⟨2⟩, declarations := ⟨3⟩ } :=
    SourceUnit.indexedBy_withTables (Document.forest_ofElement _) (by decide +kernel)
      (by decide +kernel) (by decide +kernel)
  obtain ⟨-, hkeeps, hchanged⟩ := perform_of_failure indexed.forest indexed.tabled
    (List.forall_mem_singleton.mpr ⟨_, indexedBy_productModule⟩) hplan herror
  exact ⟨herror, hkeeps, hchanged.mpr ⟨_, _, rfl, halfway_productPlan⟩⟩

end BoundsImport

end LoopDirectives
