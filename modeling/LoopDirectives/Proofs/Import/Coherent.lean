import LoopDirectives.Proofs.Sample
import LoopDirectives.Proofs.Table.Coherent

/-!
# Imports keep the tables an index

Every step of an import edits new nodes only or puts a copy, which hangs nowhere, into a table. So
the tables of a unit still are an index of its document after a type, an operand or a bound of
another unit was imported (`SourceUnit.coherent_of_read_offer_import`).
-/

namespace LoopDirectives

open Document List

/-! ### Copies -/

namespace Document

variable {doc after source : Document} {copy id : NodeId}

theorem Copied.parent?_copy (copied : Copied source doc after copy)
    (forest : doc.Forest) : after.parent? copy = none := by
  obtain ⟨_, _, -, -, hretypes⟩ := copied.exists_retypes
  rw [(hretypes.readings copy).2.1, copied.copy_eq]
  exact (forest.planted_plant _).parent?_root _ (List.mem_singleton_self _)

theorem Forest.element_copyFrom? (forest : doc.Forest)
    (h : doc.copyFrom? source id = some (after, copy)) :
    after.element copy = source.element id := by
  obtain ⟨-, rfl, rfl⟩ := copyFrom?_eq_some h
  exact forest.element_plant _

theorem Forest.label_copyFrom? (forest : doc.Forest) (hsource : source.Forest)
    (h : doc.copyFrom? source id = some (after, copy)) :
    after.label copy = source.label id :=
  hsource.label_eq_of_element_eq (forest.copyFrom? h) (forest.element_copyFrom? h)

end Document

namespace Import

variable {source target after : SourceUnit} {elements : SourceUnit.TableElements}
  {origin typed doc : Document} {copy node : NodeId} {link : TypeLink}
  {reference? : Option String}

theorem declare_eq_enter (target : SourceUnit)
    (hlive : source.document.contains link.node) (id : String) (reference? : Option String) :
    ∃ copied copy, target.document.copyFrom? source.document link.node = some (copied, copy) ∧
      declare source target link id reference? = enter target
        (setReference (copied.setAttribute copy "type" id) copy reference?) copy .types :=
  (declare_cases source target link id reference?).resolve_left fun ⟨hstale, _⟩ ↦
    Bool.false_ne_true (hstale.symm.trans hlive)

theorem kind_setReference (doc : Document) (id x : NodeId) (reference? : Option String) :
    (setReference doc id reference?).kind x = doc.kind x := by
  cases reference? with
  | none => rfl
  | some reference => exact kind_setAttribute ..

theorem kind_of_link? (indexed : source.IndexedBy elements)
    (h : TypeChain.link? source link.id = some (link, reference?)) :
    source.document.contains link.node ∧ source.document.kind link.node = .basicType ∧
      source.document.attribute? link.node "ref" = reference? := by
  obtain ⟨entry, form, hentry, hform, hlive, hlink, rfl⟩ := TypeChain.link?_eq_some_iff.mp h
  obtain ⟨-, hread⟩ := indexed.read?_of_mem_types (TypeTable.mem_of_get? hentry).1
  obtain ⟨hkind, hreference⟩ :=
    TypeEntry.kind_of_formOf ((TypeEntry.node_of_read? hread).2.2.symm.trans hform)
  rw [hlink]
  exact ⟨hlive, hkind, hreference⟩

/-! ### Declaring -/

section Declaring

variable (indexed : target.IndexedBy elements)

include indexed

section

variable (hcopied : Copied origin target.document typed copy)

include hcopied

theorem insertable_copied (table : SourceUnit.TableName)
    (hkind : table = .types → typed.kind copy ≠ .name) :
    { target with document := typed }.Insertable elements copy table := by
  obtain ⟨hne, habove⟩ := hcopied.not_above indexed.forest (indexed.contains_get table)
  exact ⟨hcopied.parent?_copy indexed.forest, hne, habove, fun htable _ ↦ hkind htable⟩

theorem indexedBy_copied : { target with document := typed }.IndexedBy elements :=
  indexed.of_steps (hcopied.steps indexed.forest.guards_fresher)

theorem indexedBy_enter {table : SourceUnit.TableName}
    (hkind : table = .types → typed.kind copy ≠ .name) :
    (enter target typed copy table).IndexedBy elements := by
  have htyped := indexedBy_copied indexed hcopied
  have hguards := indexed.forest.guards_fresher
  unfold enter
  cases hinsert : { target with document := typed }.insert? copy table with
  | none =>
    by_cases htable : table = .declarations
    · rw [if_pos htable]
      exact indexed.of_steps ((hcopied.steps hguards).tail
        (.delete typed copy (hcopied.inside_copy hguards)))
    · rwa [if_neg htable]
  | some after => exact htyped.insert? (insertable_copied indexed hcopied table hkind) hinsert

end

theorem indexedBy_declares (hsource : source.Coherent) (declares : Declares source target after) :
    after.IndexedBy elements := by
  obtain ⟨sourceElements, hsource⟩ := hsource
  cases declares with
  | type link id reference? hlink _ =>
    obtain ⟨own?, hlink⟩ := hlink
    obtain ⟨hlive, hkind, -⟩ := kind_of_link? hsource hlink
    obtain ⟨copied, copy, hcopy, heq⟩ := declare_eq_enter target hlive id reference?
    have hcopyKind : copied.kind copy = .basicType :=
      (congrArg Label.kind (indexed.forest.label_copyFrom? hsource.forest hcopy)).trans hkind
    rw [heq]
    refine indexedBy_enter indexed (copied_retyped hcopy id reference?) fun _ ↦ ?_
    rw [kind_setReference, kind_setAttribute, hcopyKind]
    nofun
  | symbol symbol type? _ _ =>
    rcases declareSymbol_cases source target symbol type? with
      ⟨-, heq⟩ | ⟨copied, copy, hcopy, heq⟩
    · rwa [heq]
    · rw [heq]
      exact indexedBy_enter indexed (copied_setType hcopy type?) nofun
  | declaration symbol type? =>
    rcases declareVariable_cases source target symbol type? with
      heq | ⟨_, copied, copy, -, hcopy, heq⟩
    · rwa [heq]
    · rw [heq]
      exact indexedBy_enter indexed (copied_setNameType indexed.forest hcopy type?) nofun

/-- What is copied is new, and stays as it is when more is fetched. -/
theorem indexedBy_fetches (hsource : source.Coherent) {copies : List NodeId}
    (fetches : Fetches source target after copies) :
    after.IndexedBy elements ∧ copies.Nodup ∧ ∀ copy ∈ copies, after.document.contains copy ∧
      after.document.parent? copy = none := by
  induction fetches with
  | nothing => exact ⟨indexed, by simp⟩
  | declares first _ ih => exact ih (indexedBy_declares indexed hsource first)
  | @copies _ _ _ copy _ first rest ih =>
    have hindexed := indexedBy_copied indexed first
    have hlive := first.contains_copy indexed.forest
    obtain ⟨hdone, hnodup, hothers⟩ := ih hindexed
    have hserves := serves_newNodes hindexed.forest
    obtain ⟨hextends, hnew⟩ := hserves.extends_fetches rest
    have hspares := Scope.Steps.spares hserves.guards hextends.steps
    refine ⟨hdone, nodup_cons.mpr ⟨fun hmem ↦ ?_, hnodup⟩, forall_mem_cons.mpr
      ⟨⟨hspares.contains copy hlive (not_inside_newNodes hlive),
        (hspares.parent? copy hlive (not_inside_newNodes hlive)).trans
          (first.parent?_copy indexed.forest)⟩, hothers⟩⟩
    exact Nat.not_lt.mpr (hnew copy hmem) (index_lt_size hlive)

end Declaring

/-! ### Importing -/

section Importing

variable (indexed : target.IndexedBy elements) (hsource : source.Coherent)

include indexed hsource

theorem indexedBy_importType {id result : String}
    (h : importType source id target = .ok (after, result)) : after.IndexedBy elements := by
  have hrun := (leaves_importTypeGuarded source _ [] id).of_ok (InPlace.commit_eq_ok_iff.mp h)
  exact (indexedBy_fetches indexed hsource hrun.1).1

theorem indexedBy_importOperand (h : importOperand source node target = .ok (after, copy)) :
    after.IndexedBy elements ∧ [copy].Nodup ∧ ∀ found ∈ [copy], after.document.contains found ∧
      after.document.parent? found = none :=
  indexedBy_fetches indexed hsource (fetches_importOperand (InPlace.commit_eq_ok_iff.mp h))

end Importing

theorem grown_assemble (forest : doc.Forest) (kind : Kind) (shape : BoundShape)
    {operands : List NodeId} {holder : NodeId} (hholder : doc.contains holder)
    (hnodup : operands.Nodup) (hoperands : ∀ operand ∈ operands, doc.contains operand ∧
      doc.parent? operand = none) :
    (assemble doc kind shape operands).1.Forest ∧
      Grown doc (assemble doc kind shape operands).1 holder [] := by
  have gathered := gathered_assemble forest kind shape hnodup fun operand hoperand ↦
    (hoperands operand hoperand).1
  have hold {x : NodeId} (hx : doc.contains x) :=
    (forest.planted_plant (shape.frame kind)).readings_old (index_lt_size hx)
  have hchildren {x : NodeId} (hx : doc.contains x) :
      (assemble doc kind shape operands).1.children x = doc.children x := by
    rw [gathered.children_of_ne x (attachable_holder forest kind shape hx).2.1, (hold hx).2.2.2]
    refine filter_eq_self.mpr fun child hchild ↦ decide_eq_true fun hmem ↦ ?_
    cases (hoperands child hmem).2.symm.trans (forest.parent?_of_mem hchild)
  exact ⟨gathered.forest, fun x hx ↦ (gathered.contains_eq x).trans ((hold hx).1.trans hx),
    fun x hx ↦ (gathered.label_eq x).trans (hold hx).2.1, fun x hx _ ↦ hchildren hx,
    (hchildren hholder).trans (append_nil _).symm⟩

theorem indexedBy_importBound (indexed : target.IndexedBy elements) (hsource : source.Coherent)
    {bound : NodeId} (h : importBoundInPlace source bound target = .ok copy after) :
    after.IndexedBy elements := by
  obtain ⟨shape, imported, operands, -, himported, rfl, -⟩ := importBoundInPlace_eq_ok h
  obtain ⟨hindexed, hnodup, hoperands⟩ :=
    indexedBy_fetches indexed hsource (fetches_importOperands himported)
  obtain ⟨hforest, hgrown⟩ := grown_assemble hindexed.forest (source.document.kind bound) shape
    hindexed.contains_types hnodup hoperands
  exact hindexed.of_kept hforest hgrown

end Import

namespace SourceUnit

open Import

/-! ### The tables of a unit stay an index -/

/-- The tables of a unit are an index of its document when it is read, after any node that hangs
nowhere was offered to one of them, and after imports from other such units. The types have
different identifiers, and each is found under its own. A node that a table takes hangs last below
its element; one that it refuses leaves the unit as it is. -/
theorem coherent_of_read_offer_import :
    (∀ role text unit, SourceUnit.read role text = .ok unit → unit.Coherent) ∧
      ∀ unit elements, unit.IndexedBy elements →
        ((unit.types.entries.map TypeEntry.id).Nodup ∧
          ∀ entry ∈ unit.types.entries, unit.types.get? entry.id = some entry) ∧
        (∀ node table, unit.Insertable elements node table →
          (unit.offer node table).IndexedBy elements ∧
          (unit.Takes node table → (unit.offer node table).document.children (elements.get table) =
            unit.document.children (elements.get table) ++ [node]) ∧
          (¬ unit.Takes node table → unit.offer node table = unit ∧
            (unit.offer node table).document.parent? node = none)) ∧
        ∀ source, source.Coherent →
          (∀ id after result, importType source id unit = .ok (after, result) →
            after.IndexedBy elements) ∧
          (∀ node after copy, importOperand source node unit = .ok (after, copy) →
            after.IndexedBy elements) ∧
          ∀ bound after copy, importBound source bound unit = .ok (after, copy) →
            after.IndexedBy elements := by
  refine ⟨fun role text unit ↦ coherent_of_read, fun unit elements indexed ↦
    ⟨⟨indexed.nodup_ids, fun entry ↦ indexed.get?_id⟩, ?_, ?_⟩⟩
  · intro node table insertable
    refine ⟨indexed.offer insertable, indexed.children_offer insertable, fun hrefused ↦ ?_⟩
    rw [indexed.offer_of_not_takes hrefused]
    exact ⟨rfl, insertable.parent?_eq_none⟩
  · intro source hsource
    exact ⟨fun id after result ↦ indexedBy_importType indexed hsource,
      fun node after copy h ↦ (indexedBy_importOperand indexed hsource h).1,
      fun bound after copy h ↦
        indexedBy_importBound indexed hsource (InPlace.commit_eq_ok_iff.mp h)⟩

/-- A program whose type table stands among the declarations, beside a node of the tag that names a
type and hangs nowhere. -/
def nestedTypeTable (tag : String) : SourceUnit :=
  let program : Element := .branch "XcodeProgram"
    [.branch "globalSymbols" [], .branch "globalDeclarations" [.branch "typeTable" []]]
  let doc := ((Document.ofElement program).1.create
    { tag, attributes := [("type", "T1")], text? := some "n" }).1
  withTables .program doc ⟨0⟩ { types := ⟨3⟩, symbols := ⟨1⟩, declarations := ⟨2⟩ }

theorem indexedBy_nestedTypeTable (tag : String) :
    (nestedTypeTable tag).IndexedBy { types := ⟨3⟩, symbols := ⟨1⟩, declarations := ⟨2⟩ } :=
  indexedBy_withTables ((Document.forest_ofElement _).create _) ⟨rfl, rfl⟩ ⟨rfl, rfl⟩ ⟨rfl, rfl⟩

/-- A module with an array type whose bounds are a constant and the sum of a variable and a
constant. -/
def gridModule : SourceUnit :=
  let range : Element := .range (.typed "FintConstant" "Fint" "1")
    (.branch "plusExpr" [.typed "Var" "K" "n", .typed "FintConstant" "K" "1"])
  let grid : Element := .moduleFile [.basicType "K" "Fint" [], .basicType "A" "K" [range]]
    [.symbol "n" "K"] [.declaration "n" "K"]
  withTables (.module "grid") (Document.ofElement grid).1 ⟨0⟩
    { types := ⟨1⟩, symbols := ⟨11⟩, declarations := ⟨14⟩ }

theorem indexedBy_gridModule :
    gridModule.IndexedBy { types := ⟨1⟩, symbols := ⟨11⟩, declarations := ⟨14⟩ } :=
  indexedBy_withTables (Document.forest_ofElement _) ⟨rfl, rfl⟩ ⟨rfl, rfl⟩ ⟨rfl, rfl⟩

theorem coherent_of_read_offer_import_of_gridModule :
    (nestedTypeTable "FbasicType").Insertable
        { types := ⟨3⟩, symbols := ⟨1⟩, declarations := ⟨2⟩ } ⟨4⟩ .types ∧
      ((nestedTypeTable "FbasicType").offer ⟨4⟩ .types).IndexedBy
        { types := ⟨3⟩, symbols := ⟨1⟩, declarations := ⟨2⟩ } ∧
      ∃ after copy, importBound gridModule ⟨7⟩ (nestedTypeTable "FbasicType") = .ok (after, copy) ∧
        after.IndexedBy { types := ⟨3⟩, symbols := ⟨1⟩, declarations := ⟨2⟩ } := by
  have hinsertable : (nestedTypeTable "FbasicType").Insertable
      { types := ⟨3⟩, symbols := ⟨1⟩, declarations := ⟨2⟩ } ⟨4⟩ .types := by
    refine ⟨by decide +kernel, by decide, ?_, fun _ _ ↦ by decide +kernel⟩
    rw [← (indexedBy_nestedTypeTable _).forest.isAncestor_iff]
    decide +kernel
  obtain ⟨-, hoffer, himport⟩ :=
    coherent_of_read_offer_import.2 _ _ (indexedBy_nestedTypeTable "FbasicType")
  obtain ⟨-, -, hbound⟩ := himport gridModule ⟨_, indexedBy_gridModule⟩
  obtain ⟨⟨after, copy⟩, hok⟩ : ∃ result,
      importBound gridModule ⟨7⟩ (nestedTypeTable "FbasicType") = .ok result := by
    have htrue : (importBound gridModule ⟨7⟩ (nestedTypeTable "FbasicType")).toBool = true := by
      decide +kernel
    cases h : importBound gridModule ⟨7⟩ (nestedTypeTable "FbasicType") with
    | error cause => simp [h, Except.toBool] at htrue
    | ok result => exact ⟨result, rfl⟩
  exact ⟨hinsertable, (hoffer _ _ hinsertable).1, after, copy, hok, hbound _ _ _ hok⟩

def looseTypeTable : SourceUnit :=
  let program : Element := .branch "XcodeProgram"
    [.marked "typeTable" [("type", "T1")] [], .branch "globalSymbols" [],
     .branch "globalDeclarations" []]
  let doc := (Document.ofElement program).1.detach ⟨1⟩
  withTables .program doc ⟨0⟩ { types := ⟨1⟩, symbols := ⟨2⟩, declarations := ⟨3⟩ }

theorem indexedBy_looseTypeTable :
    looseTypeTable.IndexedBy { types := ⟨1⟩, symbols := ⟨2⟩, declarations := ⟨3⟩ } :=
  indexedBy_withTables ((Document.forest_ofElement _).detach _) ⟨rfl, rfl⟩ ⟨rfl, rfl⟩ ⟨rfl, rfl⟩

/-- A name that is put into a type table among the declarations turns the table into a declaration,
and a type table that is put into itself is recorded but does not move. -/
theorem not_coherent_offer :
    ((nestedTypeTable "name").Coherent ∧ (nestedTypeTable "name").types.element? = some ⟨3⟩ ∧
      (nestedTypeTable "name").document.parent? ⟨4⟩ = none ∧
      ¬ (nestedTypeTable "name").document.Above ⟨4⟩ ⟨3⟩ ∧
      ¬ ((nestedTypeTable "name").offer ⟨4⟩ .types).Coherent) ∧
    looseTypeTable.Coherent ∧ looseTypeTable.types.element? = some ⟨1⟩ ∧
      looseTypeTable.document.parent? ⟨1⟩ = none ∧
      ¬ looseTypeTable.document.Above ⟨1⟩ ⟨1⟩ ∧
      ¬ (looseTypeTable.offer ⟨1⟩ .types).Coherent := by
  refine ⟨⟨⟨_, indexedBy_nestedTypeTable _⟩, rfl, rfl, ?_, ?_⟩, ⟨_, indexedBy_looseTypeTable⟩, rfl,
    rfl, not_above_of_parent?_eq_none rfl, ?_⟩
  · rw [← (indexedBy_nestedTypeTable _).forest.isAncestor_iff]
    decide +kernel
  · rintro ⟨elements, indexed⟩
    have helement : some elements.declarations = some ⟨2⟩ := indexed.element?_declarations.symm
    have hread := indexed.declarations
    rw [Option.some.inj helement] at hread
    revert hread
    decide +kernel
  · rintro ⟨elements, indexed⟩
    have helement : some elements.types = some ⟨1⟩ := indexed.element?_types.symm
    have hread := indexed.types
    rw [Option.some.inj helement] at hread
    revert hread
    decide +kernel

end SourceUnit

end LoopDirectives
