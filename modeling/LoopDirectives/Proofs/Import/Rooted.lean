import LoopDirectives.Proofs.Import.Steps
import LoopDirectives.Proofs.Table.Reading

/-!
# Imports leave nothing behind

Every copy that an import makes ends up in a table, or in the bounds of the loop, or is deleted
again: a type enters its table, because the copy carries its identifier; a symbol does, because the
copy is read as the symbol of the module is, and its name is free; a declaration that is refused
goes away. `Import.Tidy` is what all steps of an import keep, for a module whose symbols are those
that its elements declare (`SourceUnit.Readable`).
-/

namespace LoopDirectives

open Document List

/-! ### Copies -/

namespace Document

variable {doc before after : Document} {copy table x : NodeId} {roots : List NodeId}

namespace Copied

variable {source : Document} (copied : Copied source doc after copy)
  (forest : doc.Forest)

include copied forest

theorem forest_after : after.Forest :=
  Scope.Steps.forest forest (copied.steps forest.guards_fresher)

theorem contains_copy : after.contains copy := by
  obtain ⟨_, _, -, -, hretypes⟩ := copied.exists_retypes
  rw [(hretypes.readings copy).1, copied.copy_eq]
  exact (forest.planted_plant _).contains_root (mem_singleton_self _)

theorem contains_old (hx : doc.contains x) : after.contains x :=
  (forest.readings_of_steps (copied.steps forest.guards_fresher) hx).1

theorem not_above (hx : doc.contains x) : copy ≠ x ∧ ¬ after.Above copy x :=
  forest.not_above_of_steps (copied.steps forest.guards_fresher) hx copied.le_index

section

variable (rooted : doc.RootedAt roots)

include rooted

theorem rootedAt : after.RootedAt (copy :: roots) := by
  obtain ⟨_, _, -, -, hretypes⟩ := copied.exists_retypes
  intro y hlive hparent
  rw [(hretypes.readings y).1] at hlive
  rw [(hretypes.readings y).2.1] at hparent
  rw [copied.copy_eq]
  exact forest.rootedAt_plant rooted _ y hlive hparent

theorem rootedAt_append (htable : doc.contains table) :
    (after.append table copy).RootedAt roots := by
  have hforest := copied.forest_after forest
  obtain ⟨hne, habove⟩ := copied.not_above forest htable
  exact hforest.rootedAt_append_of_canAttach (copied.rootedAt forest rooted)
    (hforest.canAttach_of_not_above (copied.contains_copy forest)
      (copied.contains_old forest htable) hne habove)

theorem rootedAt_delete : (after.delete copy).RootedAt roots :=
  (copied.forest_after forest).rootedAt_delete (copied.rootedAt forest rooted)

end

end Copied

/-! ### Reading a copy -/

theorem Forest.element_relabel_self (forest : doc.Forest) {id : NodeId}
    (hid : doc.contains id) (change : Label → Label) :
    (doc.relabel id change).element id =
      .node (change (doc.label id)) (doc.element id).branches := by
  rw [(forest.relabel id change).element_eq, label_relabel_self _ _ _ hid, children_relabel,
    forest.element_eq, Tree.branches]
  refine congrArg (Tree.node _) (map_congr_left fun child hchild ↦ ?_)
  refine forest.element_congr (forest.relabel id change) fun y hy ↦ ⟨?_, children_relabel ..⟩
  refine label_relabel_of_ne _ _ _ ?_
  rintro rfl
  exact forest.not_mem_subtree_of_parent? (forest.parent?_of_mem hchild) hy

theorem Forest.childOf?_element (forest : doc.Forest) (id : NodeId) (wanted : Kind) :
    (doc.element id).childOf? wanted = (doc.childOf? id wanted).map doc.element := by
  have htest : (fun child : Element ↦ child.value.kind == wanted) ∘ doc.element =
      (doc.isKind · wanted) := by
    funext child
    rw [Function.comp_apply, forest.value_element]
    rfl
  rw [forest.element_eq, Element.childOf?, Tree.branches, find?_map, htest]
  rfl

theorem Forest.map_text_childOf? (forest : doc.Forest) (id : NodeId) (wanted : Kind) :
    (doc.childOf? id wanted).map doc.text =
      ((doc.element id).childOf? wanted).map Element.text := by
  have htext : Element.text ∘ doc.element = doc.text := by
    funext child
    exact congrArg Label.text (forest.value_element child)
  rw [forest.childOf?_element, Option.map_map, htext]

theorem childOf?_setAttribute (doc : Document) (id : NodeId) (name value : String) (x : NodeId)
    (wanted : Kind) :
    (doc.setAttribute id name value).childOf? x wanted = doc.childOf? x wanted := by
  simp only [childOf?, isKind, kind_setAttribute]
  rw [setAttribute, children_relabel]

end Document

namespace Symbol

variable {doc : Document}

theorem node_eq_of_read? {node : NodeId} {symbol : Symbol}
    (h : Symbol.read? doc node = some symbol) : symbol.node = node := by
  unfold Symbol.read? at h
  split at h
  · obtain ⟨_, -, rfl⟩ := Option.map_eq_some_iff.mp h
    rfl
  · cases h

def nameIn? (element : Element) : Option String :=
  if element.kind == .identifier then (element.childOf? .name).map Element.text else none

theorem read?_eq (forest : doc.Forest) (node : NodeId) :
    read? doc node = (nameIn? (doc.element node)).map fun name ↦
      { name
        type? := doc.typeId? node
        storage? := doc.attribute? node "sclass"
        node } := by
  have hkind : (doc.element node).kind = doc.kind node :=
    congrArg Label.kind (forest.value_element node)
  rw [nameIn?, hkind, ← forest.map_text_childOf?, read?, isKind]
  split
  · rw [Option.map_map]
    rfl
  · rfl

theorem read?_of_element_eq {other : Document} {node copy : NodeId} (forest : doc.Forest)
    (hother : other.Forest) (h : other.element copy = doc.element node) :
    read? other copy = (read? doc node).map ({ · with node := copy }) := by
  rw [read?_eq hother, read?_eq forest, h, Option.map_map, typeId?, attribute?, attribute?,
    forest.label_eq_of_element_eq hother h]
  rfl

theorem read?_setType {node : NodeId} {symbol : Symbol} (h : read? doc node = some symbol)
    (type? : Option String) :
    read? (Import.setType doc node type?) node =
      some { symbol with type? := type? <|> symbol.type? } := by
  cases type? with
  | none => exact h
  | some type =>
    have hlive := (contains_of_read? h).1
    unfold read? at h
    split at h
    · next hkind =>
      obtain ⟨name, hname, rfl⟩ := Option.map_eq_some_iff.mp h
      have hlabel : (doc.setAttribute node "type" type).label node =
          (doc.label node).setAttribute "type" type :=
        label_relabel_self _ _ _ hlive
      rw [Import.setType, read?, isKind, kind_setAttribute, ← isKind, if_pos hkind,
        childOf?_setAttribute, hname, Option.map_some, text_setAttribute, typeId?, attribute?,
        attribute?, hlabel, Label.attribute?_setAttribute_self,
        Label.attribute?_setAttribute_of_ne (by decide)]
      rfl
    · cases h

end Symbol

namespace Label

/-- The label of a type under another identifier, referring to another type if one is given. -/
def retyped (label : Label) (id : String) : Option String → Label
  | none => label.setAttribute "type" id
  | some reference => (label.setAttribute "type" id).setAttribute "ref" reference

theorem attribute?_retyped_type (label : Label) (id : String) (reference? : Option String) :
    (label.retyped id reference?).attribute? "type" = some id := by
  cases reference? with
  | none => exact attribute?_setAttribute_self ..
  | some reference =>
    rw [retyped, attribute?_setAttribute_of_ne (by decide), attribute?_setAttribute_self]

end Label

namespace Import

variable {doc : Document} {node : NodeId}

section

variable (hlive : doc.contains node) (id : String) (reference? : Option String)

include hlive

theorem label_setReference_self :
    (setReference (doc.setAttribute node "type" id) node reference?).label node =
      (doc.label node).retyped id reference? := by
  have hnamed := label_relabel_self doc node (·.setAttribute "type" id) hlive
  cases reference? with
  | none => exact hnamed
  | some reference =>
    have hlater : (doc.setAttribute node "type" id).contains node :=
      (contains_relabel ..).trans hlive
    exact (label_relabel_self _ _ _ hlater).trans (congrArg (·.setAttribute "ref" reference) hnamed)

theorem typeId?_setReference :
    (setReference (doc.setAttribute node "type" id) node reference?).typeId? node =
      some id := by
  rw [typeId?, attribute?, label_setReference_self hlive, Label.attribute?_retyped_type]

end

end Import

/-! ### Units that can take part in an import -/

namespace SourceUnit

/-- The document is a forest, the types are there, and the symbols are those that their elements
declare. -/
structure Readable (unit : SourceUnit) : Prop where
  forest : unit.document.Forest
  types : ∀ entry ∈ unit.types.entries, unit.document.contains entry.node = true
  read? : ∀ symbol ∈ unit.symbols.entries, Symbol.read? unit.document symbol.node = some symbol

theorem Readable.live {unit : SourceUnit} (readable : unit.Readable) : unit.Live :=
  ⟨readable.types, fun symbol hsymbol ↦
    (Symbol.contains_of_read? (readable.read? symbol hsymbol)).1⟩

structure HasTables (unit : SourceUnit) : Prop where
  types : ∃ table, unit.types.element? = some table ∧ unit.document.contains table = true
  symbols : ∃ table, unit.symbols.element? = some table ∧ unit.document.contains table = true
  declarations : ∃ table, unit.declarations.element? = some table ∧
    unit.document.contains table = true

theorem HasTables.get {unit : SourceUnit} (tables : unit.HasTables) (table : TableName) :
    ∃ element, unit.tableElement? table = some element ∧ unit.document.contains element := by
  cases table with
  | types => exact tables.types
  | symbols => exact tables.symbols
  | declarations => exact tables.declarations

theorem SamePlaces.hasTables {before after : SourceUnit} (same : SamePlaces before after)
    (tables : before.HasTables)
    (hlive : ∀ x, before.document.contains x → x ∈ before.tableNodes →
      after.document.contains x) : after.HasTables := by
  have hkept (table : TableName) :
      ∃ element, before.tableElement? table = some element ∧ after.document.contains element := by
    obtain ⟨element, helement, hcontains⟩ := tables.get table
    exact ⟨element, helement, hlive element hcontains (mem_tableNodes_of_eq_some helement)⟩
  obtain ⟨types, htypes, htypesLive⟩ := hkept .types
  obtain ⟨symbols, hsymbols, hsymbolsLive⟩ := hkept .symbols
  obtain ⟨declarations, hdeclarations, hdeclarationsLive⟩ := hkept .declarations
  exact ⟨⟨types, same.types.trans htypes, htypesLive⟩,
    ⟨symbols, same.symbols.trans hsymbols, hsymbolsLive⟩,
    ⟨declarations, same.declarations.trans hdeclarations, hdeclarationsLive⟩⟩

end SourceUnit

namespace Import

open SourceUnit

variable {source target before after unit : SourceUnit} {origin typed : Document} {copy : NodeId}
  {roots : List NodeId}

theorem serves_below (forest : unit.document.Forest) {nodes holders : List NodeId}
    (hnodes : ∀ node ∈ nodes, ∀ parent, unit.document.parent? node = some parent →
      parent ∈ holders) : Serves (Scope.below unit.document nodes holders unit.tableNodes) unit :=
  ⟨Scope.guards_below forest _ hnodes, fun _ htable _ hnew ↦ Or.inr (Or.inr ⟨htable, hnew⟩)⟩

/-- The scope of the nodes that a unit does not have yet, which its tables take. -/
abbrev newNodes (unit : SourceUnit) : Scope :=
  Scope.below unit.document [] [] unit.tableNodes

theorem serves_newNodes (forest : unit.document.Forest) : Serves (newNodes unit) unit :=
  serves_below forest fun _ hnode ↦ absurd hnode not_mem_nil

theorem not_inside_newNodes {x : NodeId} (hx : unit.document.contains x) :
    ¬ (newNodes unit).inside x := by
  simp [newNodes, Scope.inside_below_iff _ _ _ _ hx]

/-! ### Declarations leave no copy behind -/

section

variable (forest : target.document.Forest) (tables : target.HasTables)
  (rooted : target.document.RootedAt roots) (hcopied : Copied origin target.document typed copy)

include forest tables rooted hcopied

theorem rootedAt_enter {table : TableName} (htakes : table = .declarations ∨
      ({ target with document := typed }.insert? copy table).isSome) :
    (enter target typed copy table).document.RootedAt roots := by
  unfold enter
  cases hinsert : { target with document := typed }.insert? copy table with
  | none =>
    rw [hinsert] at htakes
    obtain rfl := htakes.resolve_right nofun
    exact hcopied.rootedAt_delete forest rooted
  | some after =>
    obtain ⟨-, element, helement, hdocument⟩ := insert?_eq_some hinsert
    obtain ⟨found, hfound, hlive⟩ := tables.get table
    cases hfound.symm.trans helement
    rw [Option.getD_some, hdocument]
    exact hcopied.rootedAt_append forest rooted hlive

end

theorem forest_setType {doc : Document} (forest : doc.Forest) (node : NodeId)
    (type? : Option String) : (setType doc node type?).Forest := by
  cases type? with
  | none => exact forest
  | some type => exact forest.relabel node (·.setAttribute "type" type)

theorem element_setType_copy (forest : target.document.Forest) (horigin : origin.Forest)
    {copied : Document} {node : NodeId}
    (hcopy : target.document.copyFrom? origin node = some (copied, copy))
    (type? : Option String) :
    (setType copied copy type?).element copy = (setType origin node type?).element node := by
  obtain ⟨hnode, hplant, rfl⟩ := copyFrom?_eq_some hcopy
  have hlive := (copied_of_copyFrom? hcopy).contains_copy forest
  have hforest := forest.copyFrom? hcopy
  have hsame : copied.element target.document.fresh = origin.element node := by
    rw [hplant, forest.element_plant]
  cases type? with
  | none => exact hsame
  | some type =>
    rw [setType, setAttribute, hforest.element_relabel_self hlive, ← hforest.value_element, hsame,
      setType, setAttribute, horigin.element_relabel_self hnode, horigin.value_element]

theorem read?_copy (forest : target.document.Forest) (hsource : source.Readable)
    {symbol : Symbol} (hsymbol : symbol ∈ source.symbols.entries) {copied : Document}
    (hcopy : target.document.copyFrom? source.document symbol.node = some (copied, copy))
    (type? : Option String) :
    Symbol.read? (setType copied copy type?) copy =
      some { symbol with type? := type? <|> symbol.type?, node := copy } := by
  rw [Symbol.read?_of_element_eq (forest_setType hsource.forest _ type?)
    (forest_setType (forest.copyFrom? hcopy) _ type?)
    (element_setType_copy forest hsource.forest hcopy type?),
    Symbol.read?_setType (hsource.read? symbol hsymbol), Option.map_some]

theorem rootedAt_declares (forest : before.document.Forest) (tables : before.HasTables)
    (rooted : before.document.RootedAt roots) (hsource : source.Readable)
    (declares : Declares source before after) : after.document.RootedAt roots := by
  cases declares with
  | type link id reference? _ _ =>
    rcases declare_cases source before link id reference? with
      ⟨-, heq⟩ | ⟨copied, copy, hcopy, heq⟩
    · rwa [heq]
    · rw [heq]
      have hlive := (copied_of_copyFrom? hcopy).contains_copy forest
      have hid := typeId?_setReference hlive id reference?
      obtain ⟨table, htable, -⟩ := tables.types
      exact rootedAt_enter forest tables rooted (copied_retyped hcopy id reference?)
        (Or.inr (by simp [insert?, TypeTable.insert?, htable, TypeEntry.read?, hid]))
  | symbol symbol type? hsymbol hfree =>
    rcases declareSymbol_cases source before symbol type? with
      ⟨-, heq⟩ | ⟨copied, copy, hcopy, heq⟩
    · rwa [heq]
    · rw [heq]
      have hread := read?_copy forest hsource hsymbol hcopy type?
      obtain ⟨table, htable, -⟩ := tables.symbols
      exact rootedAt_enter forest tables rooted (copied_setType hcopy type?)
        (Or.inr (by simp [insert?, SymbolTable.insert?, htable, hread, hfree]))
  | declaration symbol type? =>
    rcases declareVariable_cases source before symbol type? with
      heq | ⟨_, copied, copy, -, hcopy, heq⟩
    · rwa [heq]
    · rw [heq]
      exact rootedAt_enter forest tables rooted (copied_setNameType forest hcopy type?)
        (Or.inl rfl)

/-! ### What imports keep -/

/-- The document is a forest with its tables, and only the given nodes hang nowhere. -/
structure Tidy (unit : SourceUnit) (roots : List NodeId) : Prop where
  forest : unit.document.Forest
  tables : unit.HasTables
  rooted : unit.document.RootedAt roots

namespace Tidy

variable {others : List NodeId}

theorem of_extends {later : SourceUnit} (tidy : Tidy before roots)
    (hextends : Extends (newNodes before) before later) (rooted : later.document.RootedAt others) :
    Tidy later others := by
  obtain ⟨hguards, hspares⟩ := Scope.Steps.guards_and_spares
    (serves_newNodes tidy.forest).guards hextends.steps
  exact ⟨hguards.forest, hextends.same.hasTables tidy.tables fun x hx _ ↦
    hspares.contains x hx (not_inside_newNodes hx), rooted⟩

theorem mono (tidy : Tidy target roots) (hsubset : ∀ x ∈ roots, x ∈ others) : Tidy target others :=
  ⟨tidy.forest, tidy.tables, tidy.rooted.mono hsubset⟩

theorem declares (tidy : Tidy before roots) (hsource : source.Readable)
    (declares : Declares source before after) : Tidy after roots :=
  tidy.of_extends ((serves_newNodes tidy.forest).extends_declares declares)
    (rootedAt_declares tidy.forest tidy.tables tidy.rooted hsource declares)

theorem fetches {copies : List NodeId} (tidy : Tidy before roots) (hsource : source.Readable)
    (fetches : Fetches source before after copies) :
    Tidy after (copies ++ roots) ∧ ∀ copy ∈ copies, after.document.contains copy := by
  induction fetches generalizing roots with
  | nothing => exact ⟨tidy, by simp⟩
  | declares first _ ih => exact ih (tidy.declares hsource first)
  | @copies _ _ _ copy _ first rest ih =>
    have htidy := tidy.of_extends ((serves_newNodes tidy.forest).extends_copied first)
      (first.rootedAt tidy.forest tidy.rooted)
    have hcopy := first.contains_copy tidy.forest
    obtain ⟨hdone, hothers⟩ := ih htidy
    have hserves := serves_newNodes htidy.forest
    have hspares := Scope.Steps.spares hserves.guards (hserves.extends_fetches rest).1.steps
    exact ⟨hdone.mono fun x hx ↦ by simp_all [or_left_comm],
      forall_mem_cons.mpr ⟨hspares.contains copy hcopy (not_inside_newNodes hcopy), hothers⟩⟩

end Tidy

/-! ### Bounds -/

theorem attachable_holder {doc : Document} (forest : doc.Forest) (kind : Kind)
    (shape : BoundShape) {operand : NodeId} (hlive : doc.contains operand) :
    (doc.plant none (shape.frame kind)).1.contains operand ∧
      operand ≠ shape.holder doc ∧
      ¬ (doc.plant none (shape.frame kind)).1.Above operand (shape.holder doc) := by
  have planted := forest.planted_plant (shape.frame kind)
  have hnew := (shape.holder_new doc kind).1
  have hold := index_lt_size hlive
  refine ⟨(planted.readings_old hold).1.trans hlive, ?_, fun habove ↦ ?_⟩
  · rintro rfl
    exact Nat.not_lt.mpr hnew hold
  · exact Nat.not_lt.mpr ((planted.above_cases forest habove).2 hnew).1 hold

theorem gathered_assemble {doc : Document} (forest : doc.Forest) (kind : Kind)
    (shape : BoundShape) {operands : List NodeId} (hnodup : operands.Nodup)
    (hlive : ∀ operand ∈ operands, doc.contains operand) :
    Gathered (doc.plant none (shape.frame kind)).1 (assemble doc kind shape operands).1
      operands (shape.holder doc) := by
  obtain ⟨hnew, hlt⟩ := shape.holder_new doc kind
  rw [assemble_eq]
  exact (forest.plant _).gathered_appendAll ((forest.planted_plant _).contains_new _ hnew hlt)
    hnodup fun operand hoperand ↦ attachable_holder forest kind shape (hlive operand hoperand)

theorem rootedAt_assemble {doc : Document} (forest : doc.Forest) (kind : Kind)
    (shape : BoundShape) {operands : List NodeId} (rooted : doc.RootedAt (operands ++ roots))
    (hlive : ∀ operand ∈ operands, doc.contains operand) :
    (assemble doc kind shape operands).1.RootedAt (doc.fresh :: roots) := by
  have planted := forest.planted_plant (shape.frame kind)
  obtain ⟨hnew, hlt⟩ := shape.holder_new doc kind
  rw [assemble_eq]
  refine (forest.plant _).rootedAt_appendAll_of_not_above
    ((forest.rootedAt_plant rooted _).mono fun x hx ↦ ?_) (planted.contains_new _ hnew hlt)
    fun operand hoperand ↦ attachable_holder forest kind shape (hlive operand hoperand)
  simp only [mem_cons, mem_append] at hx ⊢
  rwa [or_left_comm]

theorem Tidy.importBound (tidy : Tidy target roots) (hsource : source.Readable) {bound : NodeId}
    (h : importBoundInPlace source bound target = .ok copy after) : Tidy after (copy :: roots) := by
  have hextends := (serves_newNodes tidy.forest).extends_importBound h
  obtain ⟨shape, imported, operands, -, himported, rfl, rfl⟩ := importBoundInPlace_eq_ok h
  obtain ⟨htidy, hlive⟩ := tidy.fetches hsource (fetches_importOperands himported)
  exact tidy.of_extends hextends.1 (rootedAt_assemble htidy.forest _ shape htidy.rooted hlive)

end Import

/-! ### The bounds of a loop -/

namespace BoundsImport

open Import

variable {plan : BoundsImport} {program later : SourceUnit} {range oldLower oldUpper : NodeId}
  {lower upper : NodeId} {roots : List NodeId}

theorem exists_bounds_of_isBounded {doc : Document} {loop : NodeId}
    (h : isBounded doc loop) :
    ∃ range lower upper, doc.childOf? loop .indexRange = some range ∧
      doc.childOf? range .lowerBound = some lower ∧
      doc.childOf? range .upperBound = some upper := by
  simp only [isBounded, Bool.and_eq_true, Option.isSome_iff_exists, path?_pair,
    Option.bind_eq_some_iff] at h
  obtain ⟨⟨lower, range, hrange, hlower⟩, upper, other, hother, hupper⟩ := h
  rw [hrange, Option.some.injEq] at hother
  exact ⟨range, lower, upper, hrange, hlower, hother ▸ hupper⟩

theorem replaceBounds_of_extends (forest : program.document.Forest)
    (hrange : program.document.childOf? plan.loop .indexRange = some range)
    (hlower : program.document.childOf? range .lowerBound = some oldLower)
    (hupper : program.document.childOf? range .upperBound = some oldUpper)
    (hextends : Extends (newNodes program) program later) :
    plan.replaceBounds later lower upper = .ok { later with
      document := (later.document.replace oldLower lower).replace oldUpper upper } := by
  have hspares := Scope.Steps.spares (serves_newNodes forest).guards hextends.steps
  have hfound {id child : NodeId} {kind : Kind}
      (h : program.document.childOf? id kind = some child) :
      later.document.childOf? id kind = some child :=
    hspares.childOf?_eq_some forest h
      (not_inside_newNodes (contains_of_mem_children (mem_children_of_childOf? h)))
      fun _ hmem ↦ not_inside_newNodes (forest.contains_child hmem)
  simp [replaceBounds, loopBounds, boundOf, path?_pair, hfound hrange, hfound hlower,
    hfound hupper, bind, Except.bind, pure, Except.pure]

theorem rootedAt_replace_both (forest : program.document.Forest)
    (hlower : program.document.childOf? range .lowerBound = some oldLower)
    (hupper : program.document.childOf? range .upperBound = some oldUpper)
    (himported : ∀ {scope : Scope}, Serves scope program → Extends scope program later ∧
      scope.size ≤ lower.index ∧ scope.size ≤ upper.index)
    (rooted : later.document.RootedAt (upper :: lower :: roots)) :
    ((later.document.replace oldLower lower).replace oldUpper upper).RootedAt roots := by
  have hlowerParent := forest.parent?_of_childOf? hlower
  have hupperParent := forest.parent?_of_childOf? hupper
  have hlowerLive := contains_of_parent? hlowerParent
  have hrangeLive := forest.contains_parent hlowerParent
  -- Everything up to the second replacement happens among new nodes and below the old lower bound.
  have serves :
      Serves (Scope.below program.document [oldLower] [range] program.tableNodes) program := by
    refine serves_below forest fun node hnode parent hparent ↦ ?_
    rw [mem_singleton.mp hnode, hlowerParent] at hparent
    simp [← Option.some.inj hparent]
  have hinside {x : NodeId} (hx : program.document.contains x) :
      (Scope.below program.document [oldLower] [range] program.tableNodes).inside x ↔
        x ∈ program.document.subtree oldLower := by
    simp [Scope.inside_below_iff _ _ _ _ hx]
  obtain ⟨hextends, hnewLower, hnewUpper⟩ := himported serves
  have hreplaced := hextends.steps.trans (Scope.steps_replace later.document
    ((hinside hlowerLive).mpr (forest.self_mem_subtree oldLower)) hnewLower)
  have hrangeOut := (hinside hrangeLive).not.mpr (forest.not_mem_subtree_of_parent? hlowerParent)
  have hupperOut : ¬ (Scope.below program.document [oldLower] [range] program.tableNodes).inside
      oldUpper := by
    rw [hinside (contains_of_parent? hupperParent)]
    refine (forest.apart_of_parent? hupperParent hlowerParent ?_).1
    rintro rfl
    simpa [kind_of_childOf? hlower] using kind_of_childOf? hupper
  have hparent : later.document.parent? oldLower = some range :=
    ((Scope.Steps.spares (serves_newNodes forest).guards
      (himported (serves_newNodes forest)).1.steps).parent? oldLower hlowerLive
      (not_inside_newNodes hlowerLive)).trans hlowerParent
  have hswapped : later.document.RootedAt (lower :: upper :: roots) :=
    rooted.mono fun x hx ↦ by simpa [or_left_comm] using hx
  obtain ⟨hguards, hspares⟩ := Scope.Steps.guards_and_spares serves.guards hextends.steps
  have hfirst := hspares.not_above_of_new serves.guards hrangeLive hrangeOut hnewLower
  have hrooted := hguards.forest.rootedAt_replace hswapped hparent hfirst.1 hfirst.2
  obtain ⟨hguards, hspares⟩ := Scope.Steps.guards_and_spares serves.guards hreplaced
  have hsecond := hspares.not_above_of_new serves.guards hrangeLive hrangeOut hnewUpper
  exact hguards.forest.rootedAt_replace hrooted
    ((hspares.parent? oldUpper (contains_of_parent? hupperParent) hupperOut).trans hupperParent)
    hsecond.1 hsecond.2

theorem rootedAt_performFrom {unit : SourceUnit} (tidy : Tidy program roots)
    (hsource : unit.Readable) (hbounded : isBounded program.document plan.loop) :
    (plan.performFrom unit program).state.document.RootedAt roots := by
  unfold performFrom
  split
  · exact tidy.rooted
  · split
    · next hlower =>
      obtain rfl := eq_of_importBoundInPlace_error hsource.live hlower
      exact tidy.rooted
    · next lower withLower hlower =>
      have htidyLower := tidy.importBound hsource hlower
      split
      · next hupper =>
        obtain rfl := eq_of_importBoundInPlace_error hsource.live hupper
        exact htidyLower.forest.rootedAt_delete htidyLower.rooted
      · next upper withBoth hupper =>
        have htidyBoth := htidyLower.importBound hsource hupper
        have himported {scope : Scope} (serves : Serves scope program) :
            Extends scope program withBoth ∧ scope.size ≤ lower.index ∧
              scope.size ≤ upper.index := by
          obtain ⟨hfirst, hnewLower⟩ := serves.extends_importBound hlower
          obtain ⟨hsecond, hnewUpper⟩ := (serves.extends hfirst).extends_importBound hupper
          exact ⟨hfirst.trans hsecond, hnewLower, hnewUpper⟩
        obtain ⟨range, oldLower, oldUpper, hrange, holdLower, holdUpper⟩ :=
          exists_bounds_of_isBounded hbounded
        rw [replaceBounds_of_extends tidy.forest hrange holdLower holdUpper
          (himported (serves_newNodes tidy.forest)).1]
        exact rootedAt_replace_both tidy.forest holdLower holdUpper himported htidyBoth.rooted

end BoundsImport

end LoopDirectives
