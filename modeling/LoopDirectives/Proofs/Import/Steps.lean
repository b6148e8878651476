import Mathlib.Data.List.ReduceOption
import LoopDirectives.Proofs.Document.Every
import LoopDirectives.Proofs.Import.Chain
import LoopDirectives.Proofs.Transformation.Steps
import LoopDirectives.Transformation.BoundsImport

/-!
# Importing keeps to a scope

An import copies elements of another unit, relabels the copies and puts them at the end of the
tables of the program. `Import.Extends` says that a unit is reached from another one by edits that
keep to a scope, with its tables where they were; every step of an import is of this kind, for any
scope whose tables admit new nodes.
-/

namespace LoopDirectives

open Document List

namespace SourceUnit

variable {before after : SourceUnit}

def tableNodes (unit : SourceUnit) : List NodeId :=
  [unit.types.element?, unit.symbols.element?, unit.declarations.element?].reduceOption

/-- The second unit has its root and its tables where the first one has them. -/
structure SamePlaces (before after : SourceUnit) : Prop where
  role : after.role = before.role
  root : after.root = before.root
  types : after.types.element? = before.types.element?
  symbols : after.symbols.element? = before.symbols.element?
  declarations : after.declarations.element? = before.declarations.element?

theorem SamePlaces.refl (unit : SourceUnit) : SamePlaces unit unit :=
  ⟨rfl, rfl, rfl, rfl, rfl⟩

theorem SamePlaces.trans {middle : SourceUnit} (first : SamePlaces before middle)
    (second : SamePlaces middle after) : SamePlaces before after :=
  ⟨second.role.trans first.role, second.root.trans first.root, second.types.trans first.types,
    second.symbols.trans first.symbols, second.declarations.trans first.declarations⟩

theorem SamePlaces.tableNodes_eq (same : SamePlaces before after) :
    after.tableNodes = before.tableNodes := by
  rw [tableNodes, same.types, same.symbols, same.declarations, tableNodes]

theorem mem_tableNodes {unit : SourceUnit} {table : NodeId} :
    table ∈ unit.tableNodes ↔ unit.types.element? = some table ∨
      unit.symbols.element? = some table ∨ unit.declarations.element? = some table := by
  simp [tableNodes, reduceOption_mem_iff, eq_comm]

end SourceUnit

/-! ### Copies with changed labels -/

namespace Document

variable {doc before after : Document} {id node : NodeId}

/-- The second document comes from the first by giving types to a node. -/
abbrev Retypes (node : NodeId) : Document → Document → Prop :=
  Relation.ReflTransGen fun before after ↦ ∃ name value,
    name ∈ ["type", "ref"] ∧ after = before.setAttribute node name value

theorem Retypes.steps {scope : Scope} (hnode : scope.inside node)
    (retypes : Retypes node before after) : scope.Steps before after := by
  induction retypes with
  | refl => exact .refl
  | tail _ step ih =>
    obtain ⟨_, _, -, rfl⟩ := step
    exact ih.tail (.relabel _ node _ hnode)

theorem Retypes.readings (retypes : Retypes node before after) (x : NodeId) :
    after.contains x = before.contains x ∧ after.parent? x = before.parent? x ∧
      (x ≠ node → after.label x = before.label x) := by
  induction retypes with
  | refl => exact ⟨rfl, rfl, fun _ ↦ rfl⟩
  | tail _ step ih =>
    obtain ⟨_, _, -, rfl⟩ := step
    rw [setAttribute, contains_relabel, parent?_relabel]
    exact ⟨ih.1, ih.2.1, fun hx ↦ (label_relabel_of_ne _ _ _ hx).trans (ih.2.2 hx)⟩

/-- A copy of an element of another document, in which one node may get types. -/
structure Copied (source doc after : Document) (copy : NodeId) : Prop where
  copy_eq : copy = doc.fresh
  exists_retypes : ∃ id node, source.contains id = true ∧ doc.slots.size ≤ node.index ∧
    Retypes node (doc.plant none (source.element id)).1 after

section

variable {source : Document} {copy : NodeId}
  (h : doc.copyFrom? source id = some (before, copy))

include h

theorem copied_of_retypes (hnode : doc.slots.size ≤ node.index)
    (retypes : Retypes node before after) : Copied source doc after copy := by
  obtain ⟨hlive, hplant, hcopy⟩ := copyFrom?_eq_some h
  exact ⟨hcopy, id, node, hlive, hnode, hplant ▸ retypes⟩

theorem le_index_of_copyFrom? : doc.slots.size ≤ copy.index :=
  (copyFrom?_eq_some h).2.2 ▸ Nat.le_refl _

theorem copied_of_copyFrom? : Copied source doc before copy :=
  copied_of_retypes h (le_index_of_copyFrom? h) .refl

end

namespace Copied

variable {source : Document} {copy : NodeId} {scope : Scope}
  (copied : Copied source doc before copy)

include copied

theorem le_index : doc.slots.size ≤ copy.index := by
  rw [copied.copy_eq]
  exact Nat.le_refl _

theorem steps (guards : scope.Guards doc) : scope.Steps doc before := by
  obtain ⟨_, node, -, hnode, hretypes⟩ := copied.exists_retypes
  exact .head (.plant doc _)
    (hretypes.steps (scope.inside_of_new node (guards.size_le.trans hnode)))

theorem inside_copy (guards : scope.Guards doc) : scope.inside copy :=
  scope.inside_of_new copy (Nat.le_trans guards.size_le copied.le_index)

end Copied

end Document

/-! ### Entries of tables -/

namespace SourceUnit

inductive TableName where
  | types
  | symbols
  | declarations
  deriving DecidableEq

/-- The unit with a node put into one of its tables, if the table takes it. -/
def insert? (unit : SourceUnit) (node : NodeId) : TableName → Option SourceUnit
  | .types => (unit.types.insert? unit.document node).map fun result =>
      { unit with types := result.1, document := result.2.1 }
  | .symbols => (unit.symbols.insert? unit.document node).map fun result =>
      { unit with symbols := result.1, document := result.2.1 }
  | .declarations => (unit.declarations.insert? unit.document node).map fun result =>
      { unit with declarations := result.1, document := result.2 }

def tableElement? (unit : SourceUnit) : TableName → Option NodeId
  | .types => unit.types.element?
  | .symbols => unit.symbols.element?
  | .declarations => unit.declarations.element?

variable {unit after : SourceUnit} {node element : NodeId} {table : TableName}

theorem mem_tableNodes_of_eq_some (h : unit.tableElement? table = some element) :
    element ∈ unit.tableNodes := by
  rw [mem_tableNodes]
  cases table with
  | types => exact Or.inl h
  | symbols => exact Or.inr (Or.inl h)
  | declarations => exact Or.inr (Or.inr h)

theorem insert?_types_eq_some (h : unit.insert? node .types = some after) :
    ∃ element entry, unit.types.element? = some element ∧
      TypeEntry.read? unit.document node = some entry ∧
      after = { unit with
        types := unit.types.push entry
        document := unit.document.append element node } := by
  obtain ⟨_, hinsert, rfl⟩ := Option.map_eq_some_iff.mp h
  obtain ⟨element, helement, hinsert⟩ := Option.bind_eq_some_iff.mp hinsert
  obtain ⟨entry, hentry, hinsert⟩ := Option.bind_eq_some_iff.mp hinsert
  cases hinsert
  exact ⟨element, entry, helement, hentry, rfl⟩

theorem insert?_symbols_eq_some (h : unit.insert? node .symbols = some after) :
    ∃ element symbol, unit.symbols.element? = some element ∧
      Symbol.read? unit.document node = some symbol ∧
      after = { unit with
        symbols := { unit.symbols with entries := unit.symbols.entries ++ [symbol] }
        document := unit.document.append element node } := by
  obtain ⟨_, hinsert, rfl⟩ := Option.map_eq_some_iff.mp h
  obtain ⟨element, helement, hinsert⟩ := Option.bind_eq_some_iff.mp hinsert
  obtain ⟨symbol, hsymbol, hinsert⟩ := Option.bind_eq_some_iff.mp hinsert
  split at hinsert
  · cases hinsert
  · cases hinsert
    exact ⟨element, symbol, helement, hsymbol, rfl⟩

theorem insert?_declarations_eq_some (h : unit.insert? node .declarations = some after) :
    ∃ element declaration, unit.declarations.element? = some element ∧
      Declaration.read? unit.document node = some declaration ∧
      unit.declarations.contains declaration.name = false ∧
      after = { unit with
        declarations := unit.declarations.push declaration
        document := unit.document.append element node } := by
  obtain ⟨_, hinsert, rfl⟩ := Option.map_eq_some_iff.mp h
  obtain ⟨element, helement, hinsert⟩ := Option.bind_eq_some_iff.mp hinsert
  obtain ⟨declaration, hdeclaration, hinsert⟩ := Option.bind_eq_some_iff.mp hinsert
  split at hinsert
  · cases hinsert
  · next hfree =>
    cases hinsert
    exact ⟨element, declaration, helement, hdeclaration, Bool.not_eq_true _ ▸ hfree, rfl⟩

theorem insert?_eq_some (h : unit.insert? node table = some after) :
    SamePlaces unit after ∧ ∃ element, unit.tableElement? table = some element ∧
      after.document = unit.document.append element node := by
  cases table with
  | types =>
    obtain ⟨element, _, helement, -, rfl⟩ := insert?_types_eq_some h
    exact ⟨⟨rfl, rfl, rfl, rfl, rfl⟩, element, helement, rfl⟩
  | symbols =>
    obtain ⟨element, _, helement, -, rfl⟩ := insert?_symbols_eq_some h
    exact ⟨⟨rfl, rfl, rfl, rfl, rfl⟩, element, helement, rfl⟩
  | declarations =>
    obtain ⟨element, _, helement, -, -, rfl⟩ := insert?_declarations_eq_some h
    exact ⟨⟨rfl, rfl, rfl, rfl, rfl⟩, element, helement, rfl⟩

end SourceUnit

/-! ### Fresh identifiers -/

namespace TypeTable

variable {table : TypeTable} {base id : String}

theorem contains_eq_false_iff :
    table.contains id = false ↔ ∀ entry ∈ table.entries, entry.id ≠ id := by
  rw [contains, Option.isSome_eq_false_iff, Option.isNone_iff_eq_none]
  simp [get?]

theorem candidateId_injective (base : String) : Function.Injective (candidateId base) := by
  intro first second h
  have htext := (String.append_right_inj _).mp h
  rw [Nat.toString_eq_ofList_toDigits, Nat.toString_eq_ofList_toDigits, String.ofList_inj] at htext
  rw [← @Nat.ofDigitChars_ten_toDigits first, htext, Nat.ofDigitChars_ten_toDigits]

theorem freshId_spec (table : TypeTable) (base : String) :
    ∃ number, 1 ≤ number ∧ number ≤ table.entries.length + 1 ∧
      table.freshId base = candidateId base number ∧
      table.contains (candidateId base number) = false ∧
      ∀ smaller, 1 ≤ smaller → smaller < number → table.contains (candidateId base smaller) := by
  rw [freshId, find?_map]
  cases hfind : (List.range (table.entries.length + 1)).find? _ with
  | some number =>
    obtain ⟨hfree, hmem, htaken⟩ := find?_range_eq_some.mp hfind
    refine ⟨number + 1, by omega, mem_range.mp hmem, rfl, by simpa using hfree,
      fun smaller hpos hlt ↦ ?_⟩
    obtain ⟨previous, rfl⟩ := Nat.exists_eq_add_of_le' hpos
    simpa using htaken previous (by omega)
  | none =>
    -- More candidates than there are entries, all different, cannot all be in the table.
    exfalso
    have hnodup : ((List.range (table.entries.length + 1)).map
        fun number ↦ candidateId base (number + 1)).Nodup :=
      nodup_range.map fun first second heq ↦
        Nat.succ_injective (candidateId_injective base heq)
    have hsubset : (List.range (table.entries.length + 1)).map
        (fun number ↦ candidateId base (number + 1)) ⊆ table.entries.map TypeEntry.id := by
      intro id hid
      obtain ⟨number, hnumber, rfl⟩ := mem_map.mp hid
      have htaken := find?_eq_none.mp hfind number hnumber
      by_contra hfree
      refine htaken ?_
      rw [Function.comp, Bool.not_eq_true', contains_eq_false_iff]
      exact fun entry hentry heq ↦ hfree (mem_map.mpr ⟨entry, hentry, heq⟩)
    have hlength := (subperm_of_subset hnodup hsubset).length_le
    rw [length_map, length_map, length_range] at hlength
    exact Nat.not_succ_le_self _ hlength

theorem get?_of_entries {later : TypeTable} {entry : TypeEntry}
    (hentries : table.entries <+: later.entries) (h : table.get? id = some entry) :
    later.get? id = some entry := by
  obtain ⟨added, hadded⟩ := hentries
  rw [get?, ← hadded, find?_append, ← get?, h, Option.some_or]

end TypeTable

namespace Import

open SourceUnit (TableName)

variable {scope : Scope} {source target before after : SourceUnit}
  {origin doc copied : Document} {copy node bound : NodeId} {copies : List NodeId}

theorem contains_newId (target : SourceUnit) (id : String) :
    target.types.contains (newId target id) = false := by
  unfold newId
  split
  · obtain ⟨_, -, -, hid, hfree, -⟩ := target.types.freshId_spec id
    rw [hid, hfree]
  · next hfree => exact Bool.not_eq_true _ ▸ hfree

/-! ### What declaring does -/

theorem retypes_setType (doc : Document) (node : NodeId) (type? : Option String) :
    Retypes node doc (setType doc node type?) := by
  cases type? with
  | none => exact .refl
  | some type => exact .single ⟨"type", type, by decide, rfl⟩

theorem copied_setType (h : doc.copyFrom? origin node = some (copied, copy))
    (type? : Option String) : Copied origin doc (setType copied copy type?) copy :=
  copied_of_retypes h (le_index_of_copyFrom? h) (retypes_setType copied copy type?)

theorem le_index_of_childOf?_copy {source : Document} {id child : NodeId} {kind : Kind}
    (forest : doc.Forest) (h : doc.copyFrom? source id = some (copied, copy))
    (hchild : copied.childOf? copy kind = some child) : doc.slots.size ≤ child.index := by
  obtain ⟨-, rfl, rfl⟩ := copyFrom?_eq_some h
  have hplanted := forest.planted_plant (source.element id)
  have hparent := (forest.plant (source.element id)).parent?_of_childOf? hchild
  rcases hplanted.parent?_cases hparent with ⟨-, hold⟩ | ⟨-, hnone⟩ | ⟨hle, hlt⟩
  · have hlive := forest.contains_parent hold
    rw [contains_fresh] at hlive
    cases hlive
  · cases hnone
  · exact Nat.le_trans hle (Nat.le_of_lt hlt)

def setReference (doc : Document) (node : NodeId) : Option String → Document
  | none => doc
  | some reference => doc.setAttribute node "ref" reference

theorem retypes_setReference (doc : Document) (node : NodeId) (id : String)
    (reference? : Option String) : Retypes node doc
      (setReference (doc.setAttribute node "type" id) node reference?) := by
  have hnamed : Retypes node doc (doc.setAttribute node "type" id) :=
    .single ⟨"type", id, by decide, rfl⟩
  cases reference? with
  | none => exact hnamed
  | some reference => exact hnamed.tail ⟨"ref", reference, by decide, rfl⟩

theorem copied_retyped (h : doc.copyFrom? origin node = some (copied, copy)) (id : String)
    (reference? : Option String) : Copied origin doc
      (setReference (copied.setAttribute copy "type" id) copy reference?) copy :=
  copied_of_retypes h (le_index_of_copyFrom? h) (retypes_setReference copied copy id reference?)

def enter (target : SourceUnit) (typed : Document) (copy : NodeId) (table : TableName) :
    SourceUnit :=
  ({ target with document := typed }.insert? copy table).getD
    { target with document := if table = TableName.declarations then typed.delete copy else typed }

theorem declare_cases (source target : SourceUnit) (link : TypeLink) (id : String)
    (reference? : Option String) :
    source.document.contains link.node = false ∧
        declare source target link id reference? = target ∨
      ∃ copied copy, target.document.copyFrom? source.document link.node = some (copied, copy) ∧
        declare source target link id reference? = enter target
          (setReference (copied.setAttribute copy "type" id) copy reference?) copy .types := by
  unfold declare
  split
  · next hnone => exact Or.inl ⟨by simpa [copyFrom?] using hnone, rfl⟩
  · next copied copy hcopy =>
    refine Or.inr ⟨copied, copy, hcopy, ?_⟩
    cases reference? <;> dsimp only [setReference] <;> split <;> next hinsert =>
      simp [enter, SourceUnit.insert?, hinsert]

theorem declareSymbol_cases (source target : SourceUnit) (symbol : Symbol)
    (type? : Option String) :
    source.document.contains symbol.node = false ∧
        declareSymbol source target symbol type? = target ∨
      ∃ copied copy, target.document.copyFrom? source.document symbol.node = some (copied, copy) ∧
        declareSymbol source target symbol type? =
          enter target (setType copied copy type?) copy .symbols := by
  unfold declareSymbol
  split
  · next hnone => exact Or.inl ⟨by simpa [copyFrom?] using hnone, rfl⟩
  · next copied copy hcopy =>
    refine Or.inr ⟨copied, copy, hcopy, ?_⟩
    dsimp only
    split <;> next hinsert => simp [enter, SourceUnit.insert?, hinsert]

def setNameType (copied : Document) (copy : NodeId) (type? : Option String) : Document :=
  match copied.childOf? copy .name with
  | none => copied
  | some name => setType copied name type?

section

variable {symbol : Symbol}

theorem declareVariable_eq_enter (hnode : source.declarations.get? symbol.name = some node)
    (hcopy : target.document.copyFrom? source.document node = some (copied, copy))
    (type? : Option String) : declareVariable source target symbol type? =
      enter target (setNameType copied copy type?) copy .declarations := by
  rw [declareVariable, hnode, Option.bind_some, hcopy]
  cases hname : copied.childOf? copy .name <;> simp only [hname, setNameType] <;> split <;>
    next hinsert => simp [enter, SourceUnit.insert?, hinsert]

theorem declareVariable_cases (source target : SourceUnit) (symbol : Symbol)
    (type? : Option String) :
    declareVariable source target symbol type? = target ∨
      ∃ node copied copy, source.declarations.get? symbol.name = some node ∧
        target.document.copyFrom? source.document node = some (copied, copy) ∧
        declareVariable source target symbol type? =
          enter target (setNameType copied copy type?) copy .declarations := by
  cases hcopy : (source.declarations.get? symbol.name).bind
      (target.document.copyFrom? source.document) with
  | none =>
    rw [declareVariable, hcopy]
    exact Or.inl rfl
  | some result =>
    obtain ⟨node, hnode, hcopy⟩ := Option.bind_eq_some_iff.mp hcopy
    exact Or.inr ⟨node, _, _, hnode, hcopy, declareVariable_eq_enter hnode hcopy type?⟩

end

theorem copied_setNameType (forest : doc.Forest)
    (hcopy : doc.copyFrom? origin node = some (copied, copy)) (type? : Option String) :
    Copied origin doc (setNameType copied copy type?) copy := by
  unfold setNameType
  split
  · exact copied_of_copyFrom? hcopy
  · next name hname =>
    exact copied_of_retypes hcopy (le_index_of_childOf?_copy forest hcopy hname)
      (retypes_setType copied name type?)

/-- What becomes of a unit when a copy is entered into a table: the copy hangs there, or it is
refused and stays as it is or goes away again. -/
structure Entered (target : SourceUnit) (typed : Document) (copy : NodeId) (after : SourceUnit) :
    Prop where
  same : SourceUnit.SamePlaces target after
  document : after.document = typed ∨ after.document = typed.delete copy ∨
    ∃ table ∈ target.tableNodes, after.document = typed.append table copy

theorem entered_enter (target : SourceUnit) (typed : Document) (copy : NodeId)
    (table : TableName) : Entered target typed copy (enter target typed copy table) := by
  unfold enter
  cases hinsert : { target with document := typed }.insert? copy table with
  | none =>
    refine ⟨⟨rfl, rfl, rfl, rfl, rfl⟩, ?_⟩
    by_cases htable : table = .declarations <;> simp [htable]
  | some after =>
    obtain ⟨hsame, element, helement, hdocument⟩ := SourceUnit.insert?_eq_some hinsert
    exact ⟨⟨hsame.role, hsame.root, hsame.types, hsame.symbols, hsame.declarations⟩,
      Or.inr (Or.inr ⟨element, SourceUnit.mem_tableNodes_of_eq_some helement, hdocument⟩)⟩

/-! ### Keeping to a scope -/

/-- A scope guards the document of a unit and lets its tables take new nodes. -/
structure Serves (scope : Scope) (unit : SourceUnit) : Prop where
  guards : scope.Guards unit.document
  admits : ∀ table ∈ unit.tableNodes, ∀ x : NodeId, scope.size ≤ x.index → scope.Admits table x

/-- The second unit is reached from the first by edits that keep to the scope, with its root and
its tables where they were. -/
structure Extends (scope : Scope) (before after : SourceUnit) : Prop where
  same : SourceUnit.SamePlaces before after
  steps : scope.Steps before.document after.document

theorem Extends.refl (scope : Scope) (unit : SourceUnit) : Extends scope unit unit :=
  ⟨.refl unit, .refl⟩

theorem Extends.trans {middle : SourceUnit} (first : Extends scope before middle)
    (second : Extends scope middle after) : Extends scope before after :=
  ⟨first.same.trans second.same, first.steps.trans second.steps⟩

theorem Serves.extends (serves : Serves scope before) (hextends : Extends scope before after) :
    Serves scope after := by
  refine ⟨Scope.Steps.guards serves.guards hextends.steps, ?_⟩
  rw [hextends.same.tableNodes_eq]
  exact serves.admits

theorem Serves.extends_copied {typed : Document} (serves : Serves scope before)
    (hcopied : Copied origin before.document typed copy) :
    Extends scope before { before with document := typed } :=
  ⟨⟨rfl, rfl, rfl, rfl, rfl⟩, hcopied.steps serves.guards⟩

theorem Serves.extends_of_entered {typed : Document} (serves : Serves scope before)
    (hcopied : Copied origin before.document typed copy)
    (entered : Entered before typed copy after) : Extends scope before after := by
  have hsteps := hcopied.steps serves.guards
  have hcopy := hcopied.inside_copy serves.guards
  refine ⟨entered.same, ?_⟩
  rcases entered.document with heq | heq | ⟨table, htable, heq⟩
  · rwa [heq]
  · rw [heq]
    exact hsteps.tail (.delete typed copy hcopy)
  · rw [heq]
    exact hsteps.tail (.append typed table copy hcopy (serves.admits table htable copy
      (Nat.le_trans serves.guards.size_le hcopied.le_index)))

/-! ### What an import declares

`Declares` is one declaration that an import of `source` makes, and `Fetches` a run of them and of
copies. What is proved of one step holds of all imports. -/

/-- One declaration of something of `source`. The link of a type is one that `source` has; a type or
a symbol is declared only if its identifier or its name is free. -/
inductive Declares (source : SourceUnit) : SourceUnit → SourceUnit → Prop
  | type (target : SourceUnit) (link : TypeLink) (id : String) (reference? : Option String)
    (hlink : ∃ own?, TypeChain.link? source link.id = some (link, own?))
    (hfree : target.types.contains id = false) :
    Declares source target (declare source target link id reference?)
  | symbol (target : SourceUnit) (symbol : Symbol) (type? : Option String)
    (hsymbol : symbol ∈ source.symbols.entries)
    (hfree : target.symbols.contains symbol.name = false) :
    Declares source target (declareSymbol source target symbol type?)
  | declaration (target : SourceUnit) (symbol : Symbol) (type? : Option String) :
    Declares source target (declareVariable source target symbol type?)

/-- A run of declarations, and of copies that hang nowhere, which are listed. -/
inductive Fetches (source : SourceUnit) : SourceUnit → SourceUnit → List NodeId → Prop
  | nothing (unit : SourceUnit) : Fetches source unit unit []
  | declares {before middle after : SourceUnit} {copies : List NodeId}
    (first : Declares source before middle) (rest : Fetches source middle after copies) :
    Fetches source before after copies
  | copies {before after : SourceUnit} {doc : Document} {copy : NodeId}
    {copies : List NodeId} (first : Copied source.document before.document doc copy)
    (rest : Fetches source { before with document := doc } after copies) :
    Fetches source before after (copy :: copies)

theorem Declares.fetches (declares : Declares source before after) :
    Fetches source before after [] :=
  .declares declares (.nothing after)

theorem Fetches.trans {middle : SourceUnit} {others : List NodeId}
    (first : Fetches source before middle copies) (second : Fetches source middle after others) :
    Fetches source before after (copies ++ others) := by
  induction first with
  | nothing => exact second
  | declares first _ ih => exact .declares first (ih second)
  | copies first _ ih => exact .copies first (ih second)

theorem Declares.cases (declares : Declares source before after)
    (forest : before.document.Forest) :
    after = before ∨
      ∃ typed copy, Copied source.document before.document typed copy ∧
        Entered before typed copy after := by
  cases declares with
  | type link id reference? _ _ =>
    rcases declare_cases source before link id reference? with
      ⟨-, heq⟩ | ⟨copied, copy, hcopy, heq⟩
    · exact Or.inl heq
    · exact Or.inr ⟨_, copy, copied_retyped hcopy id reference?,
        heq ▸ entered_enter ..⟩
  | symbol symbol type? _ _ =>
    rcases declareSymbol_cases source before symbol type? with
      ⟨-, heq⟩ | ⟨copied, copy, hcopy, heq⟩
    · exact Or.inl heq
    · exact Or.inr ⟨_, copy, copied_setType hcopy type?, heq ▸ entered_enter ..⟩
  | declaration symbol type? =>
    rcases declareVariable_cases source before symbol type? with
      heq | ⟨_, copied, copy, -, hcopy, heq⟩
    · exact Or.inl heq
    · exact Or.inr ⟨_, copy, copied_setNameType forest hcopy type?, heq ▸ entered_enter ..⟩

theorem Serves.extends_declares (serves : Serves scope before)
    (declares : Declares source before after) : Extends scope before after := by
  rcases declares.cases serves.guards.forest with rfl | ⟨typed, copy, hcopied, entered⟩
  · exact .refl scope _
  · exact serves.extends_of_entered hcopied entered

theorem Serves.extends_fetches (serves : Serves scope before)
    (fetches : Fetches source before after copies) :
    Extends scope before after ∧ ∀ copy ∈ copies, scope.size ≤ copy.index := by
  induction fetches with
  | nothing => exact ⟨.refl scope _, forall_mem_nil _⟩
  | declares first _ ih =>
    have hfirst := serves.extends_declares first
    exact (ih (serves.extends hfirst)).imp_left hfirst.trans
  | copies first _ ih =>
    have hfirst := serves.extends_copied first
    obtain ⟨hrest, hcopies⟩ := ih (serves.extends hfirst)
    exact ⟨hfirst.trans hrest, forall_mem_cons.mpr
      ⟨Nat.le_trans serves.guards.size_le first.le_index, hcopies⟩⟩

theorem symbols_declare (link : TypeLink) (id : String) (reference? : Option String) :
    (declare source target link id reference?).symbols = target.symbols := by
  unfold declare
  split
  · rfl
  · dsimp only
    split <;> rfl

/-- A run of declarations of types. -/
def FetchesTypes (source before after : SourceUnit) : Prop :=
  Fetches source before after [] ∧ after.symbols = before.symbols

theorem FetchesTypes.refl (unit : SourceUnit) : FetchesTypes source unit unit :=
  ⟨.nothing unit, rfl⟩

theorem FetchesTypes.trans {middle : SourceUnit} (first : FetchesTypes source before middle)
    (second : FetchesTypes source middle after) : FetchesTypes source before after :=
  ⟨first.1.trans second.1, second.2.trans first.2⟩

theorem fetchesTypes_importLink (target : SourceUnit) {link : TypeLink}
    (hlink : ∃ own?, TypeChain.link? source link.id = some (link, own?))
    (reference? : Option String) :
    FetchesTypes source target (importLink source target link reference?).1 := by
  unfold importLink
  split
  · exact .refl target
  · exact ⟨(Declares.type target link _ reference? hlink (contains_newId target link.id)).fetches,
      symbols_declare link _ reference?⟩

theorem leaves_importLinkInPlace {id : String} {link : TypeLink} {own? : Option String}
    (hlink : link? source id = some (link, own?)) (reference? : Option String) :
    (importLinkInPlace source link reference?).Leaves (FetchesTypes source) := by
  intro target
  rw [importLinkInPlace_eq]
  by_cases hnode : source.document.contains link.node
  · obtain ⟨entry, form, hentry, hform, rfl, rfl⟩ := link?_eq_some_iff.mp hlink
    rw [if_pos hnode]
    exact fetchesTypes_importLink target ⟨_, TypeChain.link?_eq_some_iff.mpr
      ⟨entry, form, hentry, hform, hnode, rfl, rfl⟩⟩ reference?
  · rw [if_neg hnode]
    exact .refl target

theorem leaves_importTypeGuarded (source : SourceUnit) (bound : Nat) (inProgress : List String)
    (id : String) :
    (importTypeGuarded source bound inProgress id).Leaves (FetchesTypes source) := by
  induction bound generalizing inProgress id with
  | zero => exact .refl
  | succ bound ih =>
    unfold importTypeGuarded
    split
    · exact .refl
    · split
      · exact .refl
      · next link hlink => exact leaves_importLinkInPlace hlink none
      · next link reference hlink =>
        exact (ih _ reference).bind .trans fun imported ↦
          leaves_importLinkInPlace hlink (some imported)

theorem leaves_importType? (source : SourceUnit) (type? : Option String) :
    (importType?InPlace source type?).Leaves (FetchesTypes source) := by
  cases type? with
  | none => exact .refl
  | some id => exact (leaves_importTypeGuarded source _ [] id).bind .trans fun _ ↦ .refl

theorem importSymbolInPlace_eq (symbol : Symbol) (target : SourceUnit) :
    importSymbolInPlace source symbol target =
      match importType?InPlace source symbol.type? target with
      | .error cause typed => .error cause typed
      | .ok type? typed =>
        if source.document.contains symbol.node then
          .ok () (declareVariable source (declareSymbol source typed symbol type?) symbol type?)
        else .error (.deletedSymbol symbol.name) typed := by
  rw [importSymbolInPlace, InPlace.bind_eq]
  cases importType?InPlace source symbol.type? target with
  | error cause typed => rfl
  | ok type? typed =>
    rw [InPlace.demand]
    cases source.document.contains symbol.node <;> rfl

theorem importSymbolInPlace_eq_ok {symbol : Symbol}
    (h : importSymbolInPlace source symbol target = .ok () after) :
    ∃ type? typed, importType?InPlace source symbol.type? target = .ok type? typed ∧
      after = declareVariable source (declareSymbol source typed symbol type?) symbol type? := by
  rw [importSymbolInPlace_eq] at h
  cases htyped : importType?InPlace source symbol.type? target with
  | error cause typed => simp [htyped] at h
  | ok type? typed =>
    simp only [htyped] at h
    split at h
    · cases h
      exact ⟨type?, typed, rfl, rfl⟩
    · cases h

theorem importSymbolOfInPlace_eq (node : NodeId) (target : SourceUnit) :
    importSymbolOfInPlace source node target =
      match symbolOf? source node with
      | none => .ok () target
      | some symbol =>
        if target.symbols.contains symbol.name then .ok () target
        else importSymbolInPlace source symbol target := by
  rw [importSymbolOfInPlace]
  cases symbolOf? source node with
  | none => rfl
  | some symbol =>
    show (if target.symbols.contains symbol.name then (pure () : InPlace Unit)
      else importSymbolInPlace source symbol) target = if _ then _ else _
    split <;> rfl

theorem leaves_importSymbolOf (source : SourceUnit) (node : NodeId) :
    (importSymbolOfInPlace source node).Leaves fun target after ↦
      Fetches source target after [] := by
  intro target
  rw [importSymbolOfInPlace_eq]
  cases hsymbol : symbolOf? source node with
  | none => exact Fetches.nothing target
  | some symbol =>
    by_cases hknown : target.symbols.contains symbol.name
    · simp only [if_pos hknown]
      exact Fetches.nothing target
    · simp only [if_neg hknown, importSymbolInPlace_eq]
      cases htyped : importType?InPlace source symbol.type? target with
      | error cause typed => exact ((leaves_importType? source _).of_error htyped).1
      | ok type? typed =>
        obtain ⟨hfetches, hsymbols⟩ := (leaves_importType? source _).of_ok htyped
        have hfree : typed.symbols.contains symbol.name = false :=
          hsymbols ▸ Bool.not_eq_true _ ▸ hknown
        by_cases hnode : source.document.contains symbol.node
        · simp only [if_pos hnode]
          exact hfetches.trans (.declares
            (.symbol typed symbol type? (mem_of_symbolOf? hsymbol) hfree)
            (Declares.declaration _ symbol type?).fetches)
        · simp only [if_neg hnode]
          exact hfetches

/-- The steps of an import of an operand that goes through. -/
theorem importOperandInPlace_eq_ok (h : importOperandInPlace source node target = .ok copy after) :
    ∃ type? typed known copied,
      importType?InPlace source (source.document.typeId? node) target = .ok type? typed ∧
      importSymbolOfInPlace source node typed = .ok () known ∧
      known.document.copyFrom? source.document node = some (copied, copy) ∧
      after = { known with document := setType copied copy type? } := by
  obtain ⟨_, -, h⟩ := InPlace.check_bind_eq_ok h
  obtain ⟨type?, typed, htyped, h⟩ := InPlace.bind_eq_ok h
  obtain ⟨_, known, hknown, h⟩ := InPlace.bind_eq_ok h
  unfold copyInPlace at h
  split at h
  · cases h
  · next copied _ hcopy =>
    cases h
    exact ⟨type?, typed, known, copied, htyped, hknown, hcopy, rfl⟩

theorem fetches_importOperand (h : importOperandInPlace source node target = .ok copy after) :
    Fetches source target after [copy] := by
  obtain ⟨type?, typed, known, copied, htyped, hknown, hcopy, rfl⟩ := importOperandInPlace_eq_ok h
  exact (((leaves_importType? source _).of_ok htyped).1.trans
    ((leaves_importSymbolOf source node).of_ok hknown)).trans
      (.copies (copied_setType hcopy type?) (.nothing _))

theorem importOperandsInPlace_cons_eq_ok {rest : List NodeId}
    (h : importOperandsInPlace source (node :: rest) target = .ok copies after) :
    ∃ first copy others, importOperandInPlace source node target = .ok copy first ∧
      importOperandsInPlace source rest first = .ok others after ∧ copies = copy :: others := by
  obtain ⟨copy, first, hfirst, h⟩ := InPlace.bind_eq_ok h
  obtain ⟨others, done, hrest, h⟩ := InPlace.bind_eq_ok h
  cases h
  exact ⟨first, copy, others, hfirst, hrest, rfl⟩

theorem fetches_importOperands {nodes : List NodeId}
    (h : importOperandsInPlace source nodes target = .ok copies after) :
    Fetches source target after copies := by
  induction nodes generalizing target copies with
  | nil =>
    cases h
    exact .nothing _
  | cons node rest ih =>
    obtain ⟨first, copy, others, hfirst, hrest, rfl⟩ := importOperandsInPlace_cons_eq_ok h
    exact (fetches_importOperand hfirst).trans (ih hrest)

/-- The second unit is reached from the first by a run of declarations and copies. -/
def Reaches (source before after : SourceUnit) : Prop :=
  ∃ copies, Fetches source before after copies

theorem Reaches.refl (unit : SourceUnit) : Reaches source unit unit :=
  ⟨[], .nothing unit⟩

theorem Reaches.trans {middle : SourceUnit} (first : Reaches source before middle)
    (second : Reaches source middle after) : Reaches source before after :=
  ⟨_, first.choose_spec.trans second.choose_spec⟩

theorem leaves_copyInPlace (source : SourceUnit) (node : NodeId) (type? : Option String) :
    (copyInPlace source node type?).Leaves (Reaches source) := by
  intro target
  unfold copyInPlace
  cases hcopy : target.document.copyFrom? source.document node with
  | none => exact .refl target
  | some result => exact ⟨[result.2], .copies (copied_setType hcopy type?) (.nothing _)⟩

theorem leaves_importOperand (source : SourceUnit) (node : NodeId) :
    (importOperandInPlace source node).Leaves (Reaches source) :=
  (InPlace.leaves_check .refl _).bind .trans fun _ ↦
    ((leaves_importType? source _).mono fun h ↦ ⟨[], h.1⟩).bind .trans fun type? ↦
      ((leaves_importSymbolOf source node).mono fun h ↦ ⟨[], h⟩).bind .trans fun _ ↦
        leaves_copyInPlace source node type?

theorem leaves_importOperands (source : SourceUnit) (nodes : List NodeId) :
    (importOperandsInPlace source nodes).Leaves (Reaches source) := by
  induction nodes with
  | nil => exact .refl
  | cons node rest ih =>
    exact (leaves_importOperand source node).bind .trans fun _ ↦ ih.bind .trans fun _ ↦ .refl

/-! ### Bounds -/

namespace BoundShape

/-- The element of a bound without its operands, with a sum to hold them if there are two. -/
def frame (kind : Kind) : BoundShape → Element
  | single _ => .node { tag := kind.tag } []
  | sum _ _ => .node { tag := kind.tag } [.node { tag := (Kind.binary .plus).tag } []]

def holder (doc : Document) : BoundShape → NodeId
  | single _ => doc.fresh
  | sum _ _ => ⟨doc.slots.size + 1⟩

theorem holder_new (doc : Document) (kind : Kind) (shape : BoundShape) :
    doc.slots.size ≤ (shape.holder doc).index ∧
      (shape.holder doc).index <
        (doc.plant none (shape.frame kind)).1.slots.size := by
  cases shape <;> simp [holder, frame, plant, plantAll, push, fresh]

theorem every_frame {condition : Label → Bool → Prop} {kind : Kind}
    (hkind : ∀ leaf, condition { tag := kind.tag } leaf)
    (hsum : ∀ leaf, condition { tag := (Kind.binary .plus).tag } leaf) (shape : BoundShape) :
    (shape.frame kind).Every condition := by
  cases shape with
  | single operand => exact .node _ _ (hkind _) (forall_mem_nil _)
  | sum left right =>
    exact .node _ _ (hkind _) (forall_mem_singleton.mpr
      (.node _ _ (hsum _) (forall_mem_nil _)))

end BoundShape

theorem assemble_eq (doc : Document) (kind : Kind) (shape : BoundShape)
    (operands : List NodeId) :
    assemble doc kind shape operands =
      ((doc.plant none (shape.frame kind)).1.appendAll (shape.holder doc) operands,
        doc.fresh) := by
  cases shape with
  | single operand =>
    rw [BoundShape.frame, ← push_eq_plant]
    rfl
  | sum left right =>
    have hfresh : (doc.push { label := { tag := kind.tag } }).fresh =
        ⟨doc.slots.size + 1⟩ := by simp [fresh, push]
    rw [BoundShape.frame, ← append_push_push, BoundShape.holder, ← hfresh]
    rfl

theorem steps_assemble (guards : scope.Guards doc) (kind : Kind) (shape : BoundShape)
    {operands : List NodeId} (hoperands : ∀ operand ∈ operands, scope.size ≤ operand.index) :
    scope.Steps doc (assemble doc kind shape operands).1 ∧
      (assemble doc kind shape operands).2 = doc.fresh := by
  have hinside : ∀ operand ∈ operands, scope.inside operand := fun operand hoperand ↦
    scope.inside_of_new operand (hoperands operand hoperand)
  have hholder := scope.inside_of_new _
    (Nat.le_trans guards.size_le (shape.holder_new doc kind).1)
  rw [assemble_eq]
  exact ⟨.head (.plant doc _) (Scope.steps_appendAll _ hinside fun _ _ ↦ Or.inl hholder), rfl⟩

theorem importBoundInPlace_eq_ok (h : importBoundInPlace source bound target = .ok copy after) :
    ∃ shape imported operands, shapeOf source.document bound = .ok shape ∧
      importOperandsInPlace source shape.operands target = .ok operands imported ∧
      after = { imported with document := (assemble imported.document
        (source.document.kind bound) shape operands).1 } ∧
      copy = imported.document.fresh := by
  obtain ⟨shape, hshape, h⟩ := InPlace.check_bind_eq_ok h
  obtain ⟨_, -, h⟩ := InPlace.check_bind_eq_ok h
  obtain ⟨operands, imported, himported, h⟩ := InPlace.bind_eq_ok h
  cases h
  refine ⟨shape, imported, operands, hshape, himported, rfl, ?_⟩
  cases shape <;> rfl

theorem reaches_of_importBound_error {cause : TransformError}
    (h : importBoundInPlace source bound target = .error cause after) :
    Reaches source target after := by
  unfold importBoundInPlace at h
  cases hshape : shapeOf source.document bound with
  | error cause =>
    rw [InPlace.check_bind_of_error hshape] at h
    cases h
    exact .refl _
  | ok shape =>
    rw [InPlace.check_bind_of_ok hshape] at h
    rcases InPlace.bind_eq_error h with h | ⟨_, middle, hmiddle, h⟩
    · exact (InPlace.leaves_check .refl _).of_error h
    · refine .trans ((InPlace.leaves_check .refl _).of_ok hmiddle) ?_
      rcases InPlace.bind_eq_error h with h | ⟨_, _, _, h⟩
      · exact (leaves_importOperands source _).of_error h
      · cases h

theorem Serves.extends_importBound (serves : Serves scope target)
    (h : importBoundInPlace source bound target = .ok copy after) :
    Extends scope target after ∧ scope.size ≤ copy.index := by
  obtain ⟨shape, imported, operands, -, himported, rfl, rfl⟩ := importBoundInPlace_eq_ok h
  obtain ⟨hextends, hnew⟩ := serves.extends_fetches (fetches_importOperands himported)
  have hguards := (serves.extends hextends).guards
  exact ⟨hextends.trans ⟨⟨rfl, rfl, rfl, rfl, rfl⟩, (steps_assemble hguards _ shape hnew).1⟩,
    hguards.size_le⟩

end Import

/-! ### Importing the bounds of a loop -/

namespace BoundsImport

open Import

variable {scope : Scope} {plan : BoundsImport} {program after : SourceUnit} {doc : Document}
  {bound lower upper : NodeId}

theorem nextLoop?_of_plan? {directive : PlacedDirective}
    (h : plan? doc directive = some plan) :
    Target.nextLoop? doc directive.pragma = some plan.loop ∧
      isBounded doc plan.loop := by
  obtain ⟨module, -, h⟩ := Option.bind_eq_some_iff.mp h
  obtain ⟨array, -, h⟩ := Option.bind_eq_some_iff.mp h
  obtain ⟨dimension, -, h⟩ := Option.bind_eq_some_iff.mp h
  obtain ⟨loop, hloop, h⟩ := Option.bind_eq_some_iff.mp h
  cases h
  exact Option.filter_eq_some_iff.mp hloop

theorem boundOf_eq_ok {start : NodeId} {path : List Kind}
    (h : boundOf doc start path = .ok bound) : doc.path? start path = some bound := by
  unfold boundOf at h
  split at h
  · cases h
  · next found hfound =>
    cases h
    exact hfound

theorem replaceBounds_eq_ok (h : plan.replaceBounds program lower upper = .ok after) :
    ∃ oldLower oldUpper,
      program.document.path? plan.loop [.indexRange, .lowerBound] = some oldLower ∧
      program.document.path? plan.loop [.indexRange, .upperBound] = some oldUpper ∧
      after = { program with
        document := (program.document.replace oldLower lower).replace oldUpper upper } := by
  obtain ⟨⟨oldLower, oldUpper⟩, hbounds, h⟩ := exists_of_bind_eq_ok h
  cases h
  obtain ⟨first, hfirst, hbounds⟩ := exists_of_bind_eq_ok hbounds
  obtain ⟨second, hsecond, hbounds⟩ := exists_of_bind_eq_ok hbounds
  cases hbounds
  exact ⟨oldLower, oldUpper, boundOf_eq_ok hfirst, boundOf_eq_ok hsecond, rfl⟩

theorem inside_of_path? (guards : scope.Guards doc) {loop : NodeId}
    (hloop : scope.inside loop) {first second : Kind}
    (h : doc.path? loop [first, second] = some bound) : scope.inside bound := by
  rw [path?_pair] at h
  obtain ⟨middle, hmiddle, h⟩ := Option.bind_eq_some_iff.mp h
  have hinside := guards.inside_of_mem_children (mem_children_of_childOf? hmiddle) hloop
  exact guards.inside_of_mem_children (mem_children_of_childOf? h) hinside

theorem extends_replaceBounds (serves : Serves scope program) (hloop : scope.inside plan.loop)
    (hlower : scope.size ≤ lower.index) (hupper : scope.size ≤ upper.index)
    (h : plan.replaceBounds program lower upper = .ok after) : Extends scope program after := by
  obtain ⟨oldLower, oldUpper, holdLower, holdUpper, rfl⟩ := replaceBounds_eq_ok h
  have hfirst := inside_of_path? serves.guards hloop holdLower
  have hsecond := inside_of_path? serves.guards hloop holdUpper
  exact ⟨⟨rfl, rfl, rfl, rfl, rfl⟩, (Scope.steps_replace _ hfirst hlower).trans
    (Scope.steps_replace _ hsecond hupper)⟩

theorem extends_performFrom (serves : Serves scope program) (hloop : scope.inside plan.loop)
    (unit : SourceUnit) : Extends scope program (plan.performFrom unit program).state := by
  unfold performFrom
  split
  · exact .refl scope program
  · split
    · next hlower =>
      obtain ⟨_, hfetches⟩ := reaches_of_importBound_error hlower
      exact (serves.extends_fetches hfetches).1
    · next lower withLower hlower =>
      obtain ⟨hextends, hnew⟩ := serves.extends_importBound hlower
      have hserves := serves.extends hextends
      split
      · next hupper =>
        obtain ⟨_, hfetches⟩ := reaches_of_importBound_error hupper
        exact (hextends.trans (hserves.extends_fetches hfetches).1).trans
          ⟨⟨rfl, rfl, rfl, rfl, rfl⟩, .single (.delete _ lower (scope.inside_of_new lower hnew))⟩
      · next upper withBoth hupper =>
        obtain ⟨hmore, hnewUpper⟩ := hserves.extends_importBound hupper
        have hboth := hextends.trans hmore
        exact Outcome.state_ofExcept (Extends scope program) hboth fun _ hafter ↦ hboth.trans
          (extends_replaceBounds (hserves.extends hmore) hloop hnew hnewUpper hafter)

theorem extends_perform {workspace : Workspace} (serves : Serves scope workspace.program)
    (hloop : scope.inside plan.loop) (files : Files) :
    Extends scope workspace.program (plan.perform files workspace).state.program := by
  unfold perform
  split
  · exact .refl scope _
  · next library unit _ => exact extends_performFrom serves hloop unit

end BoundsImport

end LoopDirectives
