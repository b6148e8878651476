import LoopDirectives.Proofs.Library

/-!
# Tables are an index of the document

A unit is coherent when its three tables are what reading their elements gives
(`SourceUnit.Coherent`). Units are so when they are read from a text, and stay so when a node that
hangs nowhere is put into one of the tables (`SourceUnit.IndexedBy.insert?`) and when only new nodes
are edited (`SourceUnit.IndexedBy.of_steps`).
-/

namespace LoopDirectives

open Document List

namespace SourceUnit

/-- The tables of the unit are what reading the given elements gives. -/
structure IndexedBy (unit : SourceUnit) (elements : TableElements) : Prop where
  forest : unit.document.Forest
  contains_types : unit.document.contains elements.types = true
  kind_types : unit.document.kind elements.types = .typeTable
  contains_symbols : unit.document.contains elements.symbols = true
  kind_symbols : unit.document.kind elements.symbols = unit.role.symbolsKind
  contains_declarations : unit.document.contains elements.declarations = true
  kind_declarations : unit.document.kind elements.declarations = unit.role.declarationsKind
  types : unit.types = TypeTable.read unit.document elements.types
  symbols : unit.symbols = SymbolTable.read unit.document elements.symbols
  declarations : unit.declarations = DeclarationTable.read unit.document elements.declarations

/-- The tables of the unit are an index of its document. -/
def Coherent (unit : SourceUnit) : Prop :=
  ∃ elements, unit.IndexedBy elements

def TableElements.get (elements : TableElements) : TableName → NodeId
  | .types => elements.types
  | .symbols => elements.symbols
  | .declarations => elements.declarations

def offer (unit : SourceUnit) (node : NodeId) (table : TableName) : SourceUnit :=
  (unit.insert? node table).getD unit

/-- What a table takes: an element that names a type, a named identifier whose name is free, a
declaration of a name that is not declared yet. -/
def Takes (unit : SourceUnit) (node : NodeId) : TableName → Prop
  | .types => ∃ id, unit.document.typeId? node = some id
  | .symbols => unit.document.kind node = .identifier ∧
      ∃ name, unit.document.childOf? node .name = some name ∧
        unit.symbols.contains (unit.document.text name) = false
  | .declarations => ∃ name, Declaration.nameOf? unit.document node = some name ∧
      unit.declarations.contains name = false

variable {unit after : SourceUnit} {elements : TableElements} {node : NodeId} {table : TableName}

/-! ### Units read from texts -/

/-- The unit over a document whose tables are read from the given elements. -/
def withTables (role : UnitRole) (doc : Document) (root : NodeId) (elements : TableElements) :
    SourceUnit where
  role := role
  document := doc
  root := root
  types := TypeTable.read doc elements.types
  symbols := SymbolTable.read doc elements.symbols
  declarations := DeclarationTable.read doc elements.declarations

theorem indexedBy_withTables {role : UnitRole} {doc : Document} {root : NodeId}
    (forest : doc.Forest)
    (htypes : doc.contains elements.types ∧
      doc.kind elements.types = .typeTable)
    (hsymbols : doc.contains elements.symbols ∧
      doc.kind elements.symbols = role.symbolsKind)
    (hdeclarations : doc.contains elements.declarations ∧
      doc.kind elements.declarations = role.declarationsKind) :
    (withTables role doc root elements).IndexedBy elements :=
  ⟨forest, htypes.1, htypes.2, hsymbols.1, hsymbols.2, hdeclarations.1, hdeclarations.2, rfl, rfl,
    rfl⟩

theorem coherent_of_read {role : UnitRole} {text : String}
    (h : SourceUnit.read role text = .ok unit) : unit.Coherent := by
  have hforest := (fromText_of_read h).1.forest
  obtain ⟨⟨doc, root⟩, -, h⟩ := exists_of_bind_eq_ok h
  obtain ⟨elements, helements, h⟩ := exists_of_bind_eq_ok h
  cases h
  obtain ⟨-, htypes, hsymbols, hdeclarations⟩ := tableElements_eq_ok_iff.mp helements
  have hlive := contains_of_tableElements hforest helements
  exact ⟨elements, indexedBy_withTables hforest ⟨hlive _ (by simp), kind_of_childOf? htypes⟩
    ⟨hlive _ (by simp), kind_of_childOf? hsymbols⟩
    ⟨hlive _ (by simp), kind_of_childOf? hdeclarations⟩⟩

/-! ### The elements of the tables -/

namespace IndexedBy

variable {entry : TypeEntry} {doc : Document} (indexed : unit.IndexedBy elements)

include indexed

theorem element?_types : unit.types.element? = some elements.types := by
  rw [indexed.types, TypeTable.element?_read]

theorem element?_symbols : unit.symbols.element? = some elements.symbols :=
  congrArg SymbolTable.element? indexed.symbols

theorem element?_declarations : unit.declarations.element? = some elements.declarations := by
  rw [indexed.declarations, DeclarationTable.element?_read]

theorem tableElement?_eq (table : TableName) :
    unit.tableElement? table = some (elements.get table) := by
  cases table with
  | types => exact indexed.element?_types
  | symbols => exact indexed.element?_symbols
  | declarations => exact indexed.element?_declarations

theorem contains_get (table : TableName) :
    unit.document.contains (elements.get table) := by
  cases table with
  | types => exact indexed.contains_types
  | symbols => exact indexed.contains_symbols
  | declarations => exact indexed.contains_declarations

theorem contains_of_mem_tableNodes (h : node ∈ unit.tableNodes) : unit.document.contains node := by
  rw [mem_tableNodes, indexed.element?_types, indexed.element?_symbols,
    indexed.element?_declarations] at h
  rcases h with h | h | h <;> cases h
  · exact indexed.contains_types
  · exact indexed.contains_symbols
  · exact indexed.contains_declarations

theorem kind_get_notMem (table : TableName) :
    unit.document.kind (elements.get table) ∉ .identifier :: TypeEntry.readKinds := by
  cases table with
  | types =>
    rw [TableElements.get, indexed.kind_types]
    decide
  | symbols =>
    rw [TableElements.get, indexed.kind_symbols]
    cases unit.role <;> simp [UnitRole.symbolsKind, TypeEntry.readKinds]
  | declarations =>
    rw [TableElements.get, indexed.kind_declarations]
    cases unit.role <;> simp [UnitRole.declarationsKind, TypeEntry.readKinds]

theorem get_injective : Function.Injective elements.get := by
  have hkinds : unit.document.kind elements.types ≠ unit.document.kind elements.symbols ∧
      unit.document.kind elements.types ≠ unit.document.kind elements.declarations ∧
      unit.document.kind elements.symbols ≠ unit.document.kind elements.declarations := by
    rw [indexed.kind_types, indexed.kind_symbols, indexed.kind_declarations]
    cases unit.role <;> exact ⟨nofun, nofun, nofun⟩
  intro first second heq
  have hkind := congrArg unit.document.kind heq
  cases first <;> cases second <;> simp_all [TableElements.get, eq_comm]

theorem read?_of_mem_types (hentry : entry ∈ unit.types.entries) :
    unit.document.parent? entry.node = some elements.types ∧
      TypeEntry.read? unit.document entry.node = some entry := by
  rw [indexed.types] at hentry
  obtain ⟨hchild, hread⟩ := TypeTable.mem_entries_read hentry
  exact ⟨indexed.forest.parent?_of_mem hchild, hread⟩

theorem readable : unit.Readable := by
  refine ⟨indexed.forest, fun entry hentry ↦
    contains_of_parent? (indexed.read?_of_mem_types hentry).1, fun symbol hsymbol ↦ ?_⟩
  rw [indexed.symbols] at hsymbol
  obtain ⟨node, -, hread⟩ := mem_filterMap.mp hsymbol
  rwa [Symbol.node_eq_of_read? hread]

theorem exists_mem_types {id : String}
    (hparent : unit.document.parent? node = some elements.types)
    (hid : unit.document.typeId? node = some id) : ∃ entry ∈ unit.types.entries, entry.id = id := by
  have hread : TypeEntry.read? unit.document node = some _ := congrArg (Option.map _) hid
  rw [indexed.types, TypeTable.read_eq, ← mem_map, Keyed.mem_map_placeAll]
  exact Or.inl (mem_map_of_mem (mem_filterMap.mpr
    ⟨node, indexed.forest.mem_children hparent, hread⟩))

theorem nodup_ids : (unit.types.entries.map TypeEntry.id).Nodup := by
  rw [indexed.types]
  exact TypeTable.nodup_entries_read _ _

theorem get?_id (hentry : entry ∈ unit.types.entries) : unit.types.get? entry.id = some entry :=
  Keyed.find?_of_nodup TypeEntry.id indexed.nodup_ids hentry

/-! ### Units that grow -/

/-- A unit is indexed when the element of one table has grown in its document and that table has
got the entries of what was added. -/
theorem of_grown {added : List NodeId}
    (grown : Grown unit.document after.document (elements.get table) added)
    (forest : after.document.Forest) (hrole : after.role = unit.role)
    (hnames : unit.document.parent? (elements.get table) = some elements.declarations →
      ∀ x ∈ added, after.document.kind x ≠ .name)
    (htypes : after.types = ((if table = .types then added else []).filterMap
      (TypeEntry.read? after.document)).foldl TypeTable.push unit.types)
    (hsymbols : after.symbols = { unit.symbols with
      entries := unit.symbols.entries ++
        (if table = .symbols then added else []).filterMap (Symbol.read? after.document) })
    (hdeclarations : after.declarations = ((if table = .declarations then added else []).filterMap
      (Declaration.read? after.document)).foldl DeclarationTable.push unit.declarations) :
    after.IndexedBy elements := by
  obtain ⟨hidentifier, hreadKinds⟩ :=
    not_or.mp (mem_cons.not.mp (indexed.kind_get_notMem table))
  have hget (other : TableName) : (if elements.get other = elements.get table then added else []) =
      if table = other then added else [] :=
    if_congr (indexed.get_injective.eq_iff.trans eq_comm) rfl rfl
  have htypesRead := TypeTable.read_grown grown indexed.forest (indexed.contains_get .types)
    hreadKinds
  have hsymbolsRead := SymbolTable.read_grown grown indexed.forest (indexed.contains_get .symbols)
    hidentifier
  have hdeclarationsRead := DeclarationTable.read_grown grown indexed.forest
    (indexed.contains_get .declarations) hnames
  rw [hget] at htypesRead hsymbolsRead hdeclarationsRead
  refine
    { forest
      contains_types := grown.contains _ indexed.contains_types
      kind_types := (grown.kind indexed.contains_types).trans indexed.kind_types
      contains_symbols := grown.contains _ indexed.contains_symbols
      kind_symbols := ?_
      contains_declarations := grown.contains _ indexed.contains_declarations
      kind_declarations := ?_
      types := ?_
      symbols := ?_
      declarations := ?_ }
  · rw [grown.kind indexed.contains_symbols, hrole, indexed.kind_symbols]
  · rw [grown.kind indexed.contains_declarations, hrole, indexed.kind_declarations]
  · rw [htypes, indexed.types]
    exact htypesRead.symm
  · rw [hsymbols, indexed.symbols]
    exact hsymbolsRead.symm
  · rw [hdeclarations, indexed.declarations]
    exact hdeclarationsRead.symm

theorem of_kept (forest : doc.Forest) (kept : Grown unit.document doc elements.types []) :
    { unit with document := doc }.IndexedBy elements := by
  have hgrown : Grown unit.document doc (elements.get .types) [] := kept
  refine indexed.of_grown hgrown forest rfl (fun _ x hx ↦ absurd hx not_mem_nil) ?_ ?_ ?_ <;>
    simp

/-- Steps among new nodes change nothing that the tables say. -/
theorem of_steps (steps : unit.document.fresher.Steps unit.document doc) :
    { unit with document := doc }.IndexedBy elements :=
  indexed.of_kept (steps.forest indexed.forest)
    (indexed.forest.grown_of_steps steps indexed.contains_types)

theorem grown_append (hnode : unit.document.parent? node = none)
    (hlive : unit.document.contains node) (hne : node ≠ elements.get table)
    (habove : ¬ unit.document.Above node (elements.get table)) :
    Grown unit.document (unit.document.append (elements.get table) node) (elements.get table)
      [node] :=
  indexed.forest.grown_append hnode
    (indexed.forest.canAttach_of_not_above hlive (indexed.contains_get table) hne habove)

end IndexedBy

/-! ### Putting a node into a table -/

/-- A node that hangs nowhere and may be put into a table: it is neither the element of the table
nor above it, and where a type table stands among the declarations, it gives that table no name. -/
structure Insertable (unit : SourceUnit) (elements : TableElements) (node : NodeId)
    (table : TableName) : Prop where
  parent?_eq_none : unit.document.parent? node = none
  ne_table : node ≠ elements.get table
  not_above : ¬ unit.document.Above node (elements.get table)
  kind_ne : table = .types → unit.document.parent? elements.types = some elements.declarations →
    unit.document.kind node ≠ .name

namespace IndexedBy

variable (indexed : unit.IndexedBy elements)

include indexed

/-- Assumes: a node that may be inserted. Then the table still says what its element declares. -/
theorem insert? (insertable : unit.Insertable elements node table)
    (h : unit.insert? node table = some after) : after.IndexedBy elements := by
  have hgrown (hlive : unit.document.contains node) :=
    indexed.grown_append insertable.parent?_eq_none hlive insertable.ne_table insertable.not_above
  have hforest := indexed.forest.append (elements.get table) node
  obtain ⟨hidentifier, hreadKinds⟩ :=
    not_or.mp (mem_cons.not.mp (indexed.kind_get_notMem table))
  cases table with
  | types =>
    obtain ⟨element, entry, helement, hentry, rfl⟩ := insert?_types_eq_some h
    cases indexed.element?_types.symm.trans helement
    have hlive := TypeEntry.contains_of_read? hentry
    have hread : TypeEntry.read? (unit.document.append elements.types node) node = some entry :=
      (TypeEntry.read?_grown (hgrown hlive) indexed.forest hlive hreadKinds).trans hentry
    refine indexed.of_grown (hgrown hlive) hforest rfl (fun hparent x hx ↦ ?_) ?_ ?_ ?_
    · rw [mem_singleton.mp hx]
      exact (hgrown hlive).kind hlive ▸ insertable.kind_ne rfl hparent
    · simp [hread]
    · simp
    · simp
  | symbols =>
    obtain ⟨element, symbol, helement, hsymbol, rfl⟩ := insert?_symbols_eq_some h
    cases indexed.element?_symbols.symm.trans helement
    obtain ⟨hlive, hkind⟩ := Symbol.contains_of_read? hsymbol
    have hread : Symbol.read? (unit.document.append elements.symbols node) node = some symbol :=
      (Symbol.read?_grown (hgrown hlive) indexed.forest hlive hidentifier).trans hsymbol
    refine indexed.of_grown (hgrown hlive) hforest rfl (fun _ x hx ↦ ?_) ?_ ?_ ?_
    · rw [mem_singleton.mp hx]
      exact ((hgrown hlive).kind hlive).trans hkind ▸ nofun
    · simp
    · simp [hread]
    · simp
  | declarations =>
    obtain ⟨element, declaration, helement, hdeclaration, -, rfl⟩ := insert?_declarations_eq_some h
    cases indexed.element?_declarations.symm.trans helement
    have hlive := Declaration.contains_of_read? hdeclaration
    have hread : Declaration.read? (unit.document.append elements.declarations node) node =
        some declaration :=
      (Declaration.read?_grown (hgrown hlive) indexed.forest hlive
        fun heq ↦ absurd heq insertable.ne_table).trans hdeclaration
    refine indexed.of_grown (hgrown hlive) hforest rfl (fun hparent ↦ ?_) ?_ ?_ ?_
    · exact absurd rfl (indexed.forest.parent_ne hparent)
    · simp
    · simp
    · simp [hread]

theorem insert?_eq_none_iff : unit.insert? node table = none ↔ ¬ unit.Takes node table := by
  cases table with
  | types =>
    cases hid : unit.document.typeId? node <;>
      simp [SourceUnit.insert?, Takes, TypeTable.insert?, indexed.element?_types, TypeEntry.read?,
        hid]
  | symbols =>
    by_cases hkind : unit.document.kind node = .identifier
    · cases hname : unit.document.childOf? node .name <;>
        simp [SourceUnit.insert?, Takes, SymbolTable.insert?, indexed.element?_symbols,
          Symbol.read?, isKind, hkind, hname]
    · simp [SourceUnit.insert?, Takes, SymbolTable.insert?, indexed.element?_symbols,
        Symbol.read?, isKind, hkind]
  | declarations =>
    cases hname : Declaration.nameOf? unit.document node <;>
      simp [SourceUnit.insert?, Takes, DeclarationTable.insert?, indexed.element?_declarations,
        Declaration.read?, hname]

theorem document_insert? (h : unit.insert? node table = some after) :
    unit.document.contains node ∧
      after.document = unit.document.append (elements.get table) node := by
  obtain ⟨-, element, helement, hdocument⟩ := insert?_eq_some h
  cases (indexed.tableElement?_eq table).symm.trans helement
  refine ⟨?_, hdocument⟩
  cases table with
  | types =>
    obtain ⟨_, _, -, hentry, -⟩ := insert?_types_eq_some h
    exact TypeEntry.contains_of_read? hentry
  | symbols =>
    obtain ⟨_, _, -, hsymbol, -⟩ := insert?_symbols_eq_some h
    exact (Symbol.contains_of_read? hsymbol).1
  | declarations =>
    obtain ⟨_, _, -, hdeclaration, -⟩ := insert?_declarations_eq_some h
    exact Declaration.contains_of_read? hdeclaration

theorem offer_of_not_takes (h : ¬ unit.Takes node table) : unit.offer node table = unit := by
  rw [offer, indexed.insert?_eq_none_iff.mpr h, Option.getD_none]

theorem children_offer (insertable : unit.Insertable elements node table)
    (h : unit.Takes node table) : (unit.offer node table).document.children (elements.get table) =
      unit.document.children (elements.get table) ++ [node] := by
  cases hinsert : unit.insert? node table with
  | none => exact absurd h (indexed.insert?_eq_none_iff.mp hinsert)
  | some after =>
    obtain ⟨hlive, hdocument⟩ := indexed.document_insert? hinsert
    rw [offer, hinsert, Option.getD_some, hdocument]
    exact (indexed.grown_append insertable.parent?_eq_none hlive insertable.ne_table
      insertable.not_above).children_holder

theorem offer (insertable : unit.Insertable elements node table) :
    (unit.offer node table).IndexedBy elements := by
  cases hinsert : unit.insert? node table with
  | none =>
    rw [SourceUnit.offer, hinsert]
    exact indexed
  | some after =>
    rw [SourceUnit.offer, hinsert]
    exact indexed.insert? insertable hinsert

end IndexedBy

end SourceUnit

end LoopDirectives
