import LoopDirectives.Proofs.Import.Rooted
import LoopDirectives.Proofs.Markup.RoundTrip

/-!
# Units read from texts

What a unit is like when it was read from a text (`SourceUnit.FromText`): its document is one tree
below the root, the root and its three tables are as the role requires, and the tables of the unit
hold what their elements declare. A library all of whose modules can be imported from is still one
when another module is loaded (`Library.readable_load`).
-/

namespace LoopDirectives

open Document List

theorem foldl_reading {State Item Reading : Type} (reading : State → Reading)
    (step : State → Item → State) (hstep : ∀ state item, reading (step state item) = reading state)
    (items : List Item) (state : State) : reading (items.foldl step state) = reading state := by
  induction items generalizing state with
  | nil => rfl
  | cons item rest ih => exact (ih (step state item)).trans (hstep state item)

theorem TypeTable.element?_read (doc : Document) (element : NodeId) :
    (TypeTable.read doc element).element? = some element :=
  foldl_reading TypeTable.element? TypeTable.push (fun _ _ ↦ rfl) _ _

theorem DeclarationTable.element?_read (doc : Document) (element : NodeId) :
    (DeclarationTable.read doc element).element? = some element :=
  foldl_reading DeclarationTable.element? DeclarationTable.push (fun _ _ ↦ rfl) _ _

theorem UnitRole.required_ne (role : UnitRole) {kind : Kind}
    (h : kind ∈ [role.rootKind, .typeTable, role.symbolsKind, role.declarationsKind]) :
    kind ≠ .doLoop ∧ kind ≠ .pragma := by
  simp only [mem_cons, not_mem_nil, or_false] at h
  cases role <;> rcases h with rfl | rfl | rfl | rfl <;> exact ⟨nofun, nofun⟩

namespace SourceUnit

variable {role : UnitRole} {doc : Document} {root : NodeId} {unit : SourceUnit}
  {tables : TableElements}

theorem requiredTable_eq_ok_iff {kind : Kind} {table : NodeId} :
    requiredTable doc root kind = .ok table ↔ doc.childOf? root kind = some table := by
  unfold requiredTable
  split <;> simp_all

theorem tableElements_eq_ok_iff :
    tableElements role doc root = .ok tables ↔
      doc.isKind root role.rootKind ∧
        doc.childOf? root .typeTable = some tables.types ∧
        doc.childOf? root role.symbolsKind = some tables.symbols ∧
        doc.childOf? root role.declarationsKind = some tables.declarations := by
  unfold tableElements
  constructor
  · intro h
    split at h
    · next hkind =>
      obtain ⟨types, htypes, h⟩ := exists_of_bind_eq_ok h
      obtain ⟨symbols, hsymbols, h⟩ := exists_of_bind_eq_ok h
      obtain ⟨declarations, hdeclarations, h⟩ := exists_of_bind_eq_ok h
      cases h
      exact ⟨hkind, requiredTable_eq_ok_iff.mp htypes, requiredTable_eq_ok_iff.mp hsymbols,
        requiredTable_eq_ok_iff.mp hdeclarations⟩
    · cases h
  · rintro ⟨hkind, htypes, hsymbols, hdeclarations⟩
    rw [if_pos hkind, requiredTable_eq_ok_iff.mpr htypes, requiredTable_eq_ok_iff.mpr hsymbols,
      requiredTable_eq_ok_iff.mpr hdeclarations]
    rfl

theorem missingTable_of_tableElements {cause : UnitError} (hkind : doc.isKind root role.rootKind)
    (h : tableElements role doc root = .error cause) : ∃ table, cause = .missingTable table := by
  have hmissing {kind : Kind} (h : requiredTable doc root kind = .error cause) :
      ∃ table, cause = .missingTable table := by
    unfold requiredTable at h
    split at h
    · cases h
      exact ⟨kind, rfl⟩
    · cases h
  unfold tableElements at h
  rw [if_pos hkind] at h
  rcases error_of_bind_eq_error h with h | ⟨_, h⟩
  · exact hmissing h
  rcases error_of_bind_eq_error h with h | ⟨_, h⟩
  · exact hmissing h
  rcases error_of_bind_eq_error h with h | ⟨_, h⟩
  · exact hmissing h
  · cases h

theorem contains_of_tableElements (forest : doc.Forest)
    (h : tableElements role doc root = .ok tables) :
    ∀ table ∈ [tables.types, tables.symbols, tables.declarations],
      doc.contains table := by
  obtain ⟨-, htypes, hsymbols, hdeclarations⟩ := tableElements_eq_ok_iff.mp h
  have hlive {wanted : Kind} {table : NodeId}
      (hchild : doc.childOf? root wanted = some table) : doc.contains table :=
    contains_of_parent? (forest.parent?_of_childOf? hchild)
  simp [hlive htypes, hlive hsymbols, hlive hdeclarations]

theorem tableElements_of_childOf? {after : Document}
    (hkind : after.kind root = doc.kind root)
    (hchild : ∀ wanted, wanted ≠ .pragma → ∀ table, doc.childOf? root wanted = some table →
      after.childOf? root wanted = some table) (h : tableElements role doc root = .ok tables) :
    tableElements role after root = .ok tables := by
  obtain ⟨hroot, htypes, hsymbols, hdeclarations⟩ := tableElements_eq_ok_iff.mp h
  have hne {wanted : Kind}
      (hwanted : wanted ∈ [role.rootKind, .typeTable, role.symbolsKind, role.declarationsKind]) :
      wanted ≠ .pragma :=
    (role.required_ne hwanted).2
  refine tableElements_eq_ok_iff.mpr ⟨?_, hchild _ (hne (by simp)) _ htypes,
    hchild _ (hne (by simp)) _ hsymbols, hchild _ (hne (by simp)) _ hdeclarations⟩
  rwa [isKind, hkind, ← isKind]

theorem exists_plant_of_readDocument {text : String}
    (h : readDocument text = .ok (doc, root)) :
    ∃ element, Markup.read text = .ok (some element) ∧ doc = (empty.plant none element).1 ∧
      root = empty.fresh := by
  unfold readDocument at h
  split at h
  · cases h
  · cases h
  · next element hread =>
    have hplant : empty.plant none element = (doc, root) := Except.ok.inj h
    exact ⟨element, hread, by rw [hplant], by rw [← snd_plant empty none element, hplant]⟩

/-- What a unit is like when it was read from a text. -/
structure FromText (unit : SourceUnit) : Prop where
  forest : unit.document.Forest
  rooted : unit.document.RootedAt [unit.root]
  contains_root : unit.document.contains unit.root = true
  parent?_root : unit.document.parent? unit.root = none
  types : ∀ entry ∈ unit.types.entries, unit.document.contains entry.node = true
  exists_tables : ∃ tables, tableElements unit.role unit.document unit.root = .ok tables ∧
    unit.types.element? = some tables.types ∧
    unit.symbols = SymbolTable.read unit.document tables.symbols ∧
    unit.declarations.element? = some tables.declarations

theorem fromText_of_read {text : String} (h : SourceUnit.read role text = .ok unit) :
    unit.FromText ∧ unit.role = role := by
  obtain ⟨⟨doc, root⟩, hdocument, h⟩ := exists_of_bind_eq_ok h
  obtain ⟨tables, htables, h⟩ := exists_of_bind_eq_ok h
  cases h
  obtain ⟨element, -, rfl, rfl⟩ := exists_plant_of_readDocument hdocument
  have hplanted := forest_empty.planted_plant element
  refine ⟨⟨forest_empty.plant element, forest_empty.rootedAt_plant (fun x hlive ↦ ?_) element,
    hplanted.contains_root (mem_singleton_self _),
    hplanted.parent?_root _ (mem_singleton_self _), fun entry hentry ↦
      TypeEntry.contains_of_read? (TypeTable.mem_entries_read hentry).2, tables, htables,
    TypeTable.element?_read _ _, rfl, DeclarationTable.element?_read _ _⟩, rfl⟩
  simp [Document.contains, node?, empty] at hlive

section

variable {element : Element} (hcanonical : element.isCanonical)
  (htables : tableElements role (ofElement element).1 (ofElement element).2 = .ok tables)

include hcanonical htables

theorem read_write :
    SourceUnit.read role (Markup.write element) = .ok
      { role, document := (ofElement element).1, root := (ofElement element).2
        types := TypeTable.read (ofElement element).1 tables.types
        symbols := SymbolTable.read (ofElement element).1 tables.symbols
        declarations := DeclarationTable.read (ofElement element).1 tables.declarations } := by
  have hread : readDocument (Markup.write element) = .ok (ofElement element) := by
    rw [readDocument, Markup.read_write hcanonical]
  rw [SourceUnit.read, hread]
  show ofDocument role (ofElement element).1 (ofElement element).2 = _
  rw [ofDocument, htables]
  rfl

theorem exists_read_write :
    ∃ unit, SourceUnit.read role (Markup.write element) = .ok unit ∧
      unit.document = (ofElement element).1 ∧ unit.root = (ofElement element).2 :=
  ⟨_, read_write hcanonical htables, rfl, rfl⟩

end

theorem document_of_read_write {element : Element} (hcanonical : element.isCanonical)
    (h : SourceUnit.read role (Markup.write element) = .ok unit) :
    unit.document = (ofElement element).1 := by
  obtain ⟨⟨doc, root⟩, hdocument, h⟩ := exists_of_bind_eq_ok h
  obtain ⟨tables, -, h⟩ := exists_of_bind_eq_ok h
  cases h
  rw [readDocument, Markup.read_write hcanonical] at hdocument
  exact congrArg Prod.fst (Except.ok.inj hdocument).symm

namespace FromText

variable {table : NodeId} (fromText : unit.FromText)

include fromText

theorem readable : unit.Readable := by
  obtain ⟨tables, -, -, hsymbols, -⟩ := fromText.exists_tables
  refine ⟨fromText.forest, fromText.types, fun symbol hsymbol ↦ ?_⟩
  rw [hsymbols] at hsymbol
  obtain ⟨node, -, hread⟩ := mem_filterMap.mp hsymbol
  rwa [Symbol.node_eq_of_read? hread]

theorem validate_eq_ok : unit.validate = .ok () := by
  obtain ⟨tables, htables, -⟩ := fromText.exists_tables
  rw [validate, htables]
  rfl

theorem childOf?_of_mem_tableNodes (h : table ∈ unit.tableNodes) :
    ∃ kind ∈ [.typeTable, unit.role.symbolsKind, unit.role.declarationsKind],
      unit.document.childOf? unit.root kind = some table := by
  obtain ⟨tables, htables, htypes, hsymbols, hdeclarations⟩ := fromText.exists_tables
  obtain ⟨-, htypeTable, hsymbolTable, hdeclarationTable⟩ := tableElements_eq_ok_iff.mp htables
  rcases mem_tableNodes.mp h with h | h | h
  · cases htypes.symm.trans h
    exact ⟨_, by simp, htypeTable⟩
  · cases (congrArg SymbolTable.element? hsymbols).symm.trans h
    exact ⟨_, by simp, hsymbolTable⟩
  · cases hdeclarations.symm.trans h
    exact ⟨_, by simp, hdeclarationTable⟩

theorem contains_of_mem_tableNodes (h : table ∈ unit.tableNodes) :
    unit.document.contains table := by
  obtain ⟨_, -, hchild⟩ := fromText.childOf?_of_mem_tableNodes h
  exact contains_of_parent? (fromText.forest.parent?_of_childOf? hchild)

theorem kind_ne : ∀ x ∈ unit.root :: unit.tableNodes,
    unit.document.kind x ≠ .doLoop ∧ unit.document.kind x ≠ .pragma := by
  refine forall_mem_cons.mpr ⟨?_, fun x hx ↦ ?_⟩
  · obtain ⟨tables, htables, -⟩ := fromText.exists_tables
    have hroot := (tableElements_eq_ok_iff.mp htables).1
    rw [isKind, beq_iff_eq] at hroot
    rw [hroot]
    exact unit.role.required_ne (mem_cons_self ..)
  · obtain ⟨wanted, hwanted, hchild⟩ := fromText.childOf?_of_mem_tableNodes hx
    rw [kind_of_childOf? hchild]
    exact unit.role.required_ne (mem_cons_of_mem _ hwanted)

theorem hasTables : unit.HasTables := by
  obtain ⟨tables, htables, htypes, hsymbols, hdeclarations⟩ := fromText.exists_tables
  have hlive := contains_of_tableElements fromText.forest htables
  exact ⟨⟨_, htypes, hlive _ (by simp)⟩,
    ⟨_, congrArg SymbolTable.element? hsymbols, hlive tables.symbols (by simp)⟩,
    ⟨_, hdeclarations, hlive _ (by simp)⟩⟩

end FromText

end SourceUnit

namespace Files

variable {files : Files}

theorem entry?_of_walk {location last : Location} {names : List String} {entry : FileEntry}
    (h : files.walk location names = .ok (last, entry)) : files.entry? last = some entry := by
  induction names generalizing location with
  | nil =>
    unfold walk at h
    split at h
    · cases h
    · next hentry =>
      cases h
      exact hentry
  | cons name rest ih =>
    unfold walk at h
    split at h
    · cases h
    · split at h
      · exact ih h
      · split at h
        · exact ih h
        · split at h
          · cases h
          · exact ih h
    · cases h

theorem exists_mem_of_read {path text : String} (h : files.read path = .ok text) :
    ∃ location, (location, .text text) ∈ files.entries := by
  unfold read at h
  split at h
  · cases h
  · cases h
  · cases h
  · next location content hresolve =>
    cases h
    refine ⟨location, ?_⟩
    unfold resolve at hresolve
    split at hresolve
    · cases hresolve
    · split at hresolve
      · cases hresolve
      · have hentry := entry?_of_walk hresolve
        unfold entry? at hentry
        split at hentry
        · cases hentry
        · obtain ⟨⟨_, _⟩, hfind, rfl⟩ := Option.map_eq_some_iff.mp hentry
          have hsame := find?_some hfind
          rw [beq_iff_eq] at hsame
          exact hsame ▸ mem_of_find?_eq_some hfind

end Files

namespace Library

variable {library later : Library} {unit : SourceUnit} {files : Files}

theorem exists_read_of_readModule {name : String}
    (h : library.readModule files name = .ok unit) :
    ∃ path text, files.read path = .ok text ∧ SourceUnit.read (.module name) text = .ok unit := by
  obtain ⟨path, -, h⟩ := exists_of_bind_eq_ok h
  split at h
  · cases h
  · next text hpath =>
    split at h
    · cases h
    · next hread =>
      cases h
      exact ⟨path, text, hpath, hread⟩

@[simp] theorem readModule_insert : (library.insert unit).readModule = library.readModule := by
  unfold insert
  split <;> rfl

theorem mem_modules_of_insert {entry : String × SourceUnit}
    (h : entry ∈ (library.insert unit).modules) : entry ∈ library.modules ∨ entry.2 = unit := by
  unfold insert at h
  split at h
  · exact Or.inl h
  · exact (mem_append.mp h).imp_right fun h ↦ congrArg Prod.snd (mem_singleton.mp h)

/-- What holds of the modules of a library, and of the one that it reads for a name, holds of the
modules after it was loaded. Other modules are read as before. -/
theorem forall_load (property : SourceUnit → Prop)
    (hmodules : ∀ entry ∈ library.modules, property entry.2) {name : String}
    (hread : ∀ {read}, library.readModule files name = .ok read → property read)
    (h : library.load files name = .ok (later, unit)) :
    (∀ entry ∈ later.modules, property entry.2) ∧ property unit ∧
      later.readModule = library.readModule := by
  unfold load at h
  split at h
  · next found hfound =>
    cases h
    obtain ⟨entry, hentry, rfl⟩ := Option.map_eq_some_iff.mp hfound
    exact ⟨hmodules, hmodules entry (mem_of_find?_eq_some hentry), rfl⟩
  · obtain ⟨read, hmodule, h⟩ := exists_of_bind_eq_ok h
    cases h
    refine ⟨fun entry hentry ↦ ?_, hread hmodule, readModule_insert⟩
    rcases mem_modules_of_insert hentry with hentry | hentry
    · exact hmodules entry hentry
    · exact hentry ▸ hread hmodule

def Readable (library : Library) : Prop :=
  ∀ entry ∈ library.modules, entry.2.Readable

/-- Loading another module keeps the library one that can be imported from. -/
theorem readable_load (readable : library.Readable) {name : String}
    (h : library.load files name = .ok (later, unit)) : later.Readable ∧ unit.Readable := by
  obtain ⟨hmodules, hunit, -⟩ := forall_load SourceUnit.Readable readable (fun hmodule ↦ by
    obtain ⟨_, _, -, hread⟩ := exists_read_of_readModule hmodule
    exact (SourceUnit.fromText_of_read hread).1.readable) h
  exact ⟨hmodules, hunit⟩

end Library

end LoopDirectives
