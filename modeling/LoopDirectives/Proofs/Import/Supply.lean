import LoopDirectives.Proofs.Document.Aging
import LoopDirectives.Proofs.Import.TypeLayer
import LoopDirectives.Proofs.Text.Blank

/-!
# What an import adds to the tables

An operand needs its type in the unit that it is imported into, and for a variable also the symbol.
Where both are there already (`Provided`), all that the import adds is the copy of the operand;
otherwise a table grows. `importOperands_spec` says this of a list of operands, and for all of them
with respect to the unit before the first import: the copies of earlier operands are in no table.
-/

namespace LoopDirectives

open Document List

/-! ### Edits of new nodes -/

namespace Document

variable {source doc after : Document} {copies : List NodeId} {x : NodeId} {scope : Scope}

theorem Forest.node?_of_steps (forest : doc.Forest)
    (steps : doc.fresher.Steps doc after) (hx : x.index < doc.slots.size) :
    after.node? x = doc.node? x := by
  cases hlive : doc.contains x with
  | false =>
    have hgone := (Scope.Steps.ages forest steps).not_contains hx hlive
    rw [contains_eq_false_iff.mp hlive, contains_eq_false_iff.mp hgone]
  | true =>
    obtain ⟨hcontains, hlabel, hparent, hchildren⟩ := forest.readings_of_steps steps hlive
    exact node?_congr (hcontains.trans hlive.symm) hlabel hparent hchildren

/-! ### Copies -/

/-- Copies are made one after the other, hanging nowhere. -/
inductive CopiedAll (source : Document) : Document → Document → List NodeId → Prop
  | nil (doc : Document) : CopiedAll source doc doc []
  | cons {doc middle after : Document} {copy : NodeId} {copies : List NodeId}
    (first : Copied source doc middle copy) (rest : CopiedAll source middle after copies) :
    CopiedAll source doc after (copy :: copies)

namespace CopiedAll

theorem steps {scope : Scope} (copied : CopiedAll source doc after copies)
    (guards : scope.Guards doc) : scope.Steps doc after := by
  induction copied with
  | nil => exact .refl
  | cons first _ ih =>
    have hfirst := first.steps guards
    exact hfirst.trans (ih (Scope.Steps.guards guards hfirst))

theorem forest (copied : CopiedAll source doc after copies) (forest : doc.Forest) :
    after.Forest :=
  Scope.Steps.forest forest (copied.steps forest.guards_whole)

section

variable (copied : CopiedAll source doc after copies) (forest : doc.Forest)

include copied forest

theorem rootedAt {roots : List NodeId} (rooted : doc.RootedAt roots) :
    after.RootedAt (copies ++ roots) := by
  induction copied generalizing roots with
  | nil => exact rooted
  | cons first _ ih =>
    refine (ih (first.forest_after forest) (first.rootedAt forest rooted)).mono fun x hx ↦ ?_
    simpa [or_left_comm] using hx

theorem contains_old (hx : doc.contains x) : after.contains x := by
  induction copied with
  | nil => exact hx
  | cons first _ ih => exact ih (first.forest_after forest) (first.contains_old forest hx)

theorem contains_copy :
    ∀ copy ∈ copies, after.contains copy ∧ doc.slots.size ≤ copy.index := by
  induction copied with
  | nil => exact fun _ hcopy ↦ absurd hcopy not_mem_nil
  | cons first rest ih =>
    have hforest := first.forest_after forest
    have hsize := (Scope.Steps.ages forest (first.steps forest.guards_whole)).size_le
    exact forall_mem_cons.mpr
      ⟨⟨rest.contains_old hforest (first.contains_copy forest), first.le_index⟩,
        fun copy hcopy ↦ ⟨(ih hforest copy hcopy).1, hsize.trans (ih hforest copy hcopy).2⟩⟩

end

end CopiedAll

end Document

/-- The unit has a type table and a symbol table, and its types are nodes that its document has or
had. -/
structure SourceUnit.Tabled (unit : SourceUnit) : Prop where
  types : unit.types.element?.isSome = true
  symbols : unit.symbols.element?.isSome = true
  index_lt : ∀ entry ∈ unit.types.entries, entry.node.index < unit.document.slots.size

namespace Import

open SourceUnit

variable {source target before middle after : SourceUnit} {origin typed doc : Document}
  {copy node : NodeId} {symbol : Symbol} {nodes copies : List NodeId}

/-! ### Tables that grow -/

/-- The tables have the entries that they had, in their order, and others after them. -/
structure TablesExtend (before after : SourceUnit) : Prop where
  types : before.types.entries <+: after.types.entries
  symbols : before.symbols.entries <+: after.symbols.entries
  declarations : before.declarations.entries <+: after.declarations.entries

theorem TablesExtend.refl (unit : SourceUnit) : TablesExtend unit unit :=
  ⟨prefix_rfl, prefix_rfl, prefix_rfl⟩

theorem TablesExtend.trans (first : TablesExtend before middle)
    (second : TablesExtend middle after) : TablesExtend before after :=
  ⟨first.types.trans second.types, first.symbols.trans second.symbols,
    first.declarations.trans second.declarations⟩

def tableSize (unit : SourceUnit) : Nat :=
  unit.types.entries.length + unit.symbols.entries.length

theorem TablesExtend.tableSize_le (extend : TablesExtend before after) :
    tableSize before ≤ tableSize after :=
  Nat.add_le_add extend.types.length_le extend.symbols.length_le

theorem tablesExtend_enter (table : TableName)
    (hid : table = .types → ∀ id, typed.typeId? copy = some id → target.types.contains id = false) :
    TablesExtend target (enter target typed copy table) ∧ (table ≠ .declarations →
      ({ target with document := typed }.insert? copy table).isSome →
        tableSize target < tableSize (enter target typed copy table)) := by
  unfold enter
  cases hinsert : { target with document := typed }.insert? copy table with
  | none => exact ⟨⟨prefix_rfl, prefix_rfl, prefix_rfl⟩, fun _ ↦ nofun⟩
  | some after =>
    rw [Option.getD_some]
    cases table with
    | types =>
      obtain ⟨_, entry, -, hread, rfl⟩ := insert?_types_eq_some hinsert
      have hplace : (target.types.push entry).entries = target.types.entries ++ [entry] :=
        Keyed.place_of_notMem TypeEntry.id (TypeTable.contains_eq_false_iff.mp
          (hid rfl entry.id (TypeEntry.node_of_read? hread).2.1))
      exact ⟨⟨⟨[entry], hplace.symm⟩, prefix_rfl, prefix_rfl⟩, fun _ _ ↦ by
        simp [tableSize, hplace]⟩
    | symbols =>
      obtain ⟨_, symbol, -, -, rfl⟩ := insert?_symbols_eq_some hinsert
      exact ⟨⟨prefix_rfl, prefix_append .., prefix_rfl⟩, fun _ _ ↦ by
        simp [tableSize]⟩
    | declarations =>
      obtain ⟨_, _, -, hread, hfree, rfl⟩ := insert?_declarations_eq_some hinsert
      obtain ⟨name, hname, rfl⟩ := Option.map_eq_some_iff.mp hread
      obtain ⟨text, -, rfl⟩ := Option.map_eq_some_iff.mp hname
      simp [DeclarationTable.contains, DeclarationTable.get?, Text.lower_lower] at hfree
      refine ⟨⟨prefix_rfl, prefix_rfl, ?_⟩, fun h ↦ absurd rfl h⟩
      rw [DeclarationTable.push, Keyed.place_of_notMem Declaration.name hfree]
      exact prefix_append ..

theorem tablesExtend_declares (declares : Declares source before after) :
    TablesExtend before after := by
  cases declares with
  | type link id reference? _ hfree =>
    rcases declare_cases source before link id reference? with ⟨-, heq⟩ | ⟨copied, copy, -, heq⟩
    · rw [heq]
      exact .refl before
    · rw [heq]
      refine (tablesExtend_enter .types fun _ found hfound ↦ ?_).1
      -- A copy that has a type is alive, and then it has the type that it was given.
      have hlive := contains_of_attribute? hfound
      have hcopy : copied.contains copy := by
        cases reference? <;> simpa [setReference, setAttribute] using hlive
      rw [typeId?_setReference hcopy, Option.some.injEq] at hfound
      rwa [← hfound]
  | symbol symbol type? _ _ =>
    rcases declareSymbol_cases source before symbol type? with ⟨-, heq⟩ | ⟨_, _, -, heq⟩
    · rw [heq]
      exact .refl before
    · rw [heq]
      exact (tablesExtend_enter .symbols fun h ↦ by cases h).1
  | declaration symbol type? =>
    rcases declareVariable_cases source before symbol type? with heq | ⟨_, _, _, -, -, heq⟩
    · rw [heq]
      exact .refl before
    · rw [heq]
      exact (tablesExtend_enter .declarations fun h ↦ by cases h).1

theorem Fetches.tablesExtend (fetches : Fetches source before after copies) :
    TablesExtend before after := by
  induction fetches with
  | nothing unit => exact .refl unit
  | declares first _ ih => exact (tablesExtend_declares first).trans ih
  | copies _ _ ih => exact ⟨ih.types, ih.symbols, ih.declarations⟩

theorem Fetches.forest (fetches : Fetches source before after copies)
    (forest : before.document.Forest) : after.document.Forest :=
  ((serves_newNodes forest).extends_fetches fetches).1.steps.forest forest

/-! ### Types -/

/-- The identifier under which the target has the links already, each in a form that refers to the
next one. -/
def present? (source target : SourceUnit) (base? : Option String) :
    List TypeLink → Option (Option String)
  | [] => some base?
  | link :: rest => (present? source target base? rest).bind fun reference? ↦
    (existing? source target link reference?).map some

def HasType (source target : SourceUnit) : Option String → Prop
  | none => True
  | some id => ∃ chain, TypeChain.of source id = .ok chain ∧
    (present? source target chain.base? chain.links).isSome = true

section Types

variable {base? result? : Option String} {links : List TypeLink}

theorem importLinks_of_present? (h : present? source target base? links = some result?) :
    importLinks source target base? links = (target, result?) := by
  induction links generalizing result? with
  | nil =>
    cases h
    rfl
  | cons link rest ih =>
    obtain ⟨reference?, hrest, h⟩ := Option.bind_eq_some_iff.mp h
    obtain ⟨id, hid, rfl⟩ := Option.map_eq_some_iff.mp h
    simp only [importLinks, ih hrest, importLink, hid]

theorem tableSize_lt_importLinks (forest : target.document.Forest)
    (htable : target.types.element?.isSome)
    (hlinks : ∀ link ∈ links, ∃ own?, TypeChain.link? source link.id = some (link, own?))
    (hmissing : present? source target base? links = none) :
    tableSize target < tableSize (importLinks source target base? links).1 := by
  induction links with
  | nil => cases hmissing
  | cons link rest ih =>
    obtain ⟨⟨own?, hlink⟩, hrest⟩ := forall_mem_cons.mp hlinks
    cases hpresent : present? source target base? rest with
    | none =>
      exact Nat.lt_of_lt_of_le (ih hrest hpresent)
        (fetchesTypes_importLink _ ⟨own?, hlink⟩ _).1.tablesExtend.tableSize_le
    | some reference? =>
      rw [present?, hpresent, Option.bind_some, Option.map_eq_none_iff] at hmissing
      obtain ⟨entry, form, -, -, hlive, heq, -⟩ := TypeChain.link?_eq_some_iff.mp hlink
      have hnode : source.document.contains link.node := by rwa [heq]
      obtain ⟨table, htable⟩ := Option.isSome_iff_exists.mp htable
      obtain ⟨_, added, -, -, hdeclare⟩ := declare_eq_append forest htable hnode
        (contains_newId target link.id) reference?
      simp [importLinks, importLinks_of_present? hpresent, importLink, hmissing, tableSize,
        hdeclare]

theorem importType?_spec (forest : target.document.Forest) {type? : Option String}
    (h : importType?InPlace source type? target = .ok result? after) :
    (HasType source target type? → after = target) ∧
      (¬ HasType source target type? → target.types.element?.isSome →
        tableSize target < tableSize after) := by
  cases type? with
  | none =>
    cases h
    exact ⟨fun _ ↦ rfl, fun hmissing ↦ absurd trivial hmissing⟩
  | some id =>
    obtain ⟨result, middle, h, hpure⟩ := InPlace.bind_eq_ok h
    cases hpure
    obtain ⟨chain, hchain, himport⟩ := importTypeInPlace_eq_ok_iff.mp h
    obtain rfl : (importLinks source target chain.base? chain.links).1 = after := by rw [himport]
    refine ⟨?_, fun hmissing htable ↦
      tableSize_lt_importLinks forest htable (fun _ hlink ↦
        (TypeChain.linked_within hchain).link?_of_mem hlink) ?_⟩
    · rintro ⟨other, hother, hpresent⟩
      cases hchain.symm.trans hother
      obtain ⟨result?, hpresent⟩ := Option.isSome_iff_exists.mp hpresent
      rw [importLinks_of_present? hpresent]
    · rw [← Option.not_isSome_iff_eq_none]
      exact fun hpresent ↦ hmissing ⟨chain, hchain, hpresent⟩

end Types

/-! ### Operands -/

/-- The target has all that the operand needs: its type, and a symbol of the name of the one that
the operand refers to. -/
def Provided (source target : SourceUnit) (node : NodeId) : Prop :=
  HasType source target (source.document.typeId? node) ∧
    ∀ symbol, symbolOf? source node = some symbol → target.symbols.contains symbol.name = true

section

variable (hsource : source.Readable) (forest : target.document.Forest)

include hsource forest

theorem tableSize_lt_declareSymbol (hsymbol : symbol ∈ source.symbols.entries)
    (hfree : target.symbols.contains symbol.name = false)
    (htable : target.symbols.element?.isSome) (type? : Option String) :
    tableSize target < tableSize (declareSymbol source target symbol type?) := by
  have hlive := (Symbol.contains_of_read? (hsource.read? symbol hsymbol)).1
  rcases declareSymbol_cases source target symbol type? with
    ⟨hstale, -⟩ | ⟨copied, copy, hcopy, heq⟩
  · cases hstale.symm.trans hlive
  have hread := read?_copy forest hsource hsymbol hcopy type?
  obtain ⟨table, htable⟩ := Option.isSome_iff_exists.mp htable
  rw [heq]
  refine (tablesExtend_enter .symbols nofun).2 (by decide) ?_
  simp [insert?, SymbolTable.insert?, htable, hread, hfree]

theorem importSymbolOf_spec (h : importSymbolOfInPlace source node target = .ok () after) :
    ((∀ symbol, symbolOf? source node = some symbol →
        target.symbols.contains symbol.name) → after = target) ∧
      (∀ symbol, symbolOf? source node = some symbol →
        target.symbols.contains symbol.name = false → target.symbols.element?.isSome →
          tableSize target < tableSize after) := by
  rw [importSymbolOfInPlace_eq] at h
  cases hsymbol : symbolOf? source node with
  | none =>
    rw [hsymbol] at h
    cases h
    exact ⟨fun _ ↦ rfl, nofun⟩
  | some symbol =>
    rw [hsymbol] at h
    dsimp only at h
    split at h
    · next hknown =>
      cases h
      refine ⟨fun _ ↦ rfl, fun other hother hfree ↦ ?_⟩
      cases hother
      rw [hknown] at hfree
      cases hfree
    · next hfree =>
      rw [Bool.not_eq_true] at hfree
      obtain ⟨type?, typed, htyped, rfl⟩ := importSymbolInPlace_eq_ok h
      obtain ⟨hfetches, hsymbols⟩ := (leaves_importType? source _).of_ok htyped
      refine ⟨fun hall ↦ ?_, fun other hother _ htable ↦ ?_⟩
      · rw [hall symbol rfl] at hfree
        cases hfree
      · cases hother
        have hdeclares : Declares source _ _ :=
          .declaration (declareSymbol source typed symbol type?) symbol type?
        calc tableSize target ≤ tableSize typed := hfetches.tablesExtend.tableSize_le
          _ < _ := tableSize_lt_declareSymbol hsource (hfetches.forest forest)
            (mem_of_symbolOf? hsymbol) (hsymbols ▸ hfree) (hsymbols ▸ htable) type?
          _ ≤ _ := hdeclares.fetches.tablesExtend.tableSize_le

theorem importOperand_spec (h : importOperandInPlace source node target = .ok copy after) :
    (Provided source target node → ∃ doc,
        Copied source.document target.document doc copy ∧ after = { target with document := doc }) ∧
      (¬ Provided source target node → target.types.element?.isSome →
        target.symbols.element?.isSome → tableSize target < tableSize after) := by
  obtain ⟨type?, typed, known, copied, htyped, hknown, hcopy, rfl⟩ := importOperandInPlace_eq_ok h
  obtain ⟨hsame, hgrows⟩ := importType?_spec forest htyped
  obtain ⟨hkept, hadds⟩ := importSymbolOf_spec hsource
    (((leaves_importType? source _).of_ok htyped).1.forest forest) hknown
  refine ⟨?_, fun hmissing htable hsymbolTable ↦ ?_⟩
  · rintro ⟨htype, hsymbol⟩
    cases hsame htype
    cases hkept hsymbol
    exact ⟨_, copied_setType hcopy type?, rfl⟩
  · by_cases htype : HasType source target (source.document.typeId? node)
    · cases hsame htype
      rw [Provided, not_and, not_forall] at hmissing
      obtain ⟨symbol, hsymbol⟩ := hmissing htype
      rw [Classical.not_imp, Bool.not_eq_true] at hsymbol
      exact hadds symbol hsymbol.1 hsymbol.2 hsymbolTable
    · exact Nat.lt_of_lt_of_le (hgrows htype htable)
        ((leaves_importSymbolOf source node).of_ok hknown).tablesExtend.tableSize_le

end

/-! ### Operands one after the other -/

theorem typesExtend_of_copied (forest : target.document.Forest) (tabled : target.Tabled)
    (copied : Copied origin target.document doc copy) :
    TypesExtend target { target with document := doc } := by
  have hold (x : NodeId) (hx : x.index < target.document.slots.size) :=
    readings_eq (forest.node?_of_steps (copied.steps forest.guards_fresher) hx)
  refine ⟨prefix_rfl, fun entry hentry ↦ (hold _ (tabled.index_lt entry hentry)).1,
    fun entry hentry ↦ forest.element_congr (copied.forest_after forest) fun x hx ↦ ?_⟩
  have hindex : x.index < target.document.slots.size := by
    rcases (forest.mem_subtree_iff _ _).mp hx with rfl | habove
    · exact tabled.index_lt entry hentry
    · exact index_lt_size habove.contains
  exact ⟨(hold x hindex).2.1, (hold x hindex).2.2.2⟩

theorem provided_iff_of_copied (hsource : source.document.Forest)
    (forest : target.document.Forest) (tabled : target.Tabled)
    (copied : Copied origin target.document doc copy) (node : NodeId) :
    Provided source { target with document := doc } node ↔ Provided source target node := by
  have hextend := typesExtend_of_copied forest tabled copied
  have hexisting (link : TypeLink) (reference? : Option String) :
      existing? source { target with document := doc } link reference? =
        existing? source target link reference? := by
    unfold existing?
    congr 1
    exact find?_congr fun entry hentry ↦
      hextend.sameType_eq forest (copied.forest_after forest) hsource hentry
  have hpresent (base? : Option String) (links : List TypeLink) :
      present? source { target with document := doc } base? links =
        present? source target base? links := by
    induction links with
    | nil => rfl
    | cons link rest ih => simp only [present?, ih, hexisting]
  unfold Provided
  refine and_congr_left' ?_
  cases source.document.typeId? node with
  | none => exact Iff.rfl
  | some id => simp only [HasType, hpresent]

theorem tabled_of_copied (forest : target.document.Forest) (tabled : target.Tabled)
    (copied : Copied origin target.document doc copy) :
    SourceUnit.Tabled { target with document := doc } :=
  ⟨tabled.types, tabled.symbols, fun entry hentry ↦ Nat.lt_of_lt_of_le
    (tabled.index_lt entry hentry)
    (Scope.Steps.ages forest (copied.steps forest.guards_whole)).size_le⟩

/-- Operands for which all is there are copied and nothing else happens; if something is missing for
one of them a table grows. -/
theorem importOperands_spec (hsource : source.Readable) (forest : target.document.Forest)
    (tabled : target.Tabled) (h : importOperandsInPlace source nodes target = .ok copies after) :
    ((∀ node ∈ nodes, Provided source target node) →
      ∃ doc, CopiedAll source.document target.document doc copies ∧
        after = { target with document := doc }) ∧
    ((∃ node ∈ nodes, ¬ Provided source target node) → tableSize target < tableSize after) := by
  induction nodes generalizing target copies with
  | nil =>
    cases h
    exact ⟨fun _ ↦ ⟨_, .nil _, rfl⟩, by simp⟩
  | cons node rest ih =>
    obtain ⟨first, copy, others, hfirst, hrest, rfl⟩ := importOperandsInPlace_cons_eq_ok h
    obtain ⟨hcopies, hgrows⟩ := importOperand_spec hsource forest hfirst
    by_cases hprovided : Provided source target node
    · obtain ⟨doc, hcopied, rfl⟩ := hcopies hprovided
      have hiff := provided_iff_of_copied hsource.forest forest tabled hcopied
      obtain ⟨hall, hadds⟩ := ih (hcopied.forest_after forest)
        (tabled_of_copied forest tabled hcopied) hrest
      refine ⟨fun hnodes ↦ ?_, ?_⟩
      · obtain ⟨last, hothers, rfl⟩ := hall fun node hnode ↦
          (hiff node).mpr (hnodes node (mem_cons_of_mem _ hnode))
        exact ⟨last, .cons hcopied hothers, rfl⟩
      · rintro ⟨missing, hmissing, hnot⟩
        rcases mem_cons.mp hmissing with rfl | hmissing
        · exact absurd hprovided hnot
        · exact hadds ⟨missing, hmissing, fun h ↦ hnot ((hiff missing).mp h)⟩
    · have hmore := (fetches_importOperands hrest).tablesExtend
      exact ⟨fun hnodes ↦ absurd (hnodes node (mem_cons_self ..)) hprovided, fun _ ↦
        Nat.lt_of_lt_of_le (hgrows hprovided tabled.types tabled.symbols) hmore.tableSize_le⟩

end Import

end LoopDirectives
