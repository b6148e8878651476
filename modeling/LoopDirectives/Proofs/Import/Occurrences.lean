import LoopDirectives.Proofs.Import.Growing
import LoopDirectives.Proofs.Import.Items

/-!
# Where the labels of imported nodes come from

A type that an import renames gets an identifier that resolves in the program and stands for the
original (`Import.StandsFor`): it means the same, as long as the program shelters its types
(`SourceUnit.Sheltered`). The label of every new node is that of a node of something that the
operands need, up to such renaming (`Import.Brought`). `Import.Widens` is what each of its steps
does.
-/

namespace LoopDirectives

open Document List

/-- No type is declared under a built-in identifier, and no table stands inside a type. -/
structure SourceUnit.Sheltered (unit : SourceUnit) : Prop where
  builtin : Import.DeclaresNoBuiltin unit
  apart : ∀ entry ∈ unit.types.entries, ∀ table ∈ unit.tableNodes,
    table ∉ unit.document.subtree entry.node

namespace Import

open SourceUnit

variable {source target before middle after : SourceUnit} {operands : List NodeId}
  {safe : Prop} {elements sourceElements : TableElements} {stands : String → String → Prop}

/-- The identifier resolves in the unit, and if that is safe it means there what the original means
in the source. -/
structure StandsFor (source unit : SourceUnit) (safe : Prop) (original id : String) : Prop where
  resolves : unit.Resolves id
  denotes : safe → ∀ meaning, source.Denotes original meaning → unit.Denotes id meaning

/-- The label comes from something that the operands need. -/
def Brought (source : SourceUnit) (operands : List NodeId) (stands : String → String → Prop)
    (label : Label) : Prop :=
  ∃ item : Item, item.Of source operands ∧
    ∃ node, item.Explains source.document stands node label

theorem Brought.mono {other : String → String → Prop} {label : Label}
    (brought : Brought source operands stands label)
    (h : ∀ original id, stands original id → other original id) :
    Brought source operands other label := by
  obtain ⟨item, hitem, node, hexplains⟩ := brought
  exact ⟨item, hitem, node, hexplains.mono h⟩

/-! ### Steps of an import -/

/-- What a step of an import asks of the unit that it goes to. -/
structure Ready (elements : TableElements) (safe : Prop) (unit : SourceUnit) : Prop where
  indexed : unit.IndexedBy elements
  refers : unit.RefersWithin
  sheltered : safe → unit.Sheltered

/-- The second unit is ready, and has the types of the first one and others after them. Every node
of it is as it was or comes from the source. -/
structure Widens (source : SourceUnit) (operands : List NodeId) (elements : TableElements)
    (safe : Prop) (before after : SourceUnit) : Prop where
  ready : Ready elements safe after
  entries : before.types.entries <+: after.types.entries
  extend : safe → TypesExtend before after
  labels : ∀ x, after.document.contains x = true →
    before.document.contains x = true ∧ after.document.label x = before.document.label x ∨
      Brought source operands (StandsFor source after safe) (after.document.label x)

theorem StandsFor.mono {original id : String} (stands : StandsFor source before safe original id)
    (hentries : before.types.entries <+: after.types.entries)
    (hextend : safe → TypesExtend before after) (hbefore : before.document.Forest)
    (hafter : after.document.Forest) : StandsFor source after safe original id :=
  ⟨stands.resolves.mono hentries, fun hsafe meaning hmeaning ↦
    (stands.denotes hsafe meaning hmeaning).of_typesExtend (hextend hsafe) hbefore hafter⟩

namespace Widens

theorem refl (ready : Ready elements safe target) :
    Widens source operands elements safe target target :=
  ⟨ready, prefix_rfl, fun _ ↦ .refl target, fun _ hx ↦ Or.inl ⟨hx, rfl⟩⟩

theorem standsFor {original id : String}
    (widens : Widens source operands elements safe before after)
    (ready : Ready elements safe before) (stands : StandsFor source before safe original id) :
    StandsFor source after safe original id :=
  stands.mono widens.entries widens.extend ready.indexed.forest widens.ready.indexed.forest

theorem trans (first : Widens source operands elements safe before middle)
    (second : Widens source operands elements safe middle after) :
    Widens source operands elements safe before after := by
  refine ⟨second.ready, first.entries.trans second.entries,
    fun hsafe ↦ (first.extend hsafe).trans (second.extend hsafe), fun x hx ↦ ?_⟩
  rcases second.labels x hx with ⟨hmiddle, hlabel⟩ | hnew
  · rw [hlabel]
    exact (first.labels x hmiddle).imp_right fun hbrought ↦
      hbrought.mono fun _ _ ↦ second.standsFor first.ready
  · exact Or.inr hnew

end Widens

/-! ### Steps that declare no type -/

theorem Widens.of_grows (ready : Ready elements safe before) (grows : Grows elements before after)
    (htypes : after.types = before.types)
    (hlabels : ∀ x, after.document.contains x →
      before.document.contains x ∧ after.document.label x = before.document.label x ∨
        Brought source operands (StandsFor source before safe) (after.document.label x)) :
    Widens source operands elements safe before after := by
  have hentries := grows.keeps.tables.types
  have hextend (hsafe : safe) := grows.typesExtend ready.indexed (ready.sheltered hsafe).apart
  refine ⟨⟨grows.indexed, fun entry hentry reference hreference ↦ ?_, fun hsafe ↦
    ⟨?_, grows.apart ready.indexed (ready.sheltered hsafe).apart⟩⟩, hentries, hextend,
    fun x hx ↦ (hlabels x hx).imp_right fun hbrought ↦ hbrought.mono
      fun _ _ hstands ↦ hstands.mono hentries hextend ready.indexed.forest grows.indexed.forest⟩
  · rw [htypes] at hentry
    rw [Document.attribute?, grows.keeps.label _ (ready.indexed.readable.types entry hentry)]
      at hreference
    exact (ready.refers entry hentry reference hreference).mono hentries
  · rw [DeclaresNoBuiltin, htypes]
    exact (ready.sheltered hsafe).builtin

section Copies

variable {origin typed : Document} {copy : NodeId} {item : Item}

/-- The nodes that are new after an item was copied come from it. -/
theorem labels_copied (forest : before.document.Forest)
    (hcopied : Copied origin before.document typed copy) (hitem : item.Of source operands)
    (hevery : (typed.element copy).Every fun label _ ↦
      ∃ node, item.Explains source.document stands node label) {x : NodeId}
    (hx : typed.contains x) :
    before.document.contains x ∧ typed.label x = before.document.label x ∨
      Brought source operands stands (typed.label x) := by
  by_cases hold : x.index < before.document.slots.size
  · obtain ⟨hcontains, hlabel, -⟩ :=
      readings_eq (forest.node?_of_steps (hcopied.steps forest.guards_fresher) hold)
    exact Or.inl ⟨hcontains ▸ hx, hlabel⟩
  · have hforest := hcopied.forest_after forest
    obtain ⟨rfl, id, node, -, -, hretypes⟩ := hcopied
    have hmem := (hretypes.mem_subtree_iff (forest.plant _) _).mpr
      (forest.mem_subtree_fresh (Nat.not_lt.mp hold) ((hretypes.readings x).1.symm.trans hx))
    exact Or.inr ⟨item, hitem, hforest.every_element_iff.mp hevery x hmem⟩

variable (ready : Ready elements safe before) (hcopied : Copied origin before.document typed copy)
  (hitem : item.Of source operands)
  (hevery : (typed.element copy).Every fun label _ ↦
    ∃ node, item.Explains source.document (StandsFor source before safe) node label)

include ready hcopied hitem hevery

theorem widens_copied :
    Widens source operands elements safe before { before with document := typed } :=
  .of_grows ready (grows_copied ready.indexed hcopied) rfl fun _ ↦
    labels_copied ready.indexed.forest hcopied hitem hevery

theorem widens_enter {table : TableName} (htable : table ≠ .types) :
    Widens source operands elements safe before (enter before typed copy table) := by
  obtain ⟨hgrows, htypes⟩ := grows_enter ready.indexed hcopied htable
  have hlabels {x : NodeId} := labels_copied (x := x) ready.indexed.forest hcopied hitem hevery
  refine .of_grows ready hgrows htypes fun x hx ↦ ?_
  rcases (entered_enter before typed copy table).document with heq | heq | ⟨place, -, heq⟩ <;>
    rw [heq] at hx ⊢
  · exact hlabels hx
  · have hforest := hcopied.forest_after ready.indexed.forest
    obtain ⟨hlive, hmem⟩ := hforest.contains_delete_iff.mp hx
    rw [hforest.label_delete hmem]
    exact hlabels hlive
  · obtain ⟨hcontains, hlabel⟩ :=
      readings_append (hcopied.forest_after ready.indexed.forest) place copy x
    rw [hcontains] at hx
    rw [hlabel]
    exact hlabels hx

end Copies

/-! ### Symbols, declarations and operands -/

section Declaring

variable {type? : Option String} {symbol : Symbol} (hsource : source.document.Forest)
  (ready : Ready elements safe before)
  (hsymbol : ∃ operand ∈ operands, symbolOf? source operand = some symbol)
  (hrel : Option.Rel (StandsFor source before safe) symbol.type? type?)

include hsource ready hsymbol hrel

theorem widens_declareSymbol :
    Widens source operands elements safe before (declareSymbol source before symbol type?) := by
  rcases declareSymbol_cases source before symbol type? with
    ⟨-, heq⟩ | ⟨copied, copy, hcopy, heq⟩
  · rw [heq]
    exact .refl ready
  · have hitem : (Item.symbol symbol).Of source operands := hsymbol
    rw [heq]
    refine widens_enter ready (copied_setType hcopy type?) hitem ?_ (by decide)
    rw [element_setType_copy ready.indexed.forest hsource hcopy]
    exact every_setType _ hsource (copyFrom?_eq_some hcopy).1 (hsource.self_mem_subtree _) hrel
      fun _ _ ↦ rfl

theorem widens_declareVariable :
    Widens source operands elements safe before (declareVariable source before symbol type?) := by
  rcases declareVariable_cases source before symbol type? with
    heq | ⟨node, copied, copy, hnode, hcopy, heq⟩
  · rw [heq]
    exact .refl ready
  · have hitem : (Item.declaration symbol node).Of source operands := ⟨hnode, hsymbol⟩
    have hroot : source.document.contains (Item.declaration symbol node).root :=
      (copyFrom?_eq_some hcopy).1
    have hself := hsource.self_mem_subtree node
    rw [heq]
    refine widens_enter ready (copied_setNameType ready.indexed.forest hcopy type?) hitem ?_
      (by decide)
    rw [element_setNameType_copy ready.indexed.forest hsource hcopy, setNameType]
    cases hchild : source.document.childOf? node .name with
    | none =>
      exact every_setType _ hsource hroot hself (.none : Option.Rel _ none none) fun y name ↦ by
        simp [Item.original?, hchild]
    | some child =>
      refine every_setType _ hsource hroot (hsource.mem_subtree_of_mem_children
        (mem_children_of_childOf? hchild)) hrel fun y name ↦ ?_
      simp [Item.original?, hchild, eq_comm]

end Declaring

/-! ### Types -/

section Types

variable {id result : String} {link : TypeLink} {chain part : TypeChain}
  {own? first? reference? result? : Option String} (hsource : source.IndexedBy sourceElements)

include hsource

section

variable (indexed : target.IndexedBy elements)
  (hlink : TypeChain.link? source link.id = some (link, own?))

include indexed hlink

/-- The nodes that are new after one link come from its type. What is said of identifiers is said
of a later unit, in which all references are in place. -/
theorem labels_importLink
    (hitem : ∀ entry ∈ source.types.entries, entry.id = link.id →
      (Item.type entry).Of source operands) {final : SourceUnit} (hafter : after.document.Forest)
    (hfinal : final.document.Forest) (hextend : TypesExtend after final)
    (hrefers : final.RefersWithin)
    (hresult : safe → ∀ meaning, source.Denotes link.id meaning → final.Denotes result meaning)
    (hrel : Option.Rel (fun original id ↦ safe → ∀ meaning, source.Denotes original meaning →
      final.Denotes id meaning) own? reference?)
    (h : importLink source target link reference? = (after, result)) (x : NodeId)
    (hx : after.document.contains x) :
    target.document.contains x ∧ after.document.label x = target.document.label x ∨
      Brought source operands (StandsFor source final safe) (after.document.label x) := by
  rcases importLink_cases h with ⟨rfl, -⟩ | ⟨-, hnew, rfl⟩
  · exact Or.inl ⟨hx, rfl⟩
  · obtain ⟨own, hown, -, hreference, hnode⟩ := hsource.link?_iff.mp hlink
    obtain ⟨hmem, hownId⟩ := TypeTable.mem_of_get? hown
    have hnodeEq : link.node = own.node := congrArg TypeLink.node hnode
    obtain ⟨copied, entry, hcopy, hentryId, hdeclare⟩ := declare_eq_append indexed.forest
      indexed.element?_types (kind_of_link? hsource hlink).1
      (hnew ▸ contains_newId target link.id) reference?
    have hreadings := readings_append ((copied_retyped hcopy result reference?).forest_after
      indexed.forest) elements.types entry.node
    rw [hnodeEq] at hcopy
    have hlast : entry ∈ (declare source target link result reference?).types.entries := by
      rw [hdeclare]
      exact mem_append_right _ (mem_singleton_self _)
    have hlater := hextend.entries.subset hlast
    -- The new type refers as asked for, and so it does later on.
    have hresolves {reference : String} (hsome : reference? = some reference) :
        final.Resolves reference := by
      refine hrefers entry hlater reference ?_
      rw [hafter.attribute?_of_element_eq hfinal (hextend.element entry hlast),
        Document.attribute?, hdeclare, (hreadings entry.node).2, label_setReference_self
          ((copied_of_copyFrom? hcopy).contains_copy indexed.forest), hsome]
      exact Label.attribute?_setAttribute_self ..
    have hstands : StandsFor source final safe own.id result :=
      ⟨hentryId ▸ resolves_of_mem hlater, hownId ▸ hresult⟩
    have hrelStands : Option.Rel (StandsFor source final safe)
        (source.document.attribute? own.node "ref") reference? := by
      rw [hreference]
      cases hrel with
      | none => exact .none
      | some hdenotes => exact .some ⟨hresolves rfl, hdenotes⟩
    rw [hdeclare, (hreadings x).1] at hx
    rw [hdeclare, (hreadings x).2]
    refine labels_copied indexed.forest (copied_retyped hcopy result reference?)
      (hitem own hmem hownId) ?_ hx
    rw [element_setReference_copy indexed.forest hsource.forest hcopy]
    exact every_setReference hsource.forest (copyFrom?_eq_some hcopy).1
      (TypeEntry.node_of_read? (hsource.read?_of_mem_types hmem).2).2.1 hstands hrelStands

end

/-- Assumes: links that the operands need. Every new label is brought by one of them. -/
theorem labels_importLinks (indexed : target.IndexedBy elements)
    (hchain : TypeChain.of source id = .ok chain)
    (linked : TypeChain.Linked source first? part) (hpart : part.base? = chain.base?)
    (hitems : ∀ link ∈ part.links, ∀ entry ∈ source.types.entries, entry.id = link.id →
      (Item.type entry).Of source operands)
    (hbuiltin : safe → DeclaresNoBuiltin target)
    (h : importLinks source target part.base? part.links = (after, result?))
    {final : SourceUnit} (hfinal : final.document.Forest) (hextend : TypesExtend after final)
    (hrefers : final.RefersWithin) (x : NodeId) (hx : after.document.contains x) :
    target.document.contains x ∧ after.document.label x = target.document.label x ∨
      Brought source operands (StandsFor source final safe) (after.document.label x) := by
  -- What is imported for a part means the same in every later unit.
  have hdenotes {first result : String} {part : TypeChain} {after : SourceUnit}
      (linked : TypeChain.Linked source (some first) part) (hpart : part.base? = chain.base?)
      (himport : importLinks source target part.base? part.links = (after, some result))
      (hafter : after.document.Forest) (hextend : TypesExtend after final) (hsafe : safe)
      (meaning : TypeMeaning) (hmeaning : source.Denotes first meaning) :
      final.Denotes result meaning :=
    (denotes_importLinks_of_mem hsource indexed hchain linked hpart (hbuiltin hsafe)
      hmeaning himport).of_typesExtend hextend hafter hfinal
  induction linked generalizing after result? with
  | ends first? =>
    cases h
    exact Or.inl ⟨hx, rfl⟩
  | @made link own? rest hdeclared hlink linked ih =>
    obtain ⟨prepared, reference?, hrest, hnone, hprepared, hpreparedExtend, -⟩ :=
      importLinks_spec hsource linked indexed
    obtain ⟨done, found, himport, hindexed, hextendLink, -⟩ :=
      importLink_spec hsource hprepared hlink hdeclared hnone.mp
    cases h.symm.trans (importLinks_cons hrest himport)
    obtain ⟨hitem, hitemsRest⟩ := forall_mem_cons.mp hitems
    have hextendRest := hextendLink.trans hextend
    have hrel : Option.Rel (fun original id ↦ safe → ∀ meaning, source.Denotes original meaning →
        final.Denotes id meaning) own? reference? := by
      cases own? with
      | none =>
        rw [hnone.mpr rfl]
        exact .none
      | some original =>
        cases reference? with
        | none => cases hnone.mp rfl
        | some reference => exact .some (hdenotes linked hpart hrest hprepared.forest hextendRest)
    rcases labels_importLink hsource hprepared hlink hitem hindexed.forest hfinal hextend hrefers
      (hdenotes (.made hdeclared hlink linked) hpart h hindexed.forest hextend) hrel himport x hx
      with ⟨hold, hlabel⟩ | hbrought
    · rw [hlabel]
      exact ih hpart hitemsRest hrest hextendRest hold
    · exact Or.inr hbrought

theorem widens_importType? (ready : Ready elements safe target) {type? : Option String}
    (hneeded : ∀ id, own? = some id → Item.Needed source operands id)
    (h : importType?InPlace source own? target = .ok type? after) :
    Widens source operands elements safe target after ∧
      Option.Rel (StandsFor source after safe) own? type? := by
  cases own? with
  | none =>
    cases h
    exact ⟨.refl ready, .none⟩
  | some id =>
    have hgrows := grows_fetches hsource ready.indexed
      ((leaves_importType? source _).of_ok h).1
    obtain ⟨result, middle, himport, h⟩ := InPlace.bind_eq_ok h
    cases h
    obtain ⟨chain, hchain, hlinks⟩ := importTypeInPlace_eq_ok_iff.mp himport
    have linked := TypeChain.linked_within hchain
    obtain ⟨done, found, hdone, -, hindexed, hextend, hbuiltin, -⟩ :=
      importLinks_spec hsource linked ready.indexed
    cases hlinks.symm.trans hdone
    obtain ⟨hrefers, hresolves⟩ :=
      refersWithin_importLinks hsource hchain ready.indexed ready.refers hlinks
    have hitems : ∀ link ∈ chain.links, ∀ entry ∈ source.types.entries, entry.id = link.id →
        (Item.type entry).Of source operands := fun link hlink entry hentry heq ↦
      ⟨hentry, id, hneeded id rfl, heq ▸ linked.refers_of_mem hlink⟩
    refine ⟨⟨⟨hindexed, hrefers, fun hsafe ↦ ⟨hbuiltin (ready.sheltered hsafe).builtin,
      hgrows.apart ready.indexed (ready.sheltered hsafe).apart⟩⟩, hextend.entries, fun _ ↦ hextend,
      fun x hx ↦ ?_⟩, .some ⟨hresolves, fun hsafe meaning hmeaning ↦ ?_⟩⟩
    · exact labels_importLinks hsource ready.indexed hchain linked rfl hitems
        (fun hsafe ↦ (ready.sheltered hsafe).builtin) hlinks hindexed.forest (.refl after) hrefers
        x hx
    · exact denotes_importLinks_of_mem hsource ready.indexed hchain linked rfl
        (ready.sheltered hsafe).builtin hmeaning hlinks

end Types

/-! ### Operands -/

theorem Widens.rel {own? type? : Option String}
    (widens : Widens source operands elements safe before after)
    (ready : Ready elements safe before)
    (hrel : Option.Rel (StandsFor source before safe) own? type?) :
    Option.Rel (StandsFor source after safe) own? type? := by
  cases hrel with
  | none => exact .none
  | some hstands => exact .some (widens.standsFor ready hstands)

section Operands

variable {node copy : NodeId} (hsource : source.IndexedBy sourceElements)
  (ready : Ready elements safe target)

include hsource ready

theorem widens_importSymbolOf (hnode : node ∈ operands)
    (h : importSymbolOfInPlace source node target = .ok () after) :
    Widens source operands elements safe target after := by
  rw [importSymbolOfInPlace_eq] at h
  split at h
  · cases h
    exact .refl ready
  · next symbol hsymbol =>
    split at h
    · cases h
      exact .refl ready
    · obtain ⟨type?, typed, htyped, rfl⟩ := importSymbolInPlace_eq_ok h
      obtain ⟨htype, hrel⟩ := widens_importType? hsource ready
        (fun id hid ↦ ⟨node, hnode, Or.inr ⟨symbol, hsymbol, hid⟩⟩) htyped
      have hdeclared :=
        widens_declareSymbol hsource.forest htype.ready ⟨node, hnode, hsymbol⟩ hrel
      exact (htype.trans hdeclared).trans (widens_declareVariable hsource.forest hdeclared.ready
        ⟨node, hnode, hsymbol⟩ (hdeclared.rel htype.ready hrel))

theorem widens_importOperand (hnode : node ∈ operands)
    (h : importOperandInPlace source node target = .ok copy after) :
    Widens source operands elements safe target after ∧ after.document.contains copy ∧
      (Item.operand node).Explains source.document (StandsFor source after safe) node
        (after.document.label copy) := by
  obtain ⟨type?, typed, known, copied, htyped, hknown, hcopy, rfl⟩ := importOperandInPlace_eq_ok h
  obtain ⟨htype, hrel⟩ := widens_importType? hsource ready
    (fun id hid ↦ ⟨node, hnode, Or.inl hid⟩) htyped
  have hsymbol := widens_importSymbolOf hsource htype.ready hnode hknown
  have hforest := hsymbol.ready.indexed.forest
  have htyped := copied_setType hcopy type?
  have hcopied := element_setType_copy hforest hsource.forest hcopy type?
  have hlive := (copyFrom?_eq_some hcopy).1
  have hself := hsource.forest.self_mem_subtree node
  have hstands := hsymbol.rel htype.ready hrel
  have hitem : (Item.operand node).Of source operands := hnode
  have hwidens := widens_copied hsymbol.ready htyped hitem (hcopied ▸
    every_setType (.operand node) hsource.forest hlive hself hstands fun _ _ ↦ rfl)
  refine ⟨(htype.trans hsymbol).trans hwidens, htyped.contains_copy hforest, ?_⟩
  rw [(forest_setType hsource.forest node type?).label_eq_of_element_eq
    (htyped.forest_after hforest) hcopied]
  exact (explains_setType (.operand node) hself hlive hstands fun _ ↦ by
    simp [Item.original?]).mono fun _ _ ↦ hwidens.standsFor hsymbol.ready

end Operands

theorem widens_importOperands (hsource : source.IndexedBy sourceElements)
    (ready : Ready elements safe target) {nodes copies : List NodeId}
    (hnodes : ∀ node ∈ nodes, node ∈ operands)
    (h : importOperandsInPlace source nodes target = .ok copies after) :
    Widens source operands elements safe target after ∧ ∀ node ∈ nodes, ∃ copy,
      target.document.contains copy = false ∧ after.document.contains copy ∧
        (Item.operand node).Explains source.document (StandsFor source after safe) node
          (after.document.label copy) := by
  induction nodes generalizing target copies with
  | nil =>
    cases h
    exact ⟨.refl ready, nofun⟩
  | cons node rest ih =>
    obtain ⟨first, copy, others, hfirst, hrest, rfl⟩ := importOperandsInPlace_cons_eq_ok h
    obtain ⟨hnode, hothers⟩ := forall_mem_cons.mp hnodes
    obtain ⟨hwidens, hlive, hexplains⟩ := widens_importOperand hsource ready hnode hfirst
    obtain ⟨hlater, hcopies⟩ := ih hwidens.ready hothers hrest
    obtain ⟨-, hnew⟩ := (serves_newNodes ready.indexed.forest).extends_fetches
      (fetches_importOperand hfirst)
    have hkeeps := (grows_fetches hsource ready.indexed (fetches_importOperand hfirst)).keeps
    have hkeepsRest := (grows_fetches hsource hwidens.ready.indexed
      (fetches_importOperands hrest)).keeps
    refine ⟨hwidens.trans hlater, forall_mem_cons.mpr ⟨⟨copy, ?_, ?_, ?_⟩, ?_⟩⟩
    · exact contains_eq_false_of_size_le (hnew copy (mem_singleton_self _))
    · exact hkeepsRest.contains copy hlive
    · rw [hkeepsRest.label copy hlive]
      exact hexplains.mono fun _ _ ↦ hlater.standsFor hwidens.ready
    · intro other hother
      obtain ⟨found, hfree, hfound⟩ := hcopies other hother
      exact ⟨found, hkeeps.contains_eq_false hfree, hfound⟩

end Import

end LoopDirectives
