import LoopDirectives.Proofs.Import.Occurrences

/-!
# No renamed type dangles

A bound is imported and then hung into the tree of the program. All types that the import renames
resolve there (`Import.brought_of_importBound`). The other attributes are copied as they are and may
name types that the program does not have; the types resolve throughout if these do.
-/

namespace LoopDirectives.Import

open Document SourceUnit List

variable {source target after unit : SourceUnit} {operands : List NodeId} {safe : Prop}
  {elements sourceElements : TableElements} {node copy : NodeId} {id : String}

/-! ### Bounds -/

/-- The label is that of a new bound of the kind, or of a sum in it. -/
def IsFrame (kind : Kind) (label : Label) : Prop :=
  label = { tag := kind.tag } ∨ label = { tag := (Kind.binary .plus).tag }

theorem IsFrame.attribute?_eq_none {kind : Kind} {label : Label} (frame : IsFrame kind label)
    (name : String) : label.attribute? name = none := by
  rcases frame with rfl | rfl <;> rfl

theorem Extends.readings_old (forest : before.document.Forest)
    (hextends : Extends (newNodes before) before after) {x : NodeId}
    (hx : before.document.contains x) :
    after.document.contains x ∧ after.document.label x = before.document.label x := by
  have hspares := Scope.Steps.spares (serves_newNodes forest).guards hextends.steps
  have hout := not_inside_newNodes hx
  exact ⟨hspares.contains x hx hout, hspares.label x hx hout⟩

section Bounds

variable {doc : Document} {nodes : List NodeId}

theorem readings_assemble (forest : doc.Forest) (kind : Kind) (shape : BoundShape)
    (hnodup : nodes.Nodup) (hnodes : ∀ node ∈ nodes, doc.contains node) :
    (assemble doc kind shape nodes).1.parent? doc.fresh = none ∧
      ∀ x, (assemble doc kind shape nodes).1.contains x →
        doc.contains x ∧
            (assemble doc kind shape nodes).1.label x = doc.label x ∨
          IsFrame kind ((assemble doc kind shape nodes).1.label x) := by
  have planted := forest.planted_plant (shape.frame kind)
  have gathered := gathered_assemble forest kind shape hnodup hnodes
  have hfresh : doc.fresh ∉ nodes := fun hmem ↦ ne_fresh (hnodes _ hmem) rfl
  refine ⟨?_, fun x hx ↦ ?_⟩
  · rw [gathered.parent?_eq, if_neg hfresh, planted.parent?_root _ (mem_singleton_self _)]
  rw [gathered.contains_eq] at hx
  rw [gathered.label_eq]
  by_cases hold : x.index < doc.slots.size
  · obtain ⟨hsame, hlabel, -⟩ := planted.readings_old hold
    exact Or.inl ⟨hsame.symm.trans hx, hlabel⟩
  · have hframe : (shape.frame kind).Every fun label _ ↦ IsFrame kind label :=
      shape.every_frame (fun _ ↦ Or.inl rfl) fun _ ↦ Or.inr rfl
    exact Or.inr (forest.holds_plant hframe (Nat.not_lt.mp hold) hx)

end Bounds

def operandsOf (doc : Document) (bound : NodeId) : List NodeId :=
  ((shapeOf doc bound).toOption.map BoundShape.operands).getD []

theorem operandsOf_eq {doc : Document} {bound : NodeId} {shape : BoundShape}
    (h : shapeOf doc bound = .ok shape) : operandsOf doc bound = shape.operands := by
  rw [operandsOf, h]
  rfl

def attach (unit : SourceUnit) (parent node : NodeId) : SourceUnit :=
  { unit with document := unit.document.append parent node }

/-- The target shelters its types, and the place in the unit is not inside a type. -/
def ClearOfTypes (target unit : SourceUnit) (place : NodeId) : Prop :=
  target.Sheltered ∧ ∀ entry ∈ unit.types.entries, place ∉ unit.document.subtree entry.node

/-- Whatever type the import copies the name of as it is resolves in the unit. -/
def ResolvesKept (source : SourceUnit) (operands : List NodeId) (unit : SourceUnit) : Prop :=
  ∀ item : Item, item.Of source operands → ∀ node ∈ source.document.subtree item.root,
    ∀ name ∈ typeAttributes, item.original? source.document node name = none →
      ∀ id, source.document.attribute? node name = some id → unit.Resolves id

theorem typesExtend_attach (indexed : target.IndexedBy elements) {parent : NodeId}
    (hlive : target.document.parent? node = none)
    (hparent : ∀ entry ∈ target.types.entries, parent ∉ target.document.subtree entry.node) :
    TypesExtend target (attach target parent node) := by
  unfold attach
  cases hattach : target.document.canAttach node parent with
  | false =>
    rw [append_of_not_canAttach hattach]
    exact .refl target
  | true =>
    have hafter := indexed.forest.append parent node
    exact typesExtend_of_grown indexed hafter prefix_rfl (indexed.forest.grown_append hlive hattach)
      hparent

theorem labels_importBound (hsource : source.IndexedBy sourceElements)
    (ready : Ready elements safe target) {bound : NodeId}
    (h : importBoundInPlace source bound target = .ok copy after) :
    target.types.entries <+: after.types.entries ∧ after.document.parent? copy = none ∧
      (∀ x, after.document.contains x →
        target.document.contains x ∧ after.document.label x = target.document.label x ∨
          IsFrame (source.document.kind bound) (after.document.label x) ∨
          Brought source (operandsOf source.document bound) (StandsFor source after safe)
            (after.document.label x)) ∧
      ∀ operand ∈ operandsOf source.document bound, ∃ x,
        target.document.contains x = false ∧ after.document.contains x ∧
          (Item.operand operand).Explains source.document (StandsFor source after safe) operand
            (after.document.label x) := by
  have hafter := indexedBy_importBound ready.indexed ⟨_, hsource⟩ h
  obtain ⟨shape, imported, nodes, hshape, himported, rfl, rfl⟩ := importBoundInPlace_eq_ok h
  rw [operandsOf_eq hshape]
  obtain ⟨hwidens, hcopies⟩ :=
    widens_importOperands hsource ready (fun _ hnode ↦ hnode) himported
  have hindexed := hwidens.ready.indexed
  obtain ⟨-, hnodup, hnodes⟩ :=
    indexedBy_fetches ready.indexed ⟨_, hsource⟩ (fetches_importOperands himported)
  obtain ⟨-, hgrown⟩ := grown_assemble hindexed.forest (source.document.kind bound) shape
    hindexed.contains_types hnodup hnodes
  obtain ⟨hparent, hlabels⟩ := readings_assemble hindexed.forest (source.document.kind bound) shape
    hnodup fun node hnode ↦ (hnodes node hnode).1
  -- The bound is built outside of the types.
  have hextend := typesExtend_of_grown hindexed hafter.forest prefix_rfl hgrown fun entry hentry ↦
    hindexed.forest.not_mem_subtree_of_parent? (hindexed.read?_of_mem_types hentry).1
  have hlater {original id : String} (hstands : StandsFor source imported safe original id) :=
    hstands.mono hextend.entries (fun _ ↦ hextend) hindexed.forest hafter.forest
  refine ⟨hwidens.entries, hparent, fun x hx ↦ ?_, fun operand hoperand ↦ ?_⟩
  · rcases hlabels x hx with ⟨hlive, hlabel⟩ | hframe
    · rw [hlabel]
      exact (hwidens.labels x hlive).imp_right fun hbrought ↦
        Or.inr (hbrought.mono fun _ _ ↦ hlater)
    · exact Or.inr (Or.inl hframe)
  · obtain ⟨x, hfree, hlive, hexplains⟩ := hcopies operand hoperand
    refine ⟨x, hfree, hgrown.contains x hlive, ?_⟩
    rw [hgrown.label x hlive]
    exact hexplains.mono fun _ _ ↦ hlater

theorem resolves_of_brought {label : Label} {name : String}
    (brought : Brought source operands (StandsFor source unit safe) label)
    (hkept : ResolvesKept source operands unit) (hname : name ∈ typeAttributes)
    (hid : label.attribute? name = some id) : unit.Resolves id := by
  obtain ⟨item, hitem, node, hexplains⟩ := brought
  cases horiginal : item.original? source.document node name with
  | none =>
    exact hkept item hitem node hexplains.inside name hname horiginal id
      ((hexplains.kept name hname horiginal).symm.trans hid)
  | some original =>
    obtain ⟨other, hother, hstands⟩ := hexplains.renamed name hname original horiginal
    cases hother.symm.trans hid
    exact hstands.resolves

/-- A bound is imported and hung into the tree. What was there stays as it is, and still resolves
if it did. Every new node is made for the bound or comes from something that the operands need: the
types that are renamed resolve, and mean the same if the unit shelters its types and the bound does
not come to stand inside a type; the others are named as before. Every operand has such a copy. So
all types resolve if those do that are named as before. -/
theorem brought_of_importBound (hsource : source.Coherent) (htarget : target.Coherent)
    (hclosed : target.Closed) {bound copy : NodeId}
    (h : importBound source bound target = .ok (after, copy)) (parent : NodeId) :
    (∀ x, target.document.contains x = true →
      (attach after parent copy).document.contains x = true ∧
        (attach after parent copy).document.label x = target.document.label x) ∧
    (∀ id, target.Resolves id → (attach after parent copy).Resolves id) ∧
    (∀ x, (attach after parent copy).document.contains x = true →
      target.document.contains x = false →
        IsFrame (source.document.kind bound) ((attach after parent copy).document.label x) ∨
          Brought source (operandsOf source.document bound)
            (StandsFor source (attach after parent copy) (ClearOfTypes target after parent))
            ((attach after parent copy).document.label x)) ∧
    (∀ operand ∈ operandsOf source.document bound, ∃ x,
      target.document.contains x = false ∧
        (attach after parent copy).document.contains x = true ∧
        (Item.operand operand).Explains source.document
          (StandsFor source (attach after parent copy) (ClearOfTypes target after parent))
          operand ((attach after parent copy).document.label x)) ∧
    (ResolvesKept source (operandsOf source.document bound) (attach after parent copy) →
      (attach after parent copy).Closed) := by
  obtain ⟨elements, indexed⟩ := htarget
  replace h := InPlace.commit_eq_ok_iff.mp h
  have hafter := indexedBy_importBound indexed hsource h
  obtain ⟨sourceElements, hsource⟩ := hsource
  have hready : Ready elements (ClearOfTypes target after parent) target :=
    ⟨indexed, hclosed.refersWithin, And.left⟩
  obtain ⟨hentries, hcopy, hlabels, hcopies⟩ := labels_importBound hsource hready h
  have hreadings := readings_append hafter.forest parent copy
  have hlabel (x : NodeId) :
      (attach after parent copy).document.label x = after.document.label x :=
    (hreadings x).2
  have hresolves (id : String) (hid : target.Resolves id) :
      (attach after parent copy).Resolves id :=
    hid.mono hentries
  have hlater (original id : String) (hstands : StandsFor source after _ original id) :
      StandsFor source (attach after parent copy) (ClearOfTypes target after parent) original id :=
    hstands.mono List.prefix_rfl (fun hsafe ↦ typesExtend_attach hafter hcopy hsafe.2)
      hafter.forest (hafter.forest.append parent copy)
  have hnew : ∀ x, (attach after parent copy).document.contains x = true →
      target.document.contains x = true ∧
          (attach after parent copy).document.label x = target.document.label x ∨
        IsFrame (source.document.kind bound) ((attach after parent copy).document.label x) ∨
        Brought source (operandsOf source.document bound)
          (StandsFor source (attach after parent copy) (ClearOfTypes target after parent))
          ((attach after parent copy).document.label x) := by
    intro x hx
    rw [hlabel]
    exact (hlabels x ((hreadings x).1.symm.trans hx)).imp_right
      (Or.imp_right fun hbrought ↦ hbrought.mono hlater)
  refine ⟨fun x hx ↦ ?_, hresolves, fun x hx hfree ↦ ?_, fun operand hoperand ↦ ?_,
    fun hkept x name hname id hid ↦ ?_⟩
  · have hextends := ((serves_newNodes indexed.forest).extends_importBound h).1
    obtain ⟨hlive, hsame⟩ := hextends.readings_old indexed.forest hx
    exact ⟨(hreadings x).1.trans hlive, (hlabel x).trans hsame⟩
  · refine (hnew x hx).resolve_left fun hold ↦ ?_
    cases hfree.symm.trans hold.1
  · obtain ⟨x, hfree, hlive, hexplains⟩ := hcopies operand hoperand
    refine ⟨x, hfree, (hreadings x).1.trans hlive, ?_⟩
    rw [hlabel]
    exact hexplains.mono hlater
  · rcases hnew x (contains_of_attribute? hid) with ⟨-, hsame⟩ | hframe | hbrought
    · rw [Document.attribute?, hsame] at hid
      exact hresolves id (hclosed x name hname id hid)
    · cases (hframe.attribute?_eq_none name).symm.trans hid
    · exact resolves_of_brought hbrought hkept hname hid

/-! ### A variable whose type is renamed -/

/-- Whatever type the item names besides those that are renamed is built in. -/
def Item.KeepsBuiltin (source : Document) (item : Item) : Prop :=
  ∀ node ∈ source.subtree item.root, ∀ name ∈ typeAttributes,
    item.original? source node name = none →
      ((source.attribute? node name).all isBuiltinType) = true

instance (source : Document) (item : Item) : Decidable (item.KeepsBuiltin source) :=
  inferInstanceAs (Decidable (∀ node ∈ _, ∀ name ∈ _, _ → _))

theorem resolvesKept_of_keepsBuiltin
    (h : ∀ item : Item, item.Of source operands → item.KeepsBuiltin source.document)
    (unit : SourceUnit) : ResolvesKept source operands unit := by
  intro item hitem node hnode name hname hnone id hid
  have hall := h item hitem node hnode name hname hnone
  rw [hid] at hall
  exact Or.inl hall

/-- A module with a bound that is a variable of the first type, which is declared with the second
one. -/
def variableModule (type declared : String) (types : List Element) : SourceUnit :=
  let root : Element := .branch "OmniFortranModule"
    [.branch "lowerBound" [.typed "Var" type "n"], .branch "identifiers" [.symbol "n" type],
     .branch "declarations" [.declaration "n" declared], .branch "typeTable" types]
  .withTables (.module "m") (Document.ofElement root).1 ⟨0⟩
    { types := ⟨9⟩, symbols := ⟨3⟩, declarations := ⟨6⟩ }

def layeredModule : SourceUnit :=
  variableModule "K" "K" [.basicType "K" "L" [], .basicType "L" "Freal" []]

theorem coherent_layeredModule : layeredModule.Coherent :=
  ⟨_, SourceUnit.indexedBy_withTables (Document.forest_ofElement _)
    ⟨rfl, rfl⟩ ⟨rfl, rfl⟩ ⟨rfl, rfl⟩⟩

theorem resolvesKept_layeredModule (unit : SourceUnit) :
    ResolvesKept layeredModule [⟨2⟩] unit := by
  have htypes : ∀ entry ∈ layeredModule.types.entries,
      (Item.type entry).KeepsBuiltin layeredModule.document := by decide +kernel
  have hsymbol : ∀ entry ∈ symbolOf? layeredModule ⟨2⟩,
      (Item.symbol entry).KeepsBuiltin layeredModule.document := by decide +kernel
  have hdeclaration : ∀ entry ∈ symbolOf? layeredModule ⟨2⟩,
      ∀ node ∈ layeredModule.declarations.get? entry.name,
        (Item.declaration entry node).KeepsBuiltin layeredModule.document := by decide +kernel
  have hoperand : (Item.operand ⟨2⟩).KeepsBuiltin layeredModule.document := by decide +kernel
  refine resolvesKept_of_keepsBuiltin (fun item hitem ↦ ?_) unit
  cases item with
  | type entry => exact htypes entry hitem.1
  | symbol entry =>
    obtain ⟨operand, hmem, hentry⟩ := hitem
    cases mem_singleton.mp hmem
    exact hsymbol entry hentry
  | declaration entry node =>
    obtain ⟨hnode, operand, hmem, hentry⟩ := hitem
    cases mem_singleton.mp hmem
    exact hdeclaration entry hentry node hnode
  | operand node =>
    cases mem_singleton.mp hitem
    exact hoperand

theorem sheltered_takenProgram : takenProgram.Sheltered where
  builtin := by
    unfold DeclaresNoBuiltin
    decide +kernel
  apart := by decide +kernel

/-- The inner type is one that the program has, as which it is imported, and the outer one is
renamed. -/
theorem brought_of_importBound_of_layeredModule :
    layeredModule.Coherent ∧ takenProgram.Coherent ∧ takenProgram.Closed ∧
      takenProgram.Sheltered ∧
      ∃ after copy, importBound layeredModule ⟨1⟩ takenProgram = .ok (after, copy) ∧
        after.types.entries.map TypeEntry.id = ["K", "K_1"] ∧
        (attach after ⟨0⟩ copy).Closed ∧
        (∀ x, (attach after ⟨0⟩ copy).document.contains x = true →
          takenProgram.document.contains x = false →
            IsFrame .lowerBound ((attach after ⟨0⟩ copy).document.label x) ∨
              Brought layeredModule [⟨2⟩] (StandsFor layeredModule (attach after ⟨0⟩ copy) True)
                ((attach after ⟨0⟩ copy).document.label x)) ∧
        ∃ x, takenProgram.document.contains x = false ∧
          (attach after ⟨0⟩ copy).document.contains x = true ∧
          (Item.operand ⟨2⟩).Explains layeredModule.document
            (StandsFor layeredModule (attach after ⟨0⟩ copy) True) ⟨2⟩
            ((attach after ⟨0⟩ copy).document.label x) := by
  have hclosed : takenProgram.Closed := by decide +kernel
  have heval : ((importBound layeredModule ⟨1⟩ takenProgram).toOption.any fun result ↦
      result.1.types.entries.map TypeEntry.id = ["K", "K_1"] ∧
        ∀ entry ∈ result.1.types.entries, ⟨0⟩ ∉ result.1.document.subtree entry.node) = true := by
    decide +kernel
  obtain ⟨⟨after, copy⟩, himport, heval⟩ := exists_of_any_toOption heval
  obtain ⟨hids, hout⟩ := of_decide_eq_true heval
  have hoperands : operandsOf layeredModule.document ⟨1⟩ = [⟨2⟩] := by decide +kernel
  obtain ⟨-, -, hnew, hcopies, hattached⟩ := brought_of_importBound coherent_layeredModule
    coherent_takenProgram hclosed himport ⟨0⟩
  rw [hoperands] at hnew hcopies hattached
  have hsafe (original id : String) (hstands : StandsFor layeredModule (attach after ⟨0⟩ copy)
      (ClearOfTypes takenProgram after ⟨0⟩) original id) :
      StandsFor layeredModule (attach after ⟨0⟩ copy) True original id :=
    ⟨hstands.resolves, fun _ ↦ hstands.denotes ⟨sheltered_takenProgram, hout⟩⟩
  obtain ⟨x, hfree, hlive, hexplains⟩ := hcopies ⟨2⟩ (List.mem_singleton_self _)
  exact ⟨coherent_layeredModule, coherent_takenProgram, hclosed, sheltered_takenProgram, after,
    copy, himport, hids, hattached (resolvesKept_layeredModule _),
    fun x hx hfree ↦ (hnew x hx hfree).imp_right fun hbrought ↦ hbrought.mono hsafe,
    x, hfree, hlive, hexplains.mono hsafe⟩

/-! ### Types that are not sheltered -/

/-- What a type means, as far as the given number of layers reaches. -/
def meaning? (unit : SourceUnit) : Nat → String → Option TypeMeaning
  | 0, _ => none
  | bound + 1, id =>
    if isBuiltinType id then some { layers := [], base? := some id }
    else do
      let entry ← (unit.types.get? id).filter (unit.document.kind ·.node = .basicType)
      match unit.document.attribute? entry.node "ref" with
      | none => some { layers := [unit.document.typeLayer entry.node], base? := none }
      | some reference =>
        let inner ← meaning? unit bound reference
        some { inner with layers := unit.document.typeLayer entry.node :: inner.layers }

theorem denotes_of_meaning? {bound : Nat} {meaning : TypeMeaning}
    (h : meaning? unit bound id = some meaning) : unit.Denotes id meaning := by
  induction bound generalizing id meaning with
  | zero => cases h
  | succ bound ih =>
    rw [meaning?] at h
    split at h
    · next hbuiltin =>
      cases h
      exact .builtin hbuiltin
    · next hdeclared =>
      obtain ⟨entry, hfound, h⟩ := Option.bind_eq_some_iff.mp h
      obtain ⟨hentry, hkind⟩ := Option.filter_eq_some_iff.mp hfound
      replace hkind := of_decide_eq_true hkind
      replace hdeclared := eq_false_of_ne_true hdeclared
      split at h
      · next hreference =>
        cases h
        exact .plain hdeclared hentry hkind hreference
      · next reference hreference =>
        obtain ⟨inner, hinner, h⟩ := Option.bind_eq_some_iff.mp h
        cases h
        exact .made hdeclared hentry hkind hreference (ih hinner)

/-- The node of the unit has a type that means something else than that of the node of the
source. -/
def Misnamed (source unit : SourceUnit) (node copy : NodeId) : Prop :=
  ∃ original id meaning other, source.document.typeId? node = some original ∧
    unit.document.typeId? copy = some id ∧ source.Denotes original meaning ∧
    unit.Denotes id other ∧ meaning ≠ other

/-- How many elements there are inside each element of each layer. -/
def widths (meaning : TypeMeaning) : List (List Nat) :=
  meaning.layers.map fun layer ↦ layer.branches.map fun branch ↦ branch.branches.length

/-- The types of the nodes differ in the number of elements within three layers. -/
def differsAt (source unit : SourceUnit) (node copy : NodeId) : Bool :=
  (source.document.typeId? node).any fun original ↦ (unit.document.typeId? copy).any fun id ↦
    (meaning? source 3 original).any fun meaning ↦ (meaning? unit 3 id).any fun other ↦
      widths meaning ≠ widths other

theorem misnamed_of_differsAt (h : differsAt source unit node copy) :
    Misnamed source unit node copy := by
  simp only [differsAt, Option.any_eq_true, decide_eq_true_iff] at h
  obtain ⟨original, horiginal, id, hid, meaning, hmeaning, other, hother, hne⟩ := h
  exact ⟨original, id, meaning, other, horiginal, hid, denotes_of_meaning? hmeaning,
    denotes_of_meaning? hother, fun heq ↦ hne (congrArg widths heq)⟩

/-- A module in which the variable has a type whose kind is a variable of another type, which is
also the type that the variable is declared with. -/
def nestedModule : SourceUnit :=
  variableModule "K" "L"
    [.basicType "K" "Fint" [.branch "kind" [.typed "Var" "L" "w"]], .basicType "L" "Fint" []]

theorem coherent_nestedModule : nestedModule.Coherent :=
  ⟨_, SourceUnit.indexedBy_withTables (Document.forest_ofElement _)
    ⟨rfl, rfl⟩ ⟨rfl, rfl⟩ ⟨rfl, rfl⟩⟩

def hostModule : SourceUnit :=
  variableModule "K" "K" [.basicType "K" "Fint" [.branch "globalSymbols" []]]

theorem coherent_hostModule : hostModule.Coherent :=
  ⟨_, SourceUnit.indexedBy_withTables (Document.forest_ofElement _)
    ⟨rfl, rfl⟩ ⟨rfl, rfl⟩ ⟨rfl, rfl⟩⟩

def hostProgram : SourceUnit :=
  let root : Element := .branch "XcodeProgram"
    [.branch "globalDeclarations" [],
     .branch "typeTable" [.basicType "T" "Fint" [.branch "globalSymbols" []]]]
  .withTables .program (Document.ofElement root).1 ⟨0⟩
    { types := ⟨2⟩, symbols := ⟨4⟩, declarations := ⟨1⟩ }

theorem coherent_hostProgram : hostProgram.Coherent :=
  ⟨_, SourceUnit.indexedBy_withTables (Document.forest_ofElement _)
    ⟨rfl, rfl⟩ ⟨rfl, rfl⟩ ⟨rfl, rfl⟩⟩

def cyclicModule : SourceUnit :=
  variableModule "K" "K" [.basicType "K" "L" [], .basicType "L" "K" []]

theorem coherent_cyclicModule : cyclicModule.Coherent :=
  ⟨_, SourceUnit.indexedBy_withTables (Document.forest_ofElement _)
    ⟨rfl, rfl⟩ ⟨rfl, rfl⟩ ⟨rfl, rfl⟩⟩

theorem not_denotes_cyclicModule (meaning : TypeMeaning) : ¬ cyclicModule.Denotes "K" meaning := by
  intro hdenotes
  have hlonger : cyclicModule.Denotes "K" _ :=
    .made rfl rfl rfl rfl (.made rfl rfl rfl rfl hdenotes)
  exact absurd (congrArg (·.layers.length) (hdenotes.unique hlonger))
    (Nat.ne_of_lt (Nat.lt_add_of_pos_right Nat.two_pos))

/-- The first bound of the source is imported between units that name types which they have. -/
structure ImportsBetween (source target after : SourceUnit) (copy : NodeId) : Prop where
  coherent_source : source.Coherent
  coherent_target : target.Coherent
  closed_source : source.Closed
  closed_target : target.Closed
  imports : importBound source ⟨1⟩ target = .ok (after, copy)

theorem exists_importsBetween (hsource : source.Coherent) (htarget : target.Coherent)
    (hclosed : source.Closed ∧ target.Closed) (copy : NodeId) (test : SourceUnit → Bool)
    (htest : ((importBound source ⟨1⟩ target).toOption.any fun result ↦
      decide (result.2 = copy) && test result.1)) :
    ∃ after, ImportsBetween source target after copy ∧ test after := by
  obtain ⟨⟨after, found⟩, himports, htested⟩ := exists_of_any_toOption htest
  obtain ⟨hfound, hafter⟩ := Bool.and_eq_true_iff.mp htested
  cases of_decide_eq_true hfound
  exact ⟨after, ⟨hsource, htarget, hclosed.1, hclosed.2, himports⟩, hafter⟩

/-- A type that is named inside another one is not imported. The name in a declaration gets the type
of the symbol even if it names another one. A type can become one that means something else if the
program has a type under a built-in identifier or a table inside a type, if the bound is hung into a
type, or if the type leads back to itself. -/
theorem not_closed_importBound :
    (∃ after, ImportsBetween nestedModule takenProgram after ⟨13⟩ ∧
      ¬ (attach after ⟨0⟩ ⟨13⟩).Closed ∧
      Misnamed nestedModule (attach after ⟨0⟩ ⟨13⟩) ⟨8⟩ ⟨11⟩) ∧
    (∃ after, ImportsBetween layeredModule shadowedProgram after ⟨11⟩ ∧
      Misnamed layeredModule (attach after ⟨0⟩ ⟨11⟩) ⟨2⟩ ⟨10⟩) ∧
    (∃ after, ImportsBetween hostModule hostProgram after ⟨10⟩ ∧
      Misnamed hostModule (attach after ⟨0⟩ ⟨10⟩) ⟨2⟩ ⟨9⟩) ∧
    (∃ after, ImportsBetween layeredModule takenProgram after ⟨11⟩ ∧
      Misnamed layeredModule (attach after ⟨4⟩ ⟨11⟩) ⟨2⟩ ⟨10⟩) ∧
    ∃ after, ImportsBetween cyclicModule takenProgram after ⟨12⟩ ∧
      cyclicModule.document.typeId? ⟨2⟩ = some "K" ∧
      (∀ meaning, ¬ cyclicModule.Denotes "K" meaning) ∧
      (attach after ⟨0⟩ ⟨12⟩).document.typeId? ⟨11⟩ = some "K_1" ∧
      ∃ meaning, (attach after ⟨0⟩ ⟨12⟩).Denotes "K_1" meaning := by
  refine ⟨?_, ?_, ?_, ?_, ?_⟩
  · obtain ⟨after, hbetween, htest⟩ := exists_importsBetween coherent_nestedModule
      coherent_takenProgram (by decide +kernel) ⟨13⟩ (fun after ↦
        decide (¬ (attach after ⟨0⟩ ⟨13⟩).Closed) &&
          differsAt nestedModule (attach after ⟨0⟩ ⟨13⟩) ⟨8⟩ ⟨11⟩) (by decide +kernel)
    obtain ⟨hopen, hdiffers⟩ := Bool.and_eq_true_iff.mp htest
    exact ⟨after, hbetween, of_decide_eq_true hopen, misnamed_of_differsAt hdiffers⟩
  · obtain ⟨after, hbetween, hdiffers⟩ := exists_importsBetween coherent_layeredModule
      coherent_shadowedProgram (by decide +kernel) ⟨11⟩
      (fun after ↦ differsAt layeredModule (attach after ⟨0⟩ ⟨11⟩) ⟨2⟩ ⟨10⟩) (by decide +kernel)
    exact ⟨after, hbetween, misnamed_of_differsAt hdiffers⟩
  · obtain ⟨after, hbetween, hdiffers⟩ := exists_importsBetween coherent_hostModule
      coherent_hostProgram (by decide +kernel) ⟨10⟩
      (fun after ↦ differsAt hostModule (attach after ⟨0⟩ ⟨10⟩) ⟨2⟩ ⟨9⟩) (by decide +kernel)
    exact ⟨after, hbetween, misnamed_of_differsAt hdiffers⟩
  · obtain ⟨after, hbetween, hdiffers⟩ := exists_importsBetween coherent_layeredModule
      coherent_takenProgram (by decide +kernel) ⟨11⟩
      (fun after ↦ differsAt layeredModule (attach after ⟨4⟩ ⟨11⟩) ⟨2⟩ ⟨10⟩) (by decide +kernel)
    exact ⟨after, hbetween, misnamed_of_differsAt hdiffers⟩
  · obtain ⟨after, hbetween, htest⟩ := exists_importsBetween coherent_cyclicModule
      coherent_takenProgram (by decide +kernel) ⟨12⟩ (fun after ↦
        decide ((attach after ⟨0⟩ ⟨12⟩).document.typeId? ⟨11⟩ = some "K_1") &&
          (meaning? (attach after ⟨0⟩ ⟨12⟩) 4 "K_1").isSome) (by decide +kernel)
    obtain ⟨htype, hmeaning⟩ := Bool.and_eq_true_iff.mp htest
    obtain ⟨meaning, hmeaning⟩ := Option.isSome_iff_exists.mp hmeaning
    exact ⟨after, hbetween, by decide +kernel, not_denotes_cyclicModule, of_decide_eq_true htype,
      meaning, denotes_of_meaning? hmeaning⟩

end LoopDirectives.Import
