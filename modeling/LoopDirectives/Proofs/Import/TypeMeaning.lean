import LoopDirectives.Proofs.Import.TypeLayer

/-!
# Imported types mean what they meant

The meaning of a type is the sequence of the layers that it leads through, with the built-in type at
the end, whatever identifiers they stand under (`SourceUnit.Denotes`). The type that an import
returns means what the imported one means (`Import.denotes_importType`), and a second import finds
what the first one made. That holds as long as no type is declared under the identifier of a
built-in one: a reference to such a type means the built-in type.
-/

namespace LoopDirectives

open Document

/-- What a type says: its layers, outermost first, and the built-in type that they end at. -/
structure TypeMeaning where
  layers : List TypeLayer
  base? : Option String

namespace SourceUnit

variable {unit : SourceUnit} {id : String} {meaning : TypeMeaning} {elements : TableElements}

/-- The type with the identifier means the given thing in the unit. -/
inductive Denotes (unit : SourceUnit) : String → TypeMeaning → Prop
  | builtin {id : String} (hbuiltin : isBuiltinType id = true) :
    Denotes unit id { layers := [], base? := some id }
  | plain {id : String} {entry : TypeEntry} (hdeclared : isBuiltinType id = false)
    (hentry : unit.types.get? id = some entry) (hkind : unit.document.kind entry.node = .basicType)
    (hreference : unit.document.attribute? entry.node "ref" = none) :
    Denotes unit id { layers := [unit.document.typeLayer entry.node], base? := none }
  | made {id reference : String} {entry : TypeEntry} {meaning : TypeMeaning}
    (hdeclared : isBuiltinType id = false) (hentry : unit.types.get? id = some entry)
    (hkind : unit.document.kind entry.node = .basicType)
    (hreference : unit.document.attribute? entry.node "ref" = some reference)
    (denotes : Denotes unit reference meaning) :
    Denotes unit id
      { meaning with layers := unit.document.typeLayer entry.node :: meaning.layers }

theorem Denotes.unique {other : TypeMeaning} (first : unit.Denotes id meaning)
    (second : unit.Denotes id other) : meaning = other := by
  induction first generalizing other with
  | builtin hbuiltin =>
    cases second with
    | builtin _ => rfl
    | plain hdeclared => cases hdeclared.symm.trans hbuiltin
    | made hdeclared => cases hdeclared.symm.trans hbuiltin
  | plain hdeclared hentry _ hreference =>
    cases second with
    | builtin hbuiltin => cases hdeclared.symm.trans hbuiltin
    | plain _ hsame =>
      cases hentry.symm.trans hsame
      rfl
    | made _ hsame _ hother =>
      cases hentry.symm.trans hsame
      cases hreference.symm.trans hother
  | made hdeclared hentry _ hreference _ ih =>
    cases second with
    | builtin hbuiltin => cases hdeclared.symm.trans hbuiltin
    | plain _ hsame _ hother =>
      cases hentry.symm.trans hsame
      cases hreference.symm.trans hother
    | made _ hsame _ hother denotes =>
      cases hentry.symm.trans hsame
      cases hreference.symm.trans hother
      rw [ih denotes]

section

variable (indexed : unit.IndexedBy elements)

include indexed

theorem IndexedBy.link?_iff {link : TypeLink} {reference? : Option String} :
    TypeChain.link? unit id = some (link, reference?) ↔
      ∃ entry, unit.types.get? id = some entry ∧ unit.document.kind entry.node = .basicType ∧
        unit.document.attribute? entry.node "ref" = reference? ∧
        link = { id, node := entry.node } := by
  constructor
  · intro h
    obtain ⟨-, -, -, hid⟩ := TypeChain.basic?_of_link? h
    obtain ⟨-, hkind, hreference⟩ := Import.kind_of_link? indexed (hid ▸ h)
    obtain ⟨entry, form, hentry, -, -, rfl, -⟩ := TypeChain.link?_eq_some_iff.mp h
    exact ⟨entry, hentry, hkind, hreference, rfl⟩
  · rintro ⟨entry, hentry, hkind, rfl, rfl⟩
    obtain ⟨hparent, hread⟩ := indexed.read?_of_mem_types (TypeTable.mem_of_get? hentry).1
    have hform := (TypeEntry.node_of_read? hread).2.2
    rw [TypeEntry.formOf, hkind] at hform
    exact TypeChain.link?_eq_some_iff.mpr ⟨entry, _, hentry, hform, contains_of_parent? hparent,
      rfl, rfl⟩

theorem IndexedBy.resolvable (denotes : unit.Denotes id meaning) : unit.Resolvable id := by
  -- A declared basic type is made from what its element refers to.
  have hrefers {id other : String} {entry : TypeEntry} (hentry : unit.types.get? id = some entry)
      (h : unit.Refers id other) : unit.document.attribute? entry.node "ref" = some other := by
    obtain ⟨-, form, hform, hreference⟩ := h
    obtain ⟨link, hlink⟩ := TypeChain.link?_of_basic? indexed.readable.live hform
    obtain ⟨found, hfound, -, hattribute, -⟩ := indexed.link?_iff.mp hlink
    cases hentry.symm.trans hfound
    rw [hattribute, hreference]
  have hbasic {id : String} {entry : TypeEntry} (hentry : unit.types.get? id = some entry)
      (hkind : unit.document.kind entry.node = .basicType) :
      (unit.types.basic? id).isSome := by
    obtain ⟨form, hform, -⟩ := TypeChain.basic?_of_link?
      (indexed.link?_iff.mpr ⟨entry, hentry, hkind, rfl, rfl⟩)
    rw [hform, Option.isSome_some]
  induction denotes with
  | builtin hbuiltin =>
    intro other hother
    rcases hother.cases_head with rfl | ⟨_, hstep, -⟩
    · exact Or.inl hbuiltin
    · cases hstep.1.symm.trans hbuiltin
  | plain hdeclared hentry hkind hreference =>
    intro other hother
    rcases hother.cases_head with rfl | ⟨_, hstep, -⟩
    · exact Or.inr (hbasic hentry hkind)
    · cases hreference.symm.trans (hrefers hentry hstep)
  | made hdeclared hentry hkind hreference _ ih =>
    intro other hother
    rcases hother.cases_head with rfl | ⟨_, hstep, hrest⟩
    · exact Or.inr (hbasic hentry hkind)
    · cases hreference.symm.trans (hrefers hentry hstep)
      exact ih other hrest

theorem IndexedBy.denotes_base {chain : TypeChain} (linked : TypeChain.Linked unit (some id) chain)
    (denotes : unit.Denotes id meaning) {base : String} (hbase : chain.base? = some base) :
    ∃ inner, unit.Denotes base inner ∧ inner.layers.length ≤ meaning.layers.length ∧
      ∀ other ∈ chain.links.map TypeLink.id, ∃ outer, unit.Denotes other outer ∧
        inner.layers.length < outer.layers.length := by
  generalize hid : some id = id? at linked
  induction linked generalizing id meaning with
  | ends id? =>
    cases hid.trans hbase
    exact ⟨meaning, denotes, Nat.le_refl _, by simp⟩
  | made hdeclared hlink linked ih =>
    cases hid
    obtain ⟨found, hfound, hkind, hattribute, -⟩ := indexed.link?_iff.mp hlink
    cases denotes with
    | builtin hbuiltin => cases hdeclared.symm.trans hbuiltin
    | plain _ hentry _ hreference =>
      cases hentry.symm.trans hfound
      cases hreference.symm.trans hattribute
      cases linked
      cases hbase
    | made _ hentry _ hreference denotes =>
      cases hentry.symm.trans hfound
      cases hreference.symm.trans hattribute
      obtain ⟨inner, hinner, hle, hlinks⟩ := ih denotes hbase rfl
      have hlt := Nat.lt_succ_of_le hle
      exact ⟨inner, hinner, Nat.le_of_lt hlt, List.forall_mem_cons.mpr
        ⟨⟨_, .made hdeclared hfound hkind hattribute denotes, hlt⟩, hlinks⟩⟩

theorem IndexedBy.exists_chain (denotes : unit.Denotes id meaning) :
    ∃ chain, TypeChain.of unit id = .ok chain ∧ TypeChain.Linked unit (some id) chain ∧
      ∀ base, chain.base? = some base → isBuiltinType base := by
  obtain ⟨chain, hchain⟩ :=
    (TypeChain.exists_of_iff indexed.readable.live).mpr (indexed.resolvable denotes)
  have linked := TypeChain.linked_within hchain
  refine ⟨chain, hchain, linked, fun base hbase ↦ ?_⟩
  rcases TypeChain.base?_of hchain hbase with hbuiltin | hlinks
  · exact hbuiltin
  · obtain ⟨inner, hinner, -, houter⟩ := indexed.denotes_base linked denotes hbase
    obtain ⟨outer, houter, hlt⟩ := houter base hlinks
    rw [hinner.unique houter] at hlt
    exact absurd hlt (Nat.lt_irrefl _)

end

theorem Denotes.of_typesExtend {after : SourceUnit} (extend : Import.TypesExtend unit after)
    (hunit : unit.document.Forest) (hafter : after.document.Forest)
    (denotes : unit.Denotes id meaning) : after.Denotes id meaning := by
  have hsame {id : String} {entry : TypeEntry} (hentry : unit.types.get? id = some entry) :
      after.document.kind entry.node = unit.document.kind entry.node ∧
        after.document.typeLayer entry.node = unit.document.typeLayer entry.node ∧
        after.document.attribute? entry.node "ref" = unit.document.attribute? entry.node "ref" := by
    have helement := extend.element entry (TypeTable.mem_of_get? hentry).1
    have hlabel := congrArg Tree.value helement
    rw [hafter.value_element, hunit.value_element] at hlabel
    exact ⟨congrArg Label.kind hlabel, congrArg Element.typeLayer helement,
      hunit.attribute?_of_element_eq hafter helement "ref"⟩
  induction denotes with
  | builtin hbuiltin => exact .builtin hbuiltin
  | plain hdeclared hentry hkind hreference =>
    obtain ⟨hsameKind, hlayer, hattribute⟩ := hsame hentry
    rw [← hlayer]
    exact .plain hdeclared (extend.get? hentry) (hsameKind.trans hkind)
      (hattribute.trans hreference)
  | made hdeclared hentry hkind hreference _ ih =>
    obtain ⟨hsameKind, hlayer, hattribute⟩ := hsame hentry
    rw [← hlayer]
    exact .made hdeclared (extend.get? hentry) (hsameKind.trans hkind)
      (hattribute.trans hreference) ih

end SourceUnit

namespace Import

variable {source target after : SourceUnit} {id result : String} {chain : TypeChain}
  {elements sourceElements : SourceUnit.TableElements} {meaning : TypeMeaning} {link : TypeLink}
  {reference? : Option String}

theorem layer_of_existing? (hsource : source.document.Forest)
    (indexed : target.IndexedBy elements)
    (h : existing? source target link reference? = some result) :
    ∃ entry ∈ target.types.entries, target.types.get? result = some entry ∧ entry.id = result ∧
      target.document.kind entry.node = source.document.kind link.node ∧
      target.document.typeLayer entry.node = source.document.typeLayer link.node ∧
      target.document.attribute? entry.node "ref" = reference? := by
  obtain ⟨entry, hentry, rfl⟩ := Option.map_eq_some_iff.mp h
  have hmem := List.mem_of_find?_eq_some hentry
  have hsame := List.find?_some hentry
  obtain ⟨-, -, hreference, hlayer⟩ := (sameType_iff indexed.forest hsource).mp hsame
  have htag := hlayer
  rw [indexed.forest.typeLayer_eq, hsource.typeLayer_eq, TypeLayer.mk.injEq] at htag
  exact ⟨entry, hmem, indexed.get?_id hmem, rfl, congrArg Kind.ofTag htag.1, hlayer, hreference⟩

theorem importLink_of_existing? {later : SourceUnit} (hsource : source.document.Forest)
    (hafter : after.document.Forest) (hlater : later.document.Forest)
    (extend : TypesExtend after later) (h : existing? source after link reference? = some result) :
    importLink source later link reference? = (later, result) := by
  rw [importLink, extend.existing? hafter hlater hsource h]

theorem importLinks_cons {rest : List TypeLink} {prepared : SourceUnit} {base? : Option String}
    (hrest : importLinks source target base? rest = (prepared, reference?))
    (hlink : importLink source prepared link reference? = (after, result)) :
    importLinks source target base? (link :: rest) = (after, some result) := by
  simp only [importLinks, hrest, hlink]

/-- Importing the links of a chain adds types at the end of the table. With the types there, and
others after them, it adds nothing more. -/
theorem importLinks_spec {id? : Option String} (hsource : source.IndexedBy sourceElements)
    (linked : TypeChain.Linked source id? chain) (indexed : target.IndexedBy elements) :
    ∃ after result?, importLinks source target chain.base? chain.links = (after, result?) ∧
      (result? = none ↔ id? = none) ∧ after.IndexedBy elements ∧ TypesExtend target after ∧
      (DeclaresNoBuiltin target → DeclaresNoBuiltin after) ∧
      ∀ later : SourceUnit, later.document.Forest → TypesExtend after later →
        importLinks source later chain.base? chain.links = (later, result?) := by
  induction linked with
  | ends id? => exact ⟨target, id?, rfl, Iff.rfl, indexed, .refl target, fun h ↦ h, fun _ _ _ ↦ rfl⟩
  | made hdeclared hlink linked ih =>
    obtain ⟨prepared, reference?, hrest, hnone, hprepared, hpreparedExtend, hpreparedBuiltin,
      hstable⟩ := ih
    obtain ⟨after, result, himport, hindexed, hextend, hfound, hbuiltin⟩ :=
      importLink_spec hsource hprepared hlink hdeclared hnone.mp
    refine ⟨after, some result, importLinks_cons hrest himport, by simp, hindexed,
      hpreparedExtend.trans hextend, fun h ↦ hbuiltin (hpreparedBuiltin h),
      fun later hlater hmore ↦ ?_⟩
    exact importLinks_cons (hstable later hlater (hextend.trans hmore))
      (importLink_of_existing? hsource.forest hindexed.forest hlater hmore hfound)

/-- Assumes: no built-in type is declared. The imported type means what the source's type does. -/
theorem denotes_importLinks (hsource : source.IndexedBy sourceElements)
    (linked : TypeChain.Linked source (some id) chain) (indexed : target.IndexedBy elements)
    (hbase : ∀ base, chain.base? = some base → isBuiltinType base)
    (hbuiltin : DeclaresNoBuiltin target) (denotes : source.Denotes id meaning)
    (h : importLinks source target chain.base? chain.links = (after, some result)) :
    after.Denotes result meaning := by
  generalize hid : some id = id? at linked
  induction linked generalizing id meaning after result with
  | ends id? =>
    cases hid
    cases h
    cases denotes with
    | builtin h => exact .builtin h
    | plain hdeclared => cases hdeclared.symm.trans (hbase id rfl)
    | made hdeclared => cases hdeclared.symm.trans (hbase id rfl)
  | made hdeclared hlink linked ih =>
    cases hid
    obtain ⟨own, hown, hkind, hreference, hnode⟩ := hsource.link?_iff.mp hlink
    obtain ⟨prepared, reference?, hrest, hnone, hprepared, -, hpreparedBuiltin, -⟩ :=
      importLinks_spec hsource linked indexed
    obtain ⟨done, found, himport, hindexed, hextend, hfound, hdone⟩ :=
      importLink_spec hsource hprepared hlink hdeclared hnone.mp
    cases h.symm.trans (importLinks_cons hrest himport)
    obtain ⟨entry, hmem, hentry, rfl, hentryKind, hlayer, hentryReference⟩ :=
      layer_of_existing? hsource.forest hindexed hfound
    have hnew := hdone (hpreparedBuiltin hbuiltin) entry hmem
    rw [hnode] at hlayer hentryKind
    cases denotes with
    | builtin h => cases hdeclared.symm.trans h
    | plain _ hsame _ hother =>
      cases hown.symm.trans hsame
      rw [← hlayer]
      exact .plain hnew hentry (hentryKind.trans hkind)
        (hentryReference.trans (hnone.mpr (hreference.symm.trans hother)))
    | made _ hsame _ hother denotes =>
      cases hown.symm.trans hsame
      cases hreference.symm.trans hother
      cases reference? with
      | none => cases hnone.mp rfl
      | some reference =>
        rw [← hlayer]
        exact .made hnew hentry (hentryKind.trans hkind) hentryReference
          ((ih hbase denotes hrest rfl).of_typesExtend hextend hprepared.forest hindexed.forest)

/-! ### Importing a type -/

theorem importType_eq_ok_iff : importType source id target = .ok (after, result) ↔
    ∃ chain, TypeChain.of source id = .ok chain ∧
      importLinks source target chain.base? chain.links = (after, some result) :=
  InPlace.commit_eq_ok_iff.trans importTypeInPlace_eq_ok_iff

/-- An imported type means what it means where it comes from. The types that were there come first,
as they were. Importing the type again returns the same identifier and changes nothing, also where
the type leads in a circle. -/
theorem denotes_importType (hsource : source.Coherent) (htarget : target.Coherent) (id : String) :
    (∀ meaning, source.Denotes id meaning →
      ∃ after result, importType source id target = .ok (after, result) ∧
        (DeclaresNoBuiltin target → after.Denotes result meaning)) ∧
      ∀ after result, importType source id target = .ok (after, result) →
        TypesExtend target after ∧ importType source id after = .ok (after, result) := by
  obtain ⟨sourceElements, hsource⟩ := hsource
  obtain ⟨elements, indexed⟩ := htarget
  constructor
  · intro meaning denotes
    obtain ⟨chain, hchain, linked, hbase⟩ := hsource.exists_chain denotes
    obtain ⟨after, result?, himport, hnone, -⟩ := importLinks_spec hsource linked indexed
    obtain ⟨result, rfl⟩ := Option.ne_none_iff_exists'.mp (hnone.not.mpr (Option.some_ne_none id))
    exact ⟨after, result, importType_eq_ok_iff.mpr ⟨chain, hchain, himport⟩, fun hbuiltin ↦
      denotes_importLinks hsource linked indexed hbase hbuiltin denotes himport⟩
  · intro after result h
    obtain ⟨chain, hchain, himport⟩ := importType_eq_ok_iff.mp h
    obtain ⟨done, found, hdone, -, hindexed, hextend, -, hstable⟩ :=
      importLinks_spec hsource (TypeChain.linked_within hchain) indexed
    cases himport.symm.trans hdone
    exact ⟨hextend, importType_eq_ok_iff.mpr
      ⟨chain, hchain, hstable after hindexed.forest (.refl after)⟩⟩

def unitOfTypes (role : UnitRole) (types : List Element) : SourceUnit :=
  let root : Element := .branch role.rootKind.tag
    [.branch role.symbolsKind.tag [], .branch role.declarationsKind.tag [],
     .branch "typeTable" types]
  .withTables role (Document.ofElement root).1 ⟨0⟩
    { types := ⟨3⟩, symbols := ⟨1⟩, declarations := ⟨2⟩ }

/-- A program in which another type than that of the module stands under the same identifier. -/
def takenProgram : SourceUnit :=
  unitOfTypes .program [.basicType "K" "Freal" []]

theorem coherent_takenProgram : takenProgram.Coherent :=
  ⟨_, SourceUnit.indexedBy_withTables (Document.forest_ofElement _)
    ⟨rfl, rfl⟩ ⟨rfl, rfl⟩ ⟨rfl, rfl⟩⟩

theorem denotes_importType_of_takenProgram :
    ∃ meaning, SourceUnit.gridModule.Denotes "A" meaning ∧ meaning.layers.length = 2 ∧
      meaning.base? = some "Fint" ∧ DeclaresNoBuiltin takenProgram ∧
      ∃ after, importType SourceUnit.gridModule "A" takenProgram = .ok (after, "A") ∧
        after.Denotes "A" meaning ∧ TypesExtend takenProgram after ∧
        importType SourceUnit.gridModule "A" after = .ok (after, "A") := by
  have hbuiltin : DeclaresNoBuiltin takenProgram := by
    unfold DeclaresNoBuiltin
    decide +kernel
  have hdenotes : SourceUnit.gridModule.Denotes "A" _ :=
    .made rfl rfl rfl rfl (.made rfl rfl rfl rfl (.builtin rfl))
  obtain ⟨hmeaning, hagain⟩ := denotes_importType
    ⟨_, SourceUnit.indexedBy_gridModule⟩ coherent_takenProgram "A"
  obtain ⟨after, result, himport, hafter⟩ := hmeaning _ hdenotes
  have hresult : (importType SourceUnit.gridModule "A" takenProgram).toOption.map Prod.snd =
      some "A" := by
    decide +kernel
  rw [himport] at hresult
  cases hresult
  exact ⟨_, hdenotes, rfl, rfl, hbuiltin, after, himport, hafter hbuiltin, hagain _ _ himport⟩

def shadowedProgram : SourceUnit :=
  unitOfTypes .program [.basicType "Fint" "Freal" []]

theorem coherent_shadowedProgram : shadowedProgram.Coherent :=
  ⟨_, SourceUnit.indexedBy_withTables (Document.forest_ofElement _)
    ⟨rfl, rfl⟩ ⟨rfl, rfl⟩ ⟨rfl, rfl⟩⟩

/-- A module with a type made from a built-in one and a type made from a function type. -/
def mixedModule : SourceUnit :=
  unitOfTypes (.module "mixed") [.basicType "K" "Freal" [], .basicType "P" "F" [],
    .node { tag := "FfunctionType", attributes := [("type", "F")] } []]

theorem coherent_mixedModule : mixedModule.Coherent :=
  ⟨_, SourceUnit.indexedBy_withTables (Document.forest_ofElement _)
    ⟨rfl, rfl⟩ ⟨rfl, rfl⟩ ⟨rfl, rfl⟩⟩

/-- A type in the form of one that is declared under a built-in identifier is imported as that
built-in type, which means something else. A type made from a function type, which is made from
none, is not imported at all. -/
theorem not_denotes_importType :
    mixedModule.Coherent ∧ shadowedProgram.Coherent ∧
      (∃ meaning, mixedModule.Denotes "K" meaning ∧
        importType mixedModule "K" shadowedProgram = .ok (shadowedProgram, "Fint") ∧
        ¬ shadowedProgram.Denotes "Fint" meaning) ∧
      mixedModule.Refers "P" "F" ∧
      (∃ entry, mixedModule.types.get? "F" = some entry ∧
        mixedModule.document.attribute? entry.node "ref" = none) ∧
      importType mixedModule "P" takenProgram = .error (.undeclaredType "F" "mixed") := by
  refine ⟨coherent_mixedModule, coherent_shadowedProgram,
    ⟨_, .made rfl rfl rfl rfl (.builtin rfl), rfl, fun hdenotes ↦ ?_⟩, ⟨rfl, _, rfl, rfl⟩,
    ⟨_, rfl, rfl⟩, rfl⟩
  have hsame := congrArg TypeMeaning.layers (hdenotes.unique (.builtin rfl))
  cases hsame

end Import

end LoopDirectives
