import LoopDirectives.Proofs.Import.TypeMeaning

/-!
# Imported types refer to types that there are

A type identifier resolves in a unit when it is built in or declared there. As long as the types of
a unit refer to such identifiers only (`SourceUnit.RefersWithin`), they do so after an import
(`Import.refersWithin_importLinks`). On the way they need not: where the references of a chain run
in a circle, the innermost type is declared first and refers to one that is yet to come
(`Import.Awaits`). Nothing in the table can be taken for one of the types that follow, so all of
them are declared.
-/

namespace LoopDirectives

open Document List

/-! ### Identifiers that resolve -/

theorem TypeTable.contains_iff {table : TypeTable} {id : String} :
    table.contains id ↔ ∃ entry ∈ table.entries, entry.id = id := by
  rw [← not_iff_not, Bool.not_eq_true, TypeTable.contains_eq_false_iff]
  simp

namespace SourceUnit

variable {unit before after : SourceUnit} {id : String} {entry : TypeEntry}

def Resolves (unit : SourceUnit) (id : String) : Prop :=
  isBuiltinType id = true ∨ unit.types.contains id = true

instance (unit : SourceUnit) (id : String) : Decidable (unit.Resolves id) :=
  inferInstanceAs (Decidable (_ ∨ _))

theorem resolves_of_mem (hentry : entry ∈ unit.types.entries) : unit.Resolves entry.id :=
  Or.inr (TypeTable.contains_iff.mpr ⟨entry, hentry, rfl⟩)

theorem Resolves.mono (h : before.types.entries <+: after.types.entries)
    (resolves : before.Resolves id) : after.Resolves id := by
  refine resolves.imp_right fun hcontains ↦ ?_
  obtain ⟨entry, hentry, hid⟩ := TypeTable.contains_iff.mp hcontains
  exact TypeTable.contains_iff.mpr ⟨entry, h.subset hentry, hid⟩

/-- The types of the unit refer to types that there are. -/
def RefersWithin (unit : SourceUnit) : Prop :=
  ∀ entry ∈ unit.types.entries, ∀ reference,
    unit.document.attribute? entry.node "ref" = some reference → unit.Resolves reference

end SourceUnit

/-! ### Parts of a chain -/

namespace TypeChain

variable {unit : SourceUnit} {id base : String} {id? : Option String} {chain : TypeChain}
  {link : TypeLink}

theorem Linked.exists_from (linked : Linked unit id? chain) (hmem : link ∈ chain.links) :
    ∃ rest, Linked unit (some link.id) { chain with links := link :: rest } := by
  induction linked with
  | ends => cases hmem
  | @made _ _ rest hdeclared hlink linked ih =>
    rcases mem_cons.mp hmem with rfl | hmem
    · exact ⟨rest.links, .made hdeclared hlink linked⟩
    · exact ih hmem

theorem Linked.refers_of_mem (linked : Linked unit (some id) chain) (hmem : link ∈ chain.links) :
    Relation.ReflTransGen unit.Refers id link.id := by
  generalize hid : some id = id? at linked
  induction linked generalizing id with
  | ends => cases hmem
  | @made _ reference? _ hdeclared hlink linked ih =>
    cases hid
    rcases mem_cons.mp hmem with rfl | hmem
    · exact .refl
    · cases reference? with
      | none =>
        cases linked
        cases hmem
      | some reference =>
        obtain ⟨form, hform, hreference, -⟩ := basic?_of_link? hlink
        exact (ih hmem rfl).head ⟨hdeclared, form, hform, hreference.symm⟩

theorem isBuiltinType_base {elements : SourceUnit.TableElements} (indexed : unit.IndexedBy elements)
    (hchain : TypeChain.of unit id = .ok chain) (hbase : chain.base? = some base)
    {meaning : TypeMeaning} (denotes : unit.Denotes base meaning) : isBuiltinType base := by
  rcases base?_of hchain hbase with hbuiltin | hlinks
  · exact hbuiltin
  · obtain ⟨link, hlink, rfl⟩ := mem_map.mp hlinks
    obtain ⟨rest, hfrom⟩ := (linked_within hchain).exists_from hlink
    obtain ⟨inner, hinner, -, houter⟩ := indexed.denotes_base hfrom denotes hbase
    obtain ⟨outer, houter, hlt⟩ := houter link.id (mem_cons_self ..)
    rw [hinner.unique houter] at hlt
    exact absurd hlt (Nat.lt_irrefl _)

end TypeChain

namespace Import

open SourceUnit

variable {source target after : SourceUnit} {id base reference result : String}
  {link : TypeLink} {chain : TypeChain} {reference? own? : Option String}
  {elements sourceElements : TableElements}

theorem denotes_importLinks_of_mem (hsource : source.IndexedBy sourceElements)
    (indexed : target.IndexedBy elements) (hchain : TypeChain.of source id = .ok chain)
    {part : TypeChain} {first : String} (linked : TypeChain.Linked source (some first) part)
    (hpart : part.base? = chain.base?) (hbuiltin : DeclaresNoBuiltin target)
    {meaning : TypeMeaning} (denotes : source.Denotes first meaning)
    (h : importLinks source target part.base? part.links = (after, some result)) :
    after.Denotes result meaning := by
  refine denotes_importLinks hsource linked indexed (fun base hbase ↦ ?_) hbuiltin denotes h
  obtain ⟨inner, hinner, -⟩ := hsource.denotes_base linked denotes hbase
  exact TypeChain.isBuiltinType_base hsource hchain (hpart ▸ hbase) hinner

/-! ### One link -/

theorem importLink_cases (h : importLink source target link reference? = (after, result)) :
    after = target ∧ existing? source target link reference? = some result ∨
      existing? source target link reference? = none ∧ result = newId target link.id ∧
        after = declare source target link result reference? := by
  unfold importLink at h
  split at h
  · next id hexisting =>
    cases h
    exact Or.inl ⟨rfl, hexisting⟩
  · next hnone =>
    cases h
    exact Or.inr ⟨hnone, rfl, rfl⟩

theorem not_resolves_newId (hdeclared : isBuiltinType link.id = false) :
    ¬ target.Resolves (newId target link.id) := by
  rintro (hbuiltin | hcontains)
  · cases (isBuiltinType_newId target hdeclared).symm.trans hbuiltin
  · cases (contains_newId target link.id).symm.trans hcontains

theorem refers_declare (hsource : source.IndexedBy sourceElements)
    (indexed : target.IndexedBy elements)
    (hlink : TypeChain.link? source link.id = some (link, own?))
    (hid : target.types.contains id = false) (hplain : reference? = none → own? = none)
    {property : String → Prop}
    (hold : ∀ entry ∈ target.types.entries, ∀ reference,
      target.document.attribute? entry.node "ref" = some reference → property reference)
    (hnew : ∀ reference, reference? = some reference → property reference) :
    (∀ entry ∈ (declare source target link id reference?).types.entries, ∀ reference,
      (declare source target link id reference?).document.attribute? entry.node "ref" =
        some reference → property reference) ∧
      target.types.entries <+: (declare source target link id reference?).types.entries ∧
      ∀ other, (declare source target link id reference?).Resolves other ↔
        target.Resolves other ∨ other = id := by
  obtain ⟨entry, hentries, rfl, hextend, hsame⟩ :=
    declare_spec hsource indexed hlink hid hplain
  have hforest := (indexedBy_declares indexed ⟨_, hsource⟩
    (.type target link entry.id reference? ⟨own?, hlink⟩ hid)).forest
  refine ⟨?_, hextend.entries, fun other ↦ ?_⟩
  · rw [hentries, forall_mem_append, forall_mem_singleton]
    refine ⟨fun old hmem reference hreference ↦ ?_, fun reference hreference ↦ hnew reference ?_⟩
    · rw [indexed.forest.attribute?_of_element_eq hforest (hextend.element old hmem)] at hreference
      exact hold old hmem reference hreference
    · exact ((sameType_iff hforest hsource.forest).mp hsame).2.2.1.symm.trans hreference
  · rw [Resolves, Resolves, TypeTable.contains_iff, TypeTable.contains_iff, hentries, or_assoc]
    simp only [mem_append, mem_singleton, or_and_right, exists_or, exists_eq_left,
      @eq_comm _ other]

/-! ### Circles -/

/-- The types refer to types that there are, or to the base, which is not there yet. The last
identifier is the base or was declared last, so that no type refers to it. -/
structure Awaits (unit : SourceUnit) (base last : String) : Prop where
  missing : ¬ unit.Resolves base
  refers : ∀ entry ∈ unit.types.entries, ∀ reference,
    unit.document.attribute? entry.node "ref" = some reference →
      unit.Resolves reference ∨ reference = base
  unused : ∀ entry ∈ unit.types.entries, unit.document.attribute? entry.node "ref" ≠ some last
  last : unit.Resolves last ∨ last = base

theorem Awaits.existing?_eq_none (awaits : Awaits target base reference)
    (hsource : source.document.Forest) (indexed : target.IndexedBy elements) :
    existing? source target link (some reference) = none := by
  cases hfound : existing? source target link (some reference) with
  | none => rfl
  | some id =>
    obtain ⟨entry, hentry, -, -, -, -, hreference⟩ := layer_of_existing? hsource indexed hfound
    exact absurd hreference (awaits.unused entry hentry)

theorem refersWithin_importLink (hsource : source.IndexedBy sourceElements)
    (indexed : target.IndexedBy elements)
    (hlink : TypeChain.link? source link.id = some (link, own?))
    (hplain : reference? = none → own? = none) (hrefers : target.RefersWithin)
    (hreference : ∀ reference, reference? = some reference → target.Resolves reference)
    (h : importLink source target link reference? = (after, result)) :
    after.RefersWithin ∧ after.Resolves result := by
  rcases importLink_cases h with ⟨rfl, hexisting⟩ | ⟨-, rfl, rfl⟩
  · obtain ⟨entry, hentry, -, rfl, -⟩ := layer_of_existing? hsource.forest indexed hexisting
    exact ⟨hrefers, resolves_of_mem hentry⟩
  · obtain ⟨hall, hprefix, hresolves⟩ := refers_declare hsource indexed hlink
      (contains_newId target link.id) hplain hrefers hreference
    exact ⟨fun entry hentry reference hreference ↦
      (hall entry hentry reference hreference).mono hprefix, (hresolves _).mpr (Or.inr rfl)⟩

theorem Awaits.importLink (awaits : Awaits target base reference)
    (hsource : source.IndexedBy sourceElements) (indexed : target.IndexedBy elements)
    (hlink : TypeChain.link? source link.id = some (link, own?))
    (hdeclared : isBuiltinType link.id = false)
    (h : importLink source target link (some reference) = (after, result)) :
    after.RefersWithin ∧ after.Resolves result ∨ base ≠ link.id ∧ Awaits after base result := by
  rcases importLink_cases h with ⟨-, hexisting⟩ | ⟨-, hresult, hafter⟩
  · cases (awaits.existing?_eq_none hsource.forest indexed).symm.trans hexisting
  · have hfree : target.types.contains result = false := hresult ▸ contains_newId target link.id
    have hunresolved : ¬ target.Resolves result := hresult ▸ not_resolves_newId hdeclared
    obtain ⟨hall, -, hresolves⟩ := refers_declare hsource indexed hlink hfree
      (fun h : some reference = none ↦ nomatch h) awaits.refers fun _ heq ↦
        Option.some.inj heq ▸ awaits.last
    rw [← hafter] at hall hresolves
    by_cases hbase : result = base
    · refine Or.inl ⟨fun entry hentry other hother ↦ (hresolves other).mpr ?_,
        (hresolves result).mpr (Or.inr rfl)⟩
      exact hbase ▸ hall entry hentry other hother
    · right
      refine ⟨?_, ?_, fun entry hentry other hother ↦ ?_, fun entry hentry hother ↦ ?_,
        Or.inl ((hresolves result).mpr (Or.inr rfl))⟩
      · rintro rfl
        refine hbase (hresult.trans ?_)
        have hmissing : target.types.contains link.id ≠ true := fun h ↦ awaits.missing (Or.inr h)
        rw [newId, if_neg hmissing]
      · intro hmissing
        exact ((hresolves base).mp hmissing).elim awaits.missing fun heq ↦ hbase heq.symm
      · exact (hall entry hentry other hother).imp_left fun h ↦ (hresolves other).mpr (Or.inl h)
      · exact (hall entry hentry result hother).elim hunresolved hbase

/-! ### Chains -/

/-- After the links of a chain are imported all references are in place, unless the base, which is
none of the links, is still missing. -/
theorem refersWithin_or_awaits_importLinks {id? result? : Option String}
    (hsource : source.IndexedBy sourceElements) (linked : TypeChain.Linked source id? chain)
    (indexed : target.IndexedBy elements) (hrefers : target.RefersWithin)
    (h : importLinks source target chain.base? chain.links = (after, result?)) :
    (after.RefersWithin ∧ ∀ result, result? = some result → after.Resolves result) ∨
      ∃ base result, chain.base? = some base ∧ result? = some result ∧
        base ∉ chain.links.map TypeLink.id ∧ Awaits after base result := by
  induction linked generalizing after result? with
  | ends id? =>
    cases h
    cases id? with
    | none => exact Or.inl ⟨hrefers, nofun⟩
    | some id =>
      by_cases hid : target.Resolves id
      · exact Or.inl ⟨hrefers, fun _ heq ↦ Option.some.inj heq ▸ hid⟩
      · exact Or.inr ⟨id, id, rfl, rfl, not_mem_nil, hid, fun entry hentry reference hreference ↦
          Or.inl (hrefers entry hentry reference hreference),
          fun entry hentry hreference ↦ hid (hrefers entry hentry id hreference), Or.inr rfl⟩
  | made hdeclared hlink linked ih =>
    obtain ⟨prepared, reference?, hrest, hnone, hprepared, -⟩ :=
      importLinks_spec hsource linked indexed
    obtain ⟨done, found, himport, -⟩ :=
      importLink_spec hsource hprepared hlink hdeclared hnone.mp
    cases h.symm.trans (importLinks_cons hrest himport)
    rcases ih hrest with ⟨hwithin, hresolves⟩ | ⟨base, reference, hbase, rfl, hlinks, hawaits⟩
    · obtain ⟨hwithin, hfound⟩ := refersWithin_importLink hsource hprepared hlink hnone.mp hwithin
        hresolves himport
      exact Or.inl ⟨hwithin, fun _ heq ↦ Option.some.inj heq ▸ hfound⟩
    · rcases hawaits.importLink hsource hprepared hlink hdeclared himport with
        ⟨hwithin, hfound⟩ | ⟨hne, hmore⟩
      · exact Or.inl ⟨hwithin, fun _ heq ↦ Option.some.inj heq ▸ hfound⟩
      · exact Or.inr ⟨base, found, hbase, rfl, mem_cons.not.mpr (not_or.mpr ⟨hne, hlinks⟩), hmore⟩

/-- Assumes: a chain of the source. Importing it keeps references within the table. -/
theorem refersWithin_importLinks (hsource : source.IndexedBy sourceElements)
    (hchain : TypeChain.of source id = .ok chain) (indexed : target.IndexedBy elements)
    (hrefers : target.RefersWithin)
    (h : importLinks source target chain.base? chain.links = (after, some result)) :
    after.RefersWithin ∧ after.Resolves result := by
  rcases refersWithin_or_awaits_importLinks hsource (TypeChain.linked_within hchain) indexed hrefers
    h with ⟨hwithin, hresolves⟩ | ⟨base, _, hbase, -, hlinks, hawaits⟩
  · exact ⟨hwithin, hresolves result rfl⟩
  · -- A base that is not built in is one of the links.
    rcases TypeChain.base?_of hchain hbase with hbuiltin | hmem
    · exact absurd (Or.inl hbuiltin) hawaits.missing
    · exact absurd hmem hlinks

end Import

end LoopDirectives
