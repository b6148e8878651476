import Mathlib.Data.List.Perm.Basic
import Mathlib.Logic.Relation
import LoopDirectives.Proofs.Import.InPlace

/-!
# The chain of a type

The links of a type are imported from the last one outwards, and the import goes through if there
is a chain of them (`Import.importTypeInPlace_eq_ok_iff`). A type has a chain exactly when every
type that it leads to is built in or declared as a basic type (`TypeChain.exists_of_iff`).
References may run in a circle: no type is on a chain twice, so the bound on its length is never
what ends it (`TypeChain.base?_of`).
-/

namespace LoopDirectives

open List

namespace TypeTable

variable {table : TypeTable} {id : String} {entry : TypeEntry}

theorem mem_of_get? (h : table.get? id = some entry) : entry ∈ table.entries ∧ entry.id = id := by
  have hid := find?_some h
  exact ⟨mem_of_find?_eq_some h, eq_of_beq hid⟩

theorem basic?_eq_some_iff {form : BasicForm} :
    table.basic? id = some form ↔
      ∃ entry, table.get? id = some entry ∧ entry.form = .basic form := by
  unfold basic?
  cases table.get? id with
  | none => simp
  | some entry => cases hform : entry.form <;> simp [hform]

end TypeTable

namespace SourceUnit

def Refers (unit : SourceUnit) (id other : String) : Prop :=
  isBuiltinType id = false ∧
    ∃ form, unit.types.basic? id = some form ∧ form.reference? = some other

/-- Every type that the type leads to is built in or declared as a basic type. -/
def Resolvable (unit : SourceUnit) (id : String) : Prop :=
  ∀ other, Relation.ReflTransGen unit.Refers id other →
    isBuiltinType other = true ∨ (unit.types.basic? other).isSome = true

theorem Resolvable.of_refers {unit : SourceUnit} {id other : String} (h : unit.Resolvable id)
    (hrefers : unit.Refers id other) : unit.Resolvable other :=
  fun further hfurther ↦ h further (.head hrefers hfurther)

end SourceUnit

/-- The links of a chain, outermost first, and the identifier that the last one refers to. -/
structure TypeChain where
  links : List TypeLink
  base? : Option String

namespace TypeChain

/-- The declared basic type with the identifier, if its element is there. -/
def link? (unit : SourceUnit) (id : String) : Option (TypeLink × Option String) :=
  (Import.link? unit id).filter fun found ↦ unit.document.contains found.1.node

/-- The chain of a type, given the identifiers already on it. -/
def within (unit : SourceUnit) :
    (bound : Nat) → (visited : List String) → Option String → Except TransformError TypeChain
  | bound + 1, visited, some id =>
    if isBuiltinType id || visited.contains id then .ok { links := [], base? := some id }
    else
      match link? unit id with
      | none => .error (.undeclaredType id unit.name)
      | some (link, reference?) => do
        let chain ← within unit bound (id :: visited) reference?
        return { chain with links := link :: chain.links }
  | _, _, id? => .ok { links := [], base? := id? }

def of (unit : SourceUnit) (id : String) : Except TransformError TypeChain :=
  within unit (unit.types.entries.length + 1) [] (some id)

theorem within_none (unit : SourceUnit) (bound : Nat) (visited : List String) :
    within unit bound visited none = .ok { links := [], base? := none } := by
  cases bound <;> rfl

end TypeChain

/-! ### Importing the links -/

namespace Import

/-- Makes the links available from the last one outwards; the identifier of the first is returned,
or that of the base if there is no link. -/
def importLinks (source target : SourceUnit) (base? : Option String) :
    List TypeLink → SourceUnit × Option String
  | [] => (target, base?)
  | link :: rest =>
    let (prepared, reference?) := importLinks source target base? rest
    let (done, id) := importLink source prepared link reference?
    (done, some id)

variable {source target after : SourceUnit} {id result : String}

/-- Either there is a chain and its links are imported, or there is none and the import fails. -/
theorem importTypeGuarded_cases (source : SourceUnit) (bound : Nat) (visited : List String)
    (id : String) (target : SourceUnit) :
    (∃ chain after result, TypeChain.within source bound visited (some id) = .ok chain ∧
      importLinks source target chain.base? chain.links = (after, some result) ∧
      importTypeGuarded source bound visited id target = .ok result after) ∨
    (∃ cause, TypeChain.within source bound visited (some id) = .error cause) ∧
      ∃ cause after, importTypeGuarded source bound visited id target = .error cause after := by
  induction bound generalizing visited id with
  | zero => exact .inl ⟨_, target, id, rfl, rfl, rfl⟩
  | succ bound ih =>
    unfold TypeChain.within importTypeGuarded
    split
    · exact .inl ⟨_, target, id, rfl, rfl, rfl⟩
    · have hlink := TypeChain.link?.eq_1 source id
      cases hfound : link? source id with
      | none =>
        rw [hfound] at hlink
        exact .inr ⟨⟨_, by rw [hlink]; rfl⟩, _, _, rfl⟩
      | some found =>
        obtain ⟨link, reference?⟩ := found
        by_cases hnode : source.document.contains link.node
        · simp only [hfound, Option.filter_some, hnode, if_true] at hlink
          rw [hlink]
          cases reference? with
          | none =>
            refine .inl ⟨{ links := [link], base? := none }, _, _, ?_, rfl,
              (importLinkInPlace_eq target).trans (if_pos hnode)⟩
            simp only [TypeChain.within_none]
            rfl
          | some reference =>
            rcases ih (id :: visited) reference with
              ⟨chain, middle, imported, hchain, hlinks, hrun⟩ | ⟨⟨cause, hchain⟩, hrun⟩
            · cases hstep : importLink source middle link (some imported) with
              | mk done found =>
                refine .inl ⟨{ chain with links := link :: chain.links }, done, found, ?_, ?_, ?_⟩
                · simp only [hchain]
                  rfl
                · simp only [importLinks, hlinks, hstep]
                · simp only [InPlace.bind_eq, hrun, importLinkInPlace_eq, if_pos hnode, hstep]
            · obtain ⟨other, middle, hrun⟩ := hrun
              refine .inr ⟨⟨cause, ?_⟩, other, middle, ?_⟩
              · simp only [hchain]
                rfl
              · simp only [InPlace.bind_eq, hrun]
        · simp only [hfound, Option.filter_some, hnode] at hlink
          refine .inr ⟨⟨_, by rw [hlink]; rfl⟩, ?_⟩
          cases reference? with
          | none => exact ⟨_, _, (importLinkInPlace_eq target).trans (if_neg hnode)⟩
          | some reference =>
            simp only [InPlace.bind_eq]
            rcases ih (id :: visited) reference with ⟨-, middle, _, -, -, hrun⟩ | ⟨-, _, _, hrun⟩
            · rw [hrun]
              exact ⟨_, _, (importLinkInPlace_eq middle).trans (if_neg hnode)⟩
            · rw [hrun]
              exact ⟨_, _, rfl⟩

/-- The recursive import of a type goes through exactly along a chain, link by link. -/
theorem importTypeInPlace_eq_ok_iff : importTypeInPlace source id target = .ok result after ↔
    ∃ chain, TypeChain.of source id = .ok chain ∧
      importLinks source target chain.base? chain.links = (after, some result) := by
  unfold importTypeInPlace TypeChain.of
  rcases importTypeGuarded_cases source (source.types.entries.length + 1) [] id target with
    ⟨chain, done, found, hchain, hlinks, hrun⟩ | ⟨⟨_, hchain⟩, _, _, hrun⟩
  · simp [hchain, hlinks, hrun, and_comm]
  · simp [hchain, hrun]

end Import

namespace TypeChain

variable {unit : SourceUnit} {id base : String} {link : TypeLink} {id? reference? : Option String}
  {bound : Nat} {visited : List String} {chain : TypeChain}

/-! ### Links -/

theorem link?_eq_some_iff : link? unit id = some (link, reference?) ↔
    ∃ entry form, unit.types.get? id = some entry ∧ entry.form = .basic form ∧
      unit.document.contains entry.node ∧ link = { id, node := entry.node } ∧
      reference? = form.reference? := by
  rw [link?, Option.filter_eq_some_iff, Import.link?_eq_some_iff]
  constructor
  · rintro ⟨⟨entry, form, hentry, hform, rfl, rfl⟩, hlive⟩
    exact ⟨entry, form, hentry, hform, hlive, rfl, rfl⟩
  · rintro ⟨entry, form, hentry, hform, hlive, rfl, rfl⟩
    exact ⟨⟨entry, form, hentry, hform, rfl, rfl⟩, hlive⟩

theorem link?_of_basic? (live : unit.Live) {form : BasicForm}
    (h : unit.types.basic? id = some form) :
    ∃ link, link? unit id = some (link, form.reference?) := by
  obtain ⟨entry, hentry, hform⟩ := TypeTable.basic?_eq_some_iff.mp h
  exact ⟨_, link?_eq_some_iff.mpr ⟨entry, form, hentry, hform,
    live.types entry (TypeTable.mem_of_get? hentry).1, rfl, rfl⟩⟩

theorem basic?_of_link? (h : link? unit id = some (link, reference?)) :
    ∃ form, unit.types.basic? id = some form ∧ reference? = form.reference? ∧ link.id = id := by
  obtain ⟨entry, form, hentry, hform, -, rfl, hreference⟩ := link?_eq_some_iff.mp h
  exact ⟨form, TypeTable.basic?_eq_some_iff.mpr ⟨entry, hentry, hform⟩, hreference, rfl⟩

/-! ### How a chain is made -/

theorem within_succ_eq_ok (h : within unit (bound + 1) visited (some id) = .ok chain) :
    ((isBuiltinType id ∨ id ∈ visited) ∧ chain = { links := [], base? := some id }) ∨
      isBuiltinType id = false ∧ id ∉ visited ∧
        ∃ link reference? rest, link? unit id = some (link, reference?) ∧
          within unit bound (id :: visited) reference? = .ok rest ∧
          chain = { rest with links := link :: rest.links } := by
  unfold within at h
  split at h
  · next hend =>
    cases h
    exact Or.inl ⟨by simpa using hend, rfl⟩
  · next hgo =>
    have hends : isBuiltinType id = false ∧ id ∉ visited := by simpa using hgo
    refine Or.inr ⟨hends.1, hends.2, ?_⟩
    split at h
    · cases h
    · next link reference? hlink =>
      obtain ⟨rest, hrest, h⟩ := exists_of_bind_eq_ok h
      cases h
      exact ⟨link, reference?, rest, hlink, hrest, rfl⟩

/-- A chain whose links follow from each other, down to a base or to a type made from none. -/
inductive Linked (unit : SourceUnit) : Option String → TypeChain → Prop
  | ends (id? : Option String) : Linked unit id? { links := [], base? := id? }
  | made {link : TypeLink} {reference? : Option String} {rest : TypeChain}
    (hdeclared : isBuiltinType link.id = false)
    (hlink : link? unit link.id = some (link, reference?)) (linked : Linked unit reference? rest) :
    Linked unit (some link.id) { rest with links := link :: rest.links }

theorem linked_within (h : within unit bound visited id? = .ok chain) :
    Linked unit id? chain := by
  induction bound generalizing visited id? chain with
  | zero =>
    cases h
    exact .ends id?
  | succ bound ih =>
    cases id? with
    | none =>
      cases h
      exact .ends none
    | some id =>
      rcases within_succ_eq_ok h with ⟨-, rfl⟩ | ⟨hdeclared, -, link, _, rest, hlink, hrest, rfl⟩
      · exact .ends (some id)
      · obtain ⟨-, -, -, rfl⟩ := basic?_of_link? hlink
        exact .made hdeclared hlink (ih hrest)

theorem Linked.link?_of_mem (linked : Linked unit id? chain) (hmem : link ∈ chain.links) :
    ∃ reference?, link? unit link.id = some (link, reference?) := by
  induction linked with
  | ends => cases hmem
  | made _ hlink _ ih =>
    rcases mem_cons.mp hmem with rfl | hmem
    · exact ⟨_, hlink⟩
    · exact ih hmem

/-- What a chain ends at is built in or was met before. The types met before are different ones, so
there are no more of them than the unit has. -/
theorem base?_within (hnodup : visited.Nodup)
    (hdeclared : visited ⊆ unit.types.entries.map TypeEntry.id)
    (hbound : unit.types.entries.length < bound + visited.length)
    (h : within unit bound visited id? = .ok chain) (hbase : chain.base? = some base) :
    isBuiltinType base ∨ base ∈ visited ∨ base ∈ chain.links.map TypeLink.id := by
  induction bound generalizing visited id? chain with
  | zero =>
    have hle := (subperm_of_subset hnodup hdeclared).length_le
    rw [length_map] at hle
    omega
  | succ bound ih =>
    cases id? with
    | none =>
      cases h
      cases hbase
    | some id =>
      rcases within_succ_eq_ok h with ⟨hend, rfl⟩ | ⟨-, hnew, link, _, rest, hlink, hrest, rfl⟩
      · cases hbase
        exact hend.imp_right Or.inl
      · obtain ⟨form, hform, -, hid⟩ := basic?_of_link? hlink
        obtain ⟨entry, hentry, -⟩ := TypeTable.basic?_eq_some_iff.mp hform
        have hmem : id ∈ unit.types.entries.map TypeEntry.id :=
          mem_map.mpr ⟨entry, TypeTable.mem_of_get? hentry⟩
        have hlength : unit.types.entries.length < bound + (id :: visited).length := by
          rw [length_cons]
          omega
        rcases ih (nodup_cons.mpr ⟨hnew, hnodup⟩) (cons_subset.mpr ⟨hmem, hdeclared⟩)
          hlength hrest hbase with hbuiltin | hvisited | hlinks
        · exact Or.inl hbuiltin
        · rcases mem_cons.mp hvisited with rfl | hvisited
          · exact Or.inr (Or.inr (by simp [hid]))
          · exact Or.inr (Or.inl hvisited)
        · exact Or.inr (Or.inr (mem_cons_of_mem _ hlinks))

/-- A chain ends at a built-in type or where it has been before, never at its bound. -/
theorem base?_of (h : TypeChain.of unit id = .ok chain) (hbase : chain.base? = some base) :
    isBuiltinType base ∨ base ∈ chain.links.map TypeLink.id := by
  have := base?_within nodup_nil (nil_subset _) (by simp) h hbase
  simpa using this

/-! ### Which types have a chain -/

/-- What is on a chain, its base included. -/
def Mentions (chain : TypeChain) (id : String) : Prop :=
  id ∈ chain.links.map TypeLink.id ∨ chain.base? = some id

theorem Linked.mentions_self (linked : Linked unit (some id) chain) : chain.Mentions id := by
  cases linked with
  | ends => exact Or.inr rfl
  | made => exact Or.inl (mem_cons_self ..)

theorem Linked.mentions_of_refers (linked : Linked unit id? chain) {other reference : String}
    (hother : other ∈ chain.links.map TypeLink.id) (hrefers : unit.Refers other reference) :
    chain.Mentions reference := by
  induction linked with
  | ends => cases hother
  | made _ hlink linked ih =>
    rcases mem_cons.mp hother with rfl | hother
    · -- The link of a type refers to what the type is made from.
      obtain ⟨form, hform, rfl, -⟩ := basic?_of_link? hlink
      obtain ⟨-, found, hfound, hreference⟩ := hrefers
      cases hform.symm.trans hfound
      rw [hreference] at linked
      exact linked.mentions_self.imp_left (mem_cons_of_mem _)
    · exact (ih hother).imp_left (mem_cons_of_mem _)

theorem resolvable_of_of (h : TypeChain.of unit id = .ok chain) : unit.Resolvable id := by
  have linked := linked_within h
  have hmentions {other : String} (hother : Relation.ReflTransGen unit.Refers id other) :
      chain.Mentions other := by
    induction hother with
    | refl => exact linked.mentions_self
    | tail _ hrefers ih =>
      rcases ih with hlinks | hbase
      · exact linked.mentions_of_refers hlinks hrefers
      · rcases base?_of h hbase with hbuiltin | hlinks
        · cases hrefers.1.symm.trans hbuiltin
        · exact linked.mentions_of_refers hlinks hrefers
  have hbasic {other : String} (hlinks : other ∈ chain.links.map TypeLink.id) :
      (unit.types.basic? other).isSome := by
    obtain ⟨link, hlink, rfl⟩ := mem_map.mp hlinks
    obtain ⟨_, hlink⟩ := linked.link?_of_mem hlink
    obtain ⟨form, hform, -⟩ := basic?_of_link? hlink
    rw [hform, Option.isSome_some]
  intro other hother
  rcases hmentions hother with hlinks | hbase
  · exact Or.inr (hbasic hlinks)
  · exact (base?_of h hbase).imp_right hbasic

theorem exists_within (live : unit.Live) (bound : Nat) (visited : List String)
    (h : unit.Resolvable id) : ∃ chain, within unit bound visited (some id) = .ok chain := by
  induction bound generalizing visited id with
  | zero => exact ⟨_, rfl⟩
  | succ bound ih =>
    unfold within
    split
    · exact ⟨_, rfl⟩
    · next hgo =>
      have hbuiltin : isBuiltinType id = false := by simp_all
      obtain ⟨form, hform⟩ :=
        Option.isSome_iff_exists.mp ((h id .refl).resolve_left (by simp [hbuiltin]))
      obtain ⟨link, hlink⟩ := link?_of_basic? live hform
      rw [hlink]
      cases hreference : form.reference? with
      | none => exact ⟨_, by simp only [within_none]; rfl⟩
      | some reference =>
        obtain ⟨rest, hrest⟩ :=
          ih (id :: visited) (h.of_refers ⟨hbuiltin, form, hform, hreference⟩)
        exact ⟨_, by simp only [hrest]; rfl⟩

/-- Assumes: tables of live elements. A chain is found exactly where the type can be resolved. -/
theorem exists_of_iff (live : unit.Live) :
    (∃ chain, TypeChain.of unit id = .ok chain) ↔ unit.Resolvable id :=
  ⟨fun ⟨_, h⟩ ↦ resolvable_of_of h, exists_within live _ _⟩

end TypeChain

end LoopDirectives
