import LoopDirectives.Proofs.Document.Rooted
import LoopDirectives.Proofs.Document.Scope
import LoopDirectives.Table.Declarations
import LoopDirectives.Table.Symbols
import LoopDirectives.Table.Types

/-!
# What the tables are read from

An entry of a table is read from one element, its children and, for function types, the children of
its parameters. When a document grows at the end of one node (`Document.Grown`) and that node is not
of a kind whose children are read, every entry is read as before, and a table gets the entries of
the new nodes last (`TypeTable.read_grown`, `SymbolTable.read_grown`,
`DeclarationTable.read_grown`).
-/

namespace LoopDirectives

open List

/-! ### Lists with keys -/

namespace Keyed

variable {Entry Key : Type} [DecidableEq Key] (key : Entry → Key)

theorem mem_of_mem_place {entry other : Entry} {entries : List Entry}
    (h : other ∈ place key entry entries) : other = entry ∨ other ∈ entries := by
  induction entries with
  | nil => exact Or.inl (mem_singleton.mp h)
  | cons first rest ih =>
    unfold place at h
    split at h
    · exact (mem_cons.mp h).imp_right (mem_cons_of_mem _)
    · rcases mem_cons.mp h with rfl | h
      · exact Or.inr (mem_cons_self ..)
      · exact (ih h).imp_right (mem_cons_of_mem _)

theorem place_of_notMem {entry : Entry} {entries : List Entry}
    (h : ∀ other ∈ entries, key other ≠ key entry) :
    place key entry entries = entries ++ [entry] := by
  induction entries with
  | nil => rfl
  | cons first rest ih =>
    obtain ⟨hfirst, hrest⟩ := forall_mem_cons.mp h
    rw [place, if_neg hfirst, ih hrest, cons_append]

theorem mem_map_place {entry : Entry} {entries : List Entry} {found : Key} :
    found ∈ (place key entry entries).map key ↔ found = key entry ∨ found ∈ entries.map key := by
  induction entries with
  | nil => simp [place]
  | cons first rest ih =>
    unfold place
    split
    · next heq => simp [heq]
    · rw [map_cons, mem_cons, ih, map_cons, mem_cons, or_left_comm]

theorem nodup_place (entry : Entry) {entries : List Entry} (h : (entries.map key).Nodup) :
    ((place key entry entries).map key).Nodup := by
  induction entries with
  | nil => exact nodup_singleton _
  | cons first rest ih =>
    obtain ⟨hfirst, hrest⟩ := nodup_cons.mp h
    unfold place
    split
    · next heq =>
      rw [map_cons, ← heq]
      exact h
    · next hne =>
      exact nodup_cons.mpr ⟨fun hmem ↦ ((mem_map_place key).mp hmem).elim hne hfirst, ih hrest⟩

theorem find?_of_nodup {entry : Entry} {entries : List Entry} (h : (entries.map key).Nodup)
    (hentry : entry ∈ entries) :
    (entries.find? fun other => key other == key entry) = some entry := by
  induction entries with
  | nil => cases hentry
  | cons first rest ih =>
    obtain ⟨hfirst, hrest⟩ := nodup_cons.mp h
    rcases mem_cons.mp hentry with rfl | hentry
    · simp
    · have hne : key first ≠ key entry := fun heq ↦
        hfirst (heq ▸ mem_map_of_mem hentry)
      simp [hne, ih hrest hentry]

def placeAll (added entries : List Entry) : List Entry :=
  added.foldl (fun entries entry => place key entry entries) entries

theorem mem_of_mem_placeAll {other : Entry} {added entries : List Entry}
    (h : other ∈ placeAll key added entries) : other ∈ added ∨ other ∈ entries := by
  induction added generalizing entries with
  | nil => exact Or.inr h
  | cons entry rest ih =>
    rcases ih h with hrest | hplaced
    · exact Or.inl (mem_cons_of_mem _ hrest)
    · refine (mem_of_mem_place key hplaced).imp_left ?_
      rintro rfl
      exact mem_cons_self ..

theorem mem_map_placeAll {added entries : List Entry} {found : Key} :
    found ∈ (placeAll key added entries).map key ↔
      found ∈ added.map key ∨ found ∈ entries.map key := by
  induction added generalizing entries with
  | nil => simp [placeAll]
  | cons entry rest ih =>
    rw [map_cons, mem_cons, or_right_comm, or_comm, ← mem_map_place]
    exact ih

theorem nodup_placeAll (added : List Entry) {entries : List Entry} (h : (entries.map key).Nodup) :
    ((placeAll key added entries).map key).Nodup := by
  induction added generalizing entries with
  | nil => exact h
  | cons entry rest ih => exact ih (nodup_place key entry h)

end Keyed

/-! ### Documents that grow -/

namespace Document

theorem contains_of_attribute? {doc : Document} {node : NodeId} {name value : String}
    (h : doc.attribute? node name = some value) : doc.contains node := by
  by_contra hstale
  rw [Bool.not_eq_true, contains_eq_false_iff] at hstale
  simp [attribute?, label, hstale, Label.blank, Label.attribute?] at h

/-- The live nodes keep their labels and their children, but for one holder, which gets nodes at the
end of its children. -/
structure Grown (before after : Document) (holder : NodeId) (added : List NodeId) : Prop where
  contains : ∀ x, before.contains x = true → after.contains x = true
  label : ∀ x, before.contains x = true → after.label x = before.label x
  children_of_ne : ∀ x, before.contains x = true → x ≠ holder →
    after.children x = before.children x
  children_holder : after.children holder = before.children holder ++ added

variable {doc before middle after : Document} {holder node x : NodeId} {added : List NodeId}

theorem Grown.trans {more : List NodeId} (first : Grown before middle holder added)
    (second : Grown middle after holder more) : Grown before after holder (added ++ more) where
  contains y hy := second.contains y (first.contains y hy)
  label y hy := (second.label y (first.contains y hy)).trans (first.label y hy)
  children_of_ne y hy hne :=
    (second.children_of_ne y (first.contains y hy) hne).trans (first.children_of_ne y hy hne)
  children_holder := by
    rw [second.children_holder, first.children_holder, append_assoc]

theorem Forest.grown_append (forest : doc.Forest) (hnode : doc.parent? node = none)
    (hattach : doc.canAttach node holder) :
    Grown doc (doc.append holder node) holder [node] := by
  have hmoved := forest.moved_append hattach
  have hkept (y : NodeId) : (doc.children y).filter (· ≠ node) = doc.children y := by
    refine filter_eq_self.mpr fun child hchild ↦ decide_eq_true ?_
    rintro rfl
    simp [forest.parent?_of_mem hchild] at hnode
  refine ⟨fun y hy ↦ (hmoved.contains_eq y).trans hy, fun y _ ↦ hmoved.label_eq y,
    fun y _ hne ↦ (hmoved.children_of_ne y hne).trans (hkept y), ?_⟩
  rw [hmoved.children_parent, hkept, take_length, drop_length]

/-- The scope of the nodes that a document does not have yet. -/
def fresher (doc : Document) : Scope :=
  Scope.below doc [] [] []

theorem Forest.guards_fresher (forest : doc.Forest) : doc.fresher.Guards doc :=
  Scope.guards_below forest [] (by simp)

section NewNodes

variable (forest : doc.Forest) (steps : doc.fresher.Steps doc after)

include forest steps

theorem Forest.readings_of_steps (hx : doc.contains x) :
    after.contains x ∧ after.label x = doc.label x ∧
      after.parent? x = doc.parent? x ∧ after.children x = doc.children x := by
  obtain ⟨hguards, hspares⟩ := Scope.Steps.guards_and_spares forest.guards_fresher steps
  have hout : ¬ doc.fresher.inside x := by
    simp [fresher, Scope.inside_below_iff _ _ _ _ hx]
  exact ⟨hspares.contains x hx hout, hspares.label x hx hout, hspares.parent? x hx hout,
    hspares.children_eq forest.guards_fresher hguards hx hout not_mem_nil not_mem_nil⟩

theorem Forest.grown_of_steps (hholder : doc.contains holder) :
    Grown doc after holder [] := by
  have hold {y : NodeId} (hy : doc.contains y) := forest.readings_of_steps steps hy
  exact ⟨fun y hy ↦ (hold hy).1, fun y hy ↦ (hold hy).2.1, fun y hy _ ↦ (hold hy).2.2.2,
    by rw [(hold hholder).2.2.2, append_nil]⟩

theorem Forest.not_above_of_steps (hx : doc.contains x)
    (hnode : doc.slots.size ≤ node.index) : node ≠ x ∧ ¬ after.Above node x := by
  have hne {y : NodeId} (hy : doc.contains y) : node ≠ y := by
    rintro rfl
    exact Nat.not_lt.mpr hnode (index_lt_size hy)
  refine ⟨hne hx, fun habove ↦ ?_⟩
  rw [above_iff_of_parent?_eq (fun y hy ↦ (forest.readings_of_steps steps hy).2.2.1)
    (fun _ _ _ ↦ forest.contains_parent) hx] at habove
  exact hne (forest.contains_above habove) rfl

end NewNodes

namespace Grown

variable (grown : Grown before after holder added)

include grown

section

variable (hx : before.contains x)

include hx

theorem kind : after.kind x = before.kind x :=
  congrArg Label.kind (grown.label x hx)

theorem isKind (wanted : Kind) : after.isKind x wanted = before.isKind x wanted := by
  rw [Document.isKind, grown.kind hx, Document.isKind]

theorem text : after.text x = before.text x :=
  congrArg Label.text (grown.label x hx)

theorem attribute? (name : String) : after.attribute? x name = before.attribute? x name := by
  rw [Document.attribute?, grown.label x hx, Document.attribute?]

theorem children_eq : after.children x = before.children x ++ if x = holder then added else [] := by
  split
  · next heq => rw [heq, grown.children_holder]
  · next hne => rw [grown.children_of_ne x hx hne, append_nil]

end

variable (forest : before.Forest)

include forest

theorem childrenOf_of_ne (hx : before.contains x) (hne : x ≠ holder) (wanted : List Kind) :
    after.childrenOf x wanted = before.childrenOf x wanted := by
  rw [childrenOf, grown.children_of_ne x hx hne, childrenOf]
  exact filter_congr fun child hchild ↦ by rw [grown.kind (forest.contains_child hchild)]

theorem childOf?_of_kind (hx : before.contains x) {wanted : Kind}
    (hadded : x = holder → ∀ y ∈ added, after.kind y ≠ wanted) :
    after.childOf? x wanted = before.childOf? x wanted := by
  have hnone : (if x = holder then added else []).find? (after.isKind · wanted) = none := by
    split
    · next heq => simpa [Document.isKind] using hadded heq
    · rfl
  rw [childOf?, grown.children_eq hx, find?_append, hnone, Option.or_none, childOf?]
  exact find?_congr fun child hchild ↦ grown.isKind (forest.contains_child hchild) wanted

end Grown

end Document

open Document

variable {before after doc : Document} {holder node x element : NodeId} {added : List NodeId}

/-! ### Entries of a type table -/

namespace TypeEntry

variable {entry : TypeEntry}

/-- The kinds of elements of which a type entry reads the children. -/
def readKinds : List Kind :=
  [.basicType, .functionType, .parameters]

theorem node_of_read? (h : read? doc node = some entry) :
    entry.node = node ∧ doc.typeId? node = some entry.id ∧
      entry.form = formOf doc node := by
  obtain ⟨id, hid, rfl⟩ := Option.map_eq_some_iff.mp h
  exact ⟨rfl, hid, rfl⟩

theorem contains_of_read? (h : read? doc node = some entry) : doc.contains node :=
  contains_of_attribute? (node_of_read? h).2.1

theorem kind_of_formOf {form : BasicForm} (h : formOf doc node = .basic form) :
    doc.kind node = .basicType ∧ doc.attribute? node "ref" = form.reference? := by
  unfold formOf at h
  split at h
  · next hkind =>
    cases h
    exact ⟨hkind, rfl⟩
  · cases h
  · cases h

section

variable (grown : Grown before after holder added) (forest : before.Forest) (hx : before.contains x)

include grown forest hx

theorem parametersOf_grown (hne : x ≠ holder) (hkind : before.kind holder ≠ .parameters) :
    parametersOf after x = parametersOf before x := by
  rw [parametersOf, grown.childOf?_of_kind forest hx (absurd · hne), parametersOf]
  cases hfound : before.childOf? x .parameters with
  | none => rfl
  | some parameters =>
    have hlive := forest.contains_child (mem_children_of_childOf? hfound)
    have hother : parameters ≠ holder := by
      rintro rfl
      exact hkind (kind_of_childOf? hfound)
    dsimp only
    rw [grown.childrenOf_of_ne forest hlive hother]
    refine map_congr_left fun name hname ↦ ?_
    have hnameLive := forest.contains_child (mem_of_mem_filter hname)
    rw [grown.text hnameLive, typeId?, grown.attribute? hnameLive, typeId?]

theorem read?_grown (hkind : before.kind holder ∉ readKinds) : read? after x = read? before x := by
  simp only [readKinds, mem_cons, not_mem_nil, or_false, not_or] at hkind
  obtain ⟨hbasic, hfunction, hparameters⟩ := hkind
  have hform : formOf after x = formOf before x := by
    rw [formOf, formOf, grown.kind hx]
    split
    · next heq =>
      have hne : x ≠ holder := fun h ↦ hbasic (h ▸ heq)
      rw [dimensionsOf, dimensionsOf, grown.childrenOf_of_ne forest hx hne,
        grown.attribute? hx, grown.attribute? hx]
    · next heq =>
      have hne : x ≠ holder := fun h ↦ hfunction (h ▸ heq)
      rw [parametersOf_grown grown forest hx hne hparameters, grown.attribute? hx, flag, flag,
        grown.label x hx]
    · rfl
  rw [read?, hform, typeId?, grown.attribute? hx, read?, typeId?]

end

end TypeEntry

namespace TypeTable

theorem foldl_push (entries : List TypeEntry) (table : TypeTable) :
    entries.foldl push table =
      { table with entries := Keyed.placeAll TypeEntry.id entries table.entries } := by
  induction entries generalizing table with
  | nil => rfl
  | cons entry rest ih => exact ih (table.push entry)

theorem read_eq (doc : Document) (element : NodeId) :
    read doc element =
      { element? := some element
        entries := Keyed.placeAll TypeEntry.id
          ((doc.children element).filterMap (TypeEntry.read? doc)) [] } :=
  foldl_push _ _

theorem mem_entries_read {entry : TypeEntry} (h : entry ∈ (read doc element).entries) :
    entry.node ∈ doc.children element ∧
      TypeEntry.read? doc entry.node = some entry := by
  rw [read_eq] at h
  rcases Keyed.mem_of_mem_placeAll TypeEntry.id h with h | h
  · obtain ⟨child, hchild, hread⟩ := mem_filterMap.mp h
    rw [(TypeEntry.node_of_read? hread).1]
    exact ⟨hchild, hread⟩
  · cases h

theorem nodup_entries_read (doc : Document) (element : NodeId) :
    ((read doc element).entries.map TypeEntry.id).Nodup := by
  rw [read_eq]
  refine Keyed.nodup_placeAll TypeEntry.id _ ?_
  exact nodup_nil

/-- Assumes: the node that grows is none that the table reads. Only its new children are read. -/
theorem read_grown (grown : Grown before after holder added) (forest : before.Forest)
    (helement : before.contains element)
    (hkind : before.kind holder ∉ TypeEntry.readKinds) :
    read after element = ((if element = holder then added else []).filterMap
      (TypeEntry.read? after)).foldl push (read before element) := by
  have hsame : (before.children element).filterMap (TypeEntry.read? after) =
      (before.children element).filterMap (TypeEntry.read? before) :=
    filterMap_congr fun child hchild ↦
      TypeEntry.read?_grown grown forest (forest.contains_child hchild) hkind
  rw [read, grown.children_eq helement, filterMap_append, foldl_append, hsame, ← read]

end TypeTable

/-! ### Entries of a symbol table -/

namespace Symbol

theorem contains_of_read? {symbol : Symbol} (h : read? doc node = some symbol) :
    doc.contains node ∧ doc.kind node = .identifier := by
  unfold read? at h
  split at h
  · next hkind =>
    obtain ⟨name, hname, -⟩ := Option.map_eq_some_iff.mp h
    exact ⟨contains_of_mem_children (mem_children_of_childOf? hname), of_decide_eq_true hkind⟩
  · cases h

theorem read?_grown (grown : Grown before after holder added) (forest : before.Forest)
    (hx : before.contains x) (hkind : before.kind holder ≠ .identifier) :
    read? after x = read? before x := by
  rw [read?, read?, grown.isKind hx]
  split
  · next heq =>
    have hne : x ≠ holder := by
      rintro rfl
      exact hkind (of_decide_eq_true heq)
    rw [grown.childOf?_of_kind forest hx (absurd · hne)]
    refine Option.map_congr fun name hname ↦ ?_
    rw [grown.text (forest.contains_child (mem_children_of_childOf? hname)), typeId?,
      grown.attribute? hx, grown.attribute? hx, typeId?]
  · rfl

end Symbol

/-- The same for symbols. -/
theorem SymbolTable.read_grown (grown : Grown before after holder added) (forest : before.Forest)
    (helement : before.contains element) (hkind : before.kind holder ≠ .identifier) :
    read after element = { read before element with
      entries := (read before element).entries ++
        (if element = holder then added else []).filterMap (Symbol.read? after) } := by
  have hsame : (before.children element).filterMap (Symbol.read? after) =
      (before.children element).filterMap (Symbol.read? before) :=
    filterMap_congr fun child hchild ↦
      Symbol.read?_grown grown forest (forest.contains_child hchild) hkind
  rw [read, grown.children_eq helement, filterMap_append, hsame]
  rfl

/-! ### Entries of a declaration table -/

namespace Declaration

theorem contains_of_read? {declaration : Declaration}
    (h : read? doc node = some declaration) : doc.contains node := by
  obtain ⟨_, hname, -⟩ := Option.map_eq_some_iff.mp h
  obtain ⟨_, hname, -⟩ := Option.map_eq_some_iff.mp hname
  obtain ⟨hname, -⟩ := Option.filter_eq_some_iff.mp hname
  cases hchild : doc.childOf? node .name with
  | some child => exact contains_of_mem_children (mem_children_of_childOf? hchild)
  | none =>
    rw [hchild] at hname
    exact contains_of_attribute? hname

theorem read?_grown (grown : Grown before after holder added) (forest : before.Forest)
    (hx : before.contains x) (hadded : x = holder → ∀ y ∈ added, after.kind y ≠ .name) :
    read? after x = read? before x := by
  have htext : (before.childOf? x .name).map after.text =
      (before.childOf? x .name).map before.text :=
    Option.map_congr fun name hname ↦
      grown.text (forest.contains_child (mem_children_of_childOf? hname))
  rw [read?, nameOf?, grown.childOf?_of_kind forest hx hadded, htext, grown.attribute? hx, read?,
    nameOf?]

end Declaration

namespace DeclarationTable

/-- The same for declarations, which are read by their names. -/
theorem read_grown (grown : Grown before after holder added) (forest : before.Forest)
    (helement : before.contains element)
    (hadded : before.parent? holder = some element → ∀ y ∈ added, after.kind y ≠ .name) :
    read after element = ((if element = holder then added else []).filterMap
      (Declaration.read? after)).foldl push (read before element) := by
  have hsame : (before.children element).filterMap (Declaration.read? after) =
      (before.children element).filterMap (Declaration.read? before) := by
    refine filterMap_congr fun child hchild ↦
      Declaration.read?_grown grown forest (forest.contains_child hchild) fun heq ↦ hadded ?_
    exact heq ▸ forest.parent?_of_mem hchild
  rw [read, grown.children_eq helement, filterMap_append, foldl_append, hsame, ← read]

end DeclarationTable

end LoopDirectives
