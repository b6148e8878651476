import LoopDirectives.Proofs.Pragma.Chains

/-!
# What wrapping pragmas keeps

Wrapping changes the texts and attributes of pragmas and adds pragmas. `Wrapped` says what this
leaves as it is: the old nodes with their parents, kinds and order, the children that are no
pragmas, and the nodes that hang nowhere. So what is found below a node by a kind other than that of
pragmas is found there afterwards (`Wrapped.childOf?_eq`).
-/

namespace LoopDirectives.Pragma

open Document List

variable {doc before after : Document} {parent pragma root id : NodeId}

/-- What wrapping leaves as it is. -/
structure Wrapped (before after : Document) : Prop where
  forest : after.Forest
  size_le : before.slots.size ≤ after.slots.size
  contains : ∀ x, before.contains x = true → after.contains x = true
  keepsParents : KeepsParents before after
  kind : ∀ x, before.contains x = true → after.kind x = before.kind x
  children : ∀ x, before.contains x = true →
    (after.children x).filter (!after.isKind · .pragma) =
      (before.children x).filter (!before.isKind · .pragma)
  children_old : ∀ x, before.contains x = true →
    (after.children x).filter before.contains = before.children x
  rootedAt : ∀ roots, before.RootedAt roots → after.RootedAt roots

namespace Wrapped

theorem refl (forest : doc.Forest) : Wrapped doc doc :=
  ⟨forest, Nat.le_refl _, fun _ h ↦ h, .refl doc, fun _ _ ↦ rfl, fun _ _ ↦ rfl,
    fun _ _ ↦ filter_eq_self.mpr fun _ ↦ forest.contains_child, fun _ h ↦ h⟩

/-- Wrapping moves no child but pragmas, so the first child of another kind stays. -/
theorem childOf?_eq (wrapped : Wrapped before after) (forest : before.Forest)
    (hid : before.contains id) {wanted : Kind} (hwanted : wanted ≠ .pragma) :
    after.childOf? id wanted = before.childOf? id wanted := by
  have hskip (doc : Document) : doc.childOf? id wanted =
      ((doc.children id).filter (!doc.isKind · .pragma)).find?
        (doc.isKind · wanted) := by
    rw [find?_filter, childOf?]
    refine find?_congr fun child _ ↦ ?_
    by_cases hchild : doc.kind child = wanted <;> simp [isKind, hchild, hwanted]
  rw [hskip after, hskip before, wrapped.children id hid]
  refine find?_congr fun child hchild ↦ ?_
  rw [isKind, isKind, wrapped.kind child (forest.contains_child (mem_of_mem_filter hchild))]

theorem contains_of_parent? (wrapped : Wrapped before after) (hid : id.index < before.slots.size)
    (h : after.parent? id = some parent) : before.contains id :=
  Document.contains_of_parent? ((wrapped.keepsParents id hid).symm.trans h)

theorem contains_old {roots : List NodeId} (wrapped : Wrapped before after)
    (rooted : before.RootedAt roots) (hroots : ∀ root ∈ roots, before.contains root)
    (hid : id.index < before.slots.size) (h : after.contains id) :
    before.contains id := by
  cases hparent : after.parent? id with
  | none => exact hroots id (wrapped.rootedAt roots rooted id h hparent)
  | some parent => exact wrapped.contains_of_parent? hid hparent

end Wrapped

theorem Chained.wrapped {links : NodeId → List NodeId} {pieces : NodeId → Label → List Label}
    (chained : Chained before after links pieces) (forest : before.Forest)
    (hpieces : ∀ x label, ((pieces x label).head?.map Label.kind) = some label.kind ∧
      ∀ piece ∈ (pieces x label).tail, piece.kind = .pragma) : Wrapped before after := by
  have hkinds {x : NodeId} (hx : before.contains x) : after.kind x = before.kind x ∧
      ∀ link ∈ links x, after.kind link = .pragma := by
    obtain ⟨hfirst, hrest⟩ := hpieces x (before.label x)
    rw [← chained.labels x hx] at hfirst hrest
    exact ⟨Option.some.inj hfirst, fun link hlink ↦ hrest _ (mem_map_of_mem hlink)⟩
  -- A filter that drops the links sees the old children.
  have hfilter {keep : NodeId → Bool} {x : NodeId} (hx : before.contains x)
      (hlinks : ∀ child ∈ before.children x, ∀ link ∈ links child, keep link = false) :
      (after.children x).filter keep = (before.children x).filter keep := by
    rw [chained.children_eq x hx]
    generalize before.children x = children at hlinks
    induction children with
    | nil => rfl
    | cons child rest ih =>
      obtain ⟨hchild, hrest⟩ := forall_mem_cons.mp hlinks
      have hnone : (links child).filter keep = [] :=
        filter_eq_nil_iff.mpr fun link hlink ↦ by simp [hchild link hlink]
      rw [flatMap_cons, filter_append, filter_cons, filter_cons, hnone,
        ih hrest]
      split <;> rfl
  refine ⟨chained.forest, chained.size_le, chained.contains_old, chained.keepsParents,
    fun x hx ↦ (hkinds hx).1, fun x hx ↦ ?_, fun x hx ↦ ?_, fun roots rooted x hx hparent ↦ ?_⟩
  · rw [hfilter hx fun child hchild link hlink ↦ by
      simp [isKind, (hkinds (forest.contains_child hchild)).2 link hlink]]
    refine filter_congr fun child hchild ↦ ?_
    rw [isKind, isKind, (hkinds (forest.contains_child hchild)).1]
  · rw [hfilter hx fun child hchild link hlink ↦ contains_eq_false_of_size_le
      (chained.leaf child (forest.contains_child hchild) link hlink).1]
    exact filter_eq_self.mpr fun _ ↦ forest.contains_child
  · rcases chained.contains x hx with hold | ⟨old, hold, hlink⟩
    · exact rooted x hold ((chained.keepsParents x (index_lt_size hold)).symm.trans hparent)
    · obtain ⟨-, -, -, parent, -, hplace⟩ := chained.leaf old hold x hlink
      cases hplace.symm.trans hparent

theorem wrapped_foldl (forest : doc.Forest) (columns : Nat) (marker : String)
    {pragmas : List NodeId} (hnodup : pragmas.Nodup)
    (hpragmas : ∀ pragma ∈ pragmas, ∃ parent, doc.parent? pragma = some parent) :
    Wrapped doc (pragmas.foldl (wrapAt columns marker) doc) := by
  obtain ⟨links, chained, -⟩ := exists_chained_foldl forest columns marker hnodup hpragmas
  rw [foldl_wrapNext_fst] at chained
  refine chained.wrapped forest fun x label ↦ ?_
  split
  · exact ⟨rfl, fun piece hpiece ↦ (attributes_of_mem_linkLabels _ _ hpiece).1⟩
  · exact ⟨rfl, forall_mem_nil _⟩

/-! ### The pragmas below a root -/

theorem pragmas_below (forest : doc.Forest) (root : NodeId) :
    (doc.descendantsOf root .pragma).Nodup ∧
      ∀ pragma ∈ doc.descendantsOf root .pragma, doc.kind pragma = .pragma ∧
        ∃ parent, doc.parent? pragma = some parent := by
  refine ⟨((forest.nodup_subtree root).sublist (forest.descendants_sublist root)).filter _,
    fun x hx ↦ ?_⟩
  obtain ⟨hmem, hkind⟩ := mem_filter.mp hx
  exact ⟨beq_iff_eq.mp hkind, (forest.mem_descendants_iff.mp hmem).exists_parent?⟩

def overlong (columns : Nat) (marker : String) (doc : Document) (root : NodeId) :
    List NodeId :=
  (doc.descendantsOf root .pragma).filter (isOverlong columns marker <| doc.text ·)

theorem exists_chained_wrapAll (forest : doc.Forest) (columns : Nat) (marker : String)
    (root : NodeId) :
    ∃ links, Chained doc (wrapAll columns marker doc root).1 links
        (fun x label ↦
          if x ∈ overlong columns marker doc root then chain columns label else [label]) ∧
      (wrapAll columns marker doc root).2 = (overlong columns marker doc root).length :=
  exists_chained_foldl forest columns marker (pragmas_below forest root).1 fun pragma hpragma ↦
    ((pragmas_below forest root).2 pragma hpragma).2

theorem contains_of_mem_overlong (forest : doc.Forest) {columns : Nat} {marker : String}
    (h : pragma ∈ overlong columns marker doc root) :
    doc.contains pragma ∧
      isOverlong columns marker (doc.text pragma) := by
  obtain ⟨hmem, hlong⟩ := mem_filter.mp h
  obtain ⟨-, parent, hparent⟩ := (pragmas_below forest root).2 pragma hmem
  exact ⟨contains_of_parent? hparent, hlong⟩

theorem wrapped_wrap (forest : doc.Forest) (columns : Nat) (marker : String) (root : NodeId) :
    Wrapped doc (wrap columns marker doc root) := by
  rw [wrap_eq_foldl]
  exact wrapped_foldl forest columns marker (pragmas_below forest root).1 fun pragma hpragma ↦
    ((pragmas_below forest root).2 pragma hpragma).2

end LoopDirectives.Pragma
