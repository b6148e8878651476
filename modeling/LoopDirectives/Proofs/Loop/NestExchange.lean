import Mathlib.Logic.Equiv.Basic
import LoopDirectives.Proofs.Loop.HeaderExchange

/-!
# Exchanging headers in a nest, one pair after the other

An exchange of two headers leaves the header of every loop that is separate from both as it is
(`Undisturbed`). So in a nest it exchanges the variables of the two loops and no other
(`varName?_exchangeHeaders`), and complete loops stay complete (`complete_exchangeHeaders_iff`). In
a nest of complete loops with no more than one step each, every exchange succeeds. `Rearranged` is
what holds after any number of them: each loop has the header of one of the loops of the nest, and
what is in none of the headers is as and where it was.
-/

namespace LoopDirectives.Loop

open Document List

variable {doc before middle after : Document} {loop other left right x y : NodeId}
  {nest : List NodeId} {header first second : Header}

/-! ### Loops that are not touched -/

theorem InHeader.below (h : InHeader doc loop x) (forest : doc.Forest)
    (hy : y ∈ doc.subtree x) : InHeader doc loop y := by
  obtain ⟨kind, hkind, part, hpart, hmem⟩ := h
  exact ⟨kind, hkind, part, hpart, forest.mem_subtree_trans hy hmem⟩

theorem InHeader.contains (h : InHeader doc loop x) (forest : doc.Forest) :
    doc.contains x := by
  obtain ⟨kind, -, part, hpart, hmem⟩ := h
  exact forest.contains_of_mem_subtree
    (forest.contains_child (mem_children_of_childOf? hpart)) hmem

theorem Parts.inHeader (parts : Parts doc loop header) (forest : doc.Forest)
    (hx : x ∈ header.range :: header.nodes) : InHeader doc loop x := by
  rcases mem_cons.mp hx with rfl | hx
  · exact ⟨.indexRange, by simp, _, parts.range, forest.self_mem_subtree _⟩
  · exact parts.exists_part forest hx

theorem inHeader_of_path? (forest : doc.Forest) {kind : Kind}
    (h : doc.path? loop [.indexRange, kind] = some x) : InHeader doc loop x := by
  rw [path?_pair] at h
  obtain ⟨range, hrange, hx⟩ := Option.bind_eq_some_iff.mp h
  exact ⟨.indexRange, by simp, range, hrange,
    forest.mem_subtree_of_mem_children (mem_children_of_childOf? hx)⟩

section

variable (separate : Separate doc loop other) (forest : doc.Forest)

include separate forest

theorem Separate.not_inHeader (hx : InHeader doc loop x) : ¬ InHeader doc other x := by
  obtain ⟨kind, hkind, part, hpart, hmem⟩ := hx
  rintro ⟨otherKind, hotherKind, otherPart, hotherPart, hotherMem⟩
  exact (separate.apart forest hkind hotherKind hpart hotherPart).disjoint forest hmem hotherMem

theorem Separate.child_notIn (hx : x ∈ doc.children loop) : ¬ InHeader doc other x := by
  rintro ⟨kind, hkind, part, hpart, hmem⟩
  rcases (forest.mem_subtree_of_parent? (forest.parent?_of_mem hx)).mp hmem with rfl | hmem
  · have hparent := forest.parent?_of_childOf? hpart
    rw [forest.parent?_of_mem hx] at hparent
    exact separate.ne (Option.some.inj hparent)
  · exact separate.left_notIn ⟨kind, hkind, part, hpart, hmem⟩

end

/-- The header of the loop, with everything in it, reads as before. -/
structure Undisturbed (before after : Document) (loop : NodeId) : Prop where
  label : after.label loop = before.label loop
  childOf? : ∀ kind, after.childOf? loop kind = before.childOf? loop kind
  inside : ∀ x, InHeader before loop x →
    after.label x = before.label x ∧ after.children x = before.children x

theorem undisturbed_of_separate (forest : before.Forest) (hfirst : Parts before left first)
    (hsecond : Parts before right second)
    (keeps : KeepsPlaces before after (first.nodes ++ second.nodes) [first.range, second.range])
    (hleft : Separate before loop left) (hright : Separate before loop right)
    (hlive : before.contains loop) : Undisturbed before after loop := by
  -- What is in neither of the two headers is clear of the exchanged nodes and no range.
  have hout {x : NodeId} (hx : before.contains x) (hxLeft : ¬ InHeader before left x)
      (hxRight : ¬ InHeader before right x) :
      before.Clear (first.nodes ++ second.nodes) x ∧ x ∉ [first.range, second.range] := by
    refine ⟨⟨hx, fun node hnode hmem ↦ ?_⟩, fun hmem ↦ ?_⟩
    · rcases mem_append.mp hnode with hnode | hnode
      · exact hxLeft ((hfirst.inHeader forest (mem_cons_of_mem _ hnode)).below forest hmem)
      · exact hxRight ((hsecond.inHeader forest (mem_cons_of_mem _ hnode)).below forest hmem)
    · rcases mem_pair.mp hmem with rfl | rfl
      · exact hxLeft (hfirst.inHeader forest (mem_cons_self ..))
      · exact hxRight (hsecond.inHeader forest (mem_cons_self ..))
  have hloop := hout hlive hleft.left_notIn hright.left_notIn
  have hchild : ∀ child ∈ before.children loop,
      before.Clear (first.nodes ++ second.nodes) child := fun child hchild ↦
    (hout (forest.contains_child hchild) (hleft.child_notIn forest hchild)
      (hright.child_notIn forest hchild)).1
  have hinside : ∀ x, InHeader before loop x →
      before.Clear (first.nodes ++ second.nodes) x ∧ x ∉ [first.range, second.range] := fun x hx ↦
    hout (hx.contains forest) (hleft.not_inHeader forest hx) (hright.not_inHeader forest hx)
  refine ⟨keeps.label loop hloop.1, childOf?_congr (keeps.children_eq hloop.1 hloop.2 hchild)
    fun child hmem ↦ keeps.label child (hchild child hmem), fun x hx ↦ ?_⟩
  refine ⟨keeps.label x (hinside x hx).1, keeps.children_eq (hinside x hx).1 (hinside x hx).2
    fun child hmem ↦ (hinside child ?_).1⟩
  exact hx.below forest (forest.mem_subtree_of_mem_children hmem)

namespace Undisturbed

variable (undisturbed : Undisturbed before after loop)

include undisturbed

theorem isKind_eq (kind : Kind) : after.isKind loop kind = before.isKind loop kind := by
  rw [isKind, isKind, Document.kind, Document.kind, undisturbed.label]

variable (forest : before.Forest)

include forest

theorem label_child (hx : InHeader before loop x) :
    ∀ child ∈ before.children x, after.label child = before.label child := fun child hchild ↦
  (undisturbed.inside child
    (hx.below forest (forest.mem_subtree_of_mem_children hchild))).1

theorem path?_eq (kind : Kind) :
    after.path? loop [.indexRange, kind] = before.path? loop [.indexRange, kind] := by
  rw [path?_pair, path?_pair, undisturbed.childOf?]
  cases hrange : before.childOf? loop .indexRange with
  | none => rfl
  | some range =>
    have hin : InHeader before loop range :=
      ⟨.indexRange, by simp, range, hrange, forest.self_mem_subtree range⟩
    exact childOf?_congr (undisturbed.inside range hin).2 (undisturbed.label_child forest hin) kind

theorem headerSlots_eq : headerSlots after loop = headerSlots before loop := by
  have hbound (kind : Kind) : (after.path? loop [.indexRange, kind]).bind after.firstChild? =
      (before.path? loop [.indexRange, kind]).bind before.firstChild? := by
    rw [undisturbed.path?_eq forest]
    refine Option.bind_congr fun bound hbound ↦ ?_
    rw [firstChild?, firstChild?,
      (undisturbed.inside bound (inHeader_of_path? forest hbound)).2]
  rw [headerSlots, headerSlots, hbound, hbound, undisturbed.path?_eq forest,
    undisturbed.childOf?]

theorem headerNodes_eq : headerNodes after loop = headerNodes before loop := by
  rw [headerNodes, headerNodes, undisturbed.headerSlots_eq forest]

theorem complete_iff : Complete after loop ↔ Complete before loop := by
  have hbound (kind : Kind) :
      (∃ bound ∈ after.path? loop [.indexRange, kind], after.children bound ≠ []) ↔
        ∃ bound ∈ before.path? loop [.indexRange, kind], before.children bound ≠ [] := by
    rw [undisturbed.path?_eq forest]
    refine exists_congr fun bound ↦ and_congr_right fun hbound ↦ ?_
    rw [(undisturbed.inside bound (inHeader_of_path? forest hbound)).2]
  simp only [Complete, undisturbed.isKind_eq, undisturbed.childOf?, hbound]

theorem headerContent_eq (hafter : after.Forest) (hcomplete : Complete before loop) :
    headerContent after loop = headerContent before loop := by
  obtain ⟨header, parts⟩ := complete_iff_exists_parts.mp hcomplete
  rw [headerContent, headerContent, undisturbed.headerSlots_eq forest]
  refine map_congr_left fun slot hslot ↦ Option.map_congr fun node hnode ↦ ?_
  have hmem : node ∈ header.nodes := by
    rw [← headerNodes_of_parts parts]
    exact mem_filterMap.mpr ⟨slot, hslot, hnode⟩
  exact forest.element_congr hafter fun y hy ↦ undisturbed.inside y
    ((parts.inHeader forest (mem_cons_of_mem _ hmem)).below forest hy)

theorem varName?_eq : varName? after loop = varName? before loop := by
  rw [varName?, varName?, undisturbed.isKind_eq, varNode?, varNode?, undisturbed.childOf?]
  congr 1
  refine Option.map_congr fun node hnode ↦ ?_
  rw [Document.text, Document.text, (undisturbed.inside node
    ⟨.var, by simp, node, hnode, forest.self_mem_subtree node⟩).1]

theorem singleStep_iff {range : NodeId} (hrange : before.childOf? loop .indexRange = some range) :
    SingleStep after range ↔ SingleStep before range := by
  have hin : InHeader before loop range :=
    ⟨.indexRange, by simp, range, hrange, forest.self_mem_subtree range⟩
  have hsame : after.childrenOf range [.step] = before.childrenOf range [.step] := by
    rw [childrenOf, childrenOf, (undisturbed.inside range hin).2]
    refine filter_congr fun child hchild ↦ ?_
    rw [Document.kind, Document.kind, undisturbed.label_child forest hin child hchild]
  rw [SingleStep, SingleStep, hsame]

end Undisturbed

/-! ### One exchange in a nest -/

theorem Nested.contains_outer (nested : Nested doc left right) (forest : doc.Forest) :
    doc.contains left := by
  obtain ⟨body, hbody, -⟩ := nested
  exact forest.contains_parent hbody

theorem separate_of_pairwise_nested (forest : doc.Forest)
    (hnest : nest.Pairwise (Nested doc)) (hx : x ∈ nest) (hy : y ∈ nest) (hne : x ≠ y) :
    Separate doc x y ∧ doc.contains x := by
  rcases related_of_pairwise_nested hnest hx hy with heq | hnested | hnested
  · exact absurd heq hne
  · exact ⟨hnested.separate forest, hnested.contains_outer forest⟩
  · exact ⟨(hnested.separate forest).symm, hnested.contains_inner forest⟩

section

variable (separate : Separate doc left right) (forest : doc.Forest)
  (h : exchangeHeaders doc left right = .ok after)

include separate forest h

theorem exists_swapped_of_exchangeHeaders :
    ∃ first second first' second', Parts doc left first ∧ Parts doc right second ∧
      after = exchangeNodes doc first second ∧
      Swapped doc after left right first second first' second' := by
  obtain ⟨first, second, hfirst, hsecond, -⟩ := exchangeHeaders_eq_ok h
  rw [exchangeHeaders_eq (header_of_parts hfirst) (header_of_parts hsecond)] at h
  cases h
  obtain ⟨first', second', swapped⟩ := exists_swapped separate forest hfirst hsecond
  exact ⟨first, second, first', second', hfirst, hsecond, rfl, swapped⟩

theorem ne_of_exchangeHeaders : after ≠ doc := by
  obtain ⟨first, second, -, -, hfirst, hsecond, rfl, -⟩ :=
    exists_swapped_of_exchangeHeaders separate forest h
  intro heq
  have hlt := size_lt_exchangeNodes separate forest hfirst hsecond
  rw [heq] at hlt
  exact Nat.lt_irrefl _ hlt

end

theorem varName?_of_parts (parts : Parts doc loop header) :
    varName? doc loop = some (doc.text header.varNode) := by
  rw [varName?, if_pos parts.isKind, varNode?, parts.varNode, Option.map_some]

theorem text_eq_of_element_eq (forest : before.Forest) (hafter : after.Forest)
    (h : after.element x = before.element y) : after.text x = before.text y := by
  rw [hafter.element_eq, forest.element_eq] at h
  rw [Document.text, Document.text, (Tree.node.inj h).1]

section Exchange

variable (forest : doc.Forest) (hnest : nest.Pairwise (Nested doc)) (hleft : left ∈ nest)
  (hright : right ∈ nest) (hne : left ≠ right)

include forest hnest hleft hright hne

section

variable (h : exchangeHeaders doc left right = .ok after)

include h

theorem exists_swapped_of_mem :
    ∃ first second first' second', Parts doc left first ∧ Parts doc right second ∧
      after = exchangeNodes doc first second ∧
      Swapped doc after left right first second first' second' :=
  exists_swapped_of_exchangeHeaders
    (separate_of_pairwise_nested forest hnest hleft hright hne).1 forest h

variable (hloop : loop ∈ nest)

include hloop

theorem undisturbed_exchangeHeaders (hloopLeft : loop ≠ left) (hloopRight : loop ≠ right) :
    Undisturbed doc after loop := by
  obtain ⟨first, second, first', second', hfirst, hsecond, -, swapped⟩ :=
    exists_swapped_of_mem forest hnest hleft hright hne h
  obtain ⟨hsepLeft, hlive⟩ := separate_of_pairwise_nested forest hnest hloop hleft hloopLeft
  exact undisturbed_of_separate forest hfirst hsecond swapped.keeps hsepLeft
    (separate_of_pairwise_nested forest hnest hloop hright hloopRight).1 hlive

theorem mem_pair_or_undisturbed : loop = left ∨ loop = right ∨ Undisturbed doc after loop := by
  by_cases hloopLeft : loop = left
  · exact Or.inl hloopLeft
  by_cases hloopRight : loop = right
  · exact Or.inr (Or.inl hloopRight)
  · exact Or.inr (Or.inr (undisturbed_exchangeHeaders forest hnest hleft hright hne h hloop
      hloopLeft hloopRight))

/-- After an exchange, two loops run over the variables of each other and all others over theirs. -/
theorem varName?_exchangeHeaders :
    varName? after loop = varName? doc (Equiv.swap left right loop) := by
  obtain ⟨first, second, first', second', hfirst, hsecond, -, swapped⟩ :=
    exists_swapped_of_mem forest hnest hleft hright hne h
  have htext {ours theirs : Header}
      (hcore : ours.core.map after.element = theirs.core.map doc.element) :
      after.text ours.varNode = doc.text theirs.varNode :=
    text_eq_of_element_eq forest swapped.keeps.forest (List.cons.inj hcore).1
  by_cases hloopLeft : loop = left
  · rw [hloopLeft, Equiv.swap_apply_left, varName?_of_parts swapped.parts_left,
      varName?_of_parts hsecond, htext swapped.core_left]
  by_cases hloopRight : loop = right
  · rw [hloopRight, Equiv.swap_apply_right, varName?_of_parts swapped.parts_right,
      varName?_of_parts hfirst, htext swapped.core_right]
  · rw [Equiv.swap_apply_of_ne_of_ne hloopLeft hloopRight]
    exact (undisturbed_exchangeHeaders forest hnest hleft hright hne h hloop hloopLeft
      hloopRight).varName?_eq forest

/-- An exchange neither completes a header nor takes a part from one. -/
theorem complete_exchangeHeaders_iff : Complete after loop ↔ Complete doc loop := by
  obtain ⟨first, second, first', second', hfirst, hsecond, -, swapped⟩ :=
    exists_swapped_of_mem forest hnest hleft hright hne h
  rcases mem_pair_or_undisturbed forest hnest hleft hright hne h hloop with rfl | rfl | undisturbed
  · exact iff_of_true (complete_iff_exists_parts.mpr ⟨_, swapped.parts_left⟩)
      (complete_iff_exists_parts.mpr ⟨_, hfirst⟩)
  · exact iff_of_true (complete_iff_exists_parts.mpr ⟨_, swapped.parts_right⟩)
      (complete_iff_exists_parts.mpr ⟨_, hsecond⟩)
  · exact undisturbed.complete_iff forest

theorem range_exchangeHeaders :
    after.childOf? loop .indexRange = doc.childOf? loop .indexRange := by
  obtain ⟨first, second, first', second', hfirst, hsecond, -, swapped⟩ :=
    exists_swapped_of_mem forest hnest hleft hright hne h
  rcases mem_pair_or_undisturbed forest hnest hleft hright hne h hloop with rfl | rfl | undisturbed
  · rw [swapped.parts_left.range, swapped.range_left, hfirst.range]
  · rw [swapped.parts_right.range, swapped.range_right, hsecond.range]
  · exact undisturbed.childOf? .indexRange

end

end Exchange

/-! ### Any number of exchanges in a nest -/

/-- After some exchanges of headers in a nest of complete loops with no more than one step each:
the nest is still one and its loops are such loops, each has the header of one of the loops, the
nodes outside of the headers stay as and where they were, and nothing but the headers is new. -/
structure Rearranged (before after : Document) (nest : List NodeId) : Prop where
  nested : nest.Pairwise (Nested after)
  complete : ∀ loop ∈ nest, Complete after loop
  single : ∀ loop ∈ nest, ∀ range ∈ after.childOf? loop .indexRange, SingleStep after range
  range : ∀ loop ∈ nest, after.childOf? loop .indexRange = before.childOf? loop .indexRange
  source : ∀ loop ∈ nest, ∃ source ∈ nest, headerContent after loop = headerContent before source
  keeps : KeepsPlaces before after (nest.flatMap (headerNodes before)) (headerRanges before nest)
  new : ∀ node ∈ nest.flatMap (headerNodes after),
    ¬ before.Clear (nest.flatMap (headerNodes before)) node
  cover : ∀ x, after.contains x = true → before.Clear (nest.flatMap (headerNodes before)) x ∨
    ∃ node ∈ nest.flatMap (headerNodes after), x ∈ after.subtree node

theorem Rearranged.refl (forest : doc.Forest) (nested : nest.Pairwise (Nested doc))
    (complete : ∀ loop ∈ nest, Complete doc loop)
    (single : ∀ loop ∈ nest, ∀ range ∈ doc.childOf? loop .indexRange,
      SingleStep doc range) : Rearranged doc doc nest where
  nested := nested
  complete := complete
  single := single
  range _ _ := rfl
  source loop hloop := ⟨loop, hloop, rfl⟩
  keeps := .refl forest
  new _ hnode hclear := hclear.notMem forest hnode
  cover x hx := by
    by_cases h : ∃ node ∈ nest.flatMap (headerNodes doc), x ∈ doc.subtree node
    · exact Or.inr h
    · exact Or.inl ⟨hx, fun node hnode hmem ↦ h ⟨node, hnode, hmem⟩⟩

theorem mem_headerRanges {range : NodeId} {loops : List NodeId} :
    range ∈ headerRanges doc loops ↔
      ∃ loop ∈ loops, doc.childOf? loop .indexRange = some range :=
  mem_filterMap

theorem mem_headerNodes_pair (hleft : left ∈ nest) (hright : right ∈ nest)
    (hx : x ∈ headerNodes doc left ++ headerNodes doc right) :
    x ∈ nest.flatMap (headerNodes doc) := by
  rcases mem_append.mp hx with hx | hx
  · exact mem_flatMap.mpr ⟨left, hleft, hx⟩
  · exact mem_flatMap.mpr ⟨right, hright, hx⟩

theorem swap_mem (hleft : left ∈ nest) (hright : right ∈ nest) (hloop : loop ∈ nest) :
    Equiv.swap left right loop ∈ nest := by
  rw [Equiv.swap_apply_def]
  split_ifs <;> assumption

theorem clear_of_not_inHeader (forest : doc.Forest)
    (hcomplete : ∀ loop ∈ nest, Complete doc loop) (hlive : doc.contains x)
    (hout : ∀ loop ∈ nest, ¬ InHeader doc loop x) :
    doc.Clear (nest.flatMap (headerNodes doc)) x ∧ x ∉ headerRanges doc nest := by
  refine ⟨⟨hlive, fun node hnode hmem ↦ ?_⟩, fun hrange ↦ ?_⟩
  · obtain ⟨loop, hloop, hnode⟩ := mem_flatMap.mp hnode
    obtain ⟨header, parts⟩ := complete_iff_exists_parts.mp (hcomplete loop hloop)
    rw [headerNodes_of_parts parts] at hnode
    exact hout loop hloop
      ((parts.inHeader forest (mem_cons_of_mem _ hnode)).below forest hmem)
  · obtain ⟨loop, hloop, hrange⟩ := mem_headerRanges.mp hrange
    exact hout loop hloop ⟨.indexRange, by simp, x, hrange, forest.self_mem_subtree x⟩

namespace Rearranged

section Step

variable (rearranged : Rearranged before middle nest) (hleft : left ∈ nest) (hright : right ∈ nest)
  (hne : left ≠ right)

include rearranged hleft hright hne

theorem exchangeable : Exchangeable middle left right where
  complete_left := rearranged.complete left hleft
  complete_right := rearranged.complete right hright
  separate := (separate_of_pairwise_nested rearranged.keeps.forest rearranged.nested hleft hright
    hne).1
  single range hrange := by
    obtain ⟨loop, hloop, hrange⟩ := mem_headerRanges.mp hrange
    refine rearranged.single loop ?_ range hrange
    rcases mem_pair.mp hloop with rfl | rfl <;> assumption

omit hne in
theorem keeps_exchanged (forest : before.Forest)
    (exchanged : HeadersExchanged middle after left right) :
    KeepsPlaces before after (nest.flatMap (headerNodes before)) (headerRanges before nest) := by
  refine rearranged.keeps.trans exchanged.keeps forest
    (fun node hnode ↦ rearranged.new node (mem_headerNodes_pair hleft hright hnode))
    fun range hrange ↦ ?_
  obtain ⟨loop, hpair, hrange⟩ := mem_headerRanges.mp hrange
  have hloop : loop ∈ nest := by
    rcases mem_pair.mp hpair with rfl | rfl <;> assumption
  exact mem_headerRanges.mpr ⟨loop, hloop, (rearranged.range loop hloop).symm.trans hrange⟩

variable (hafter : exchangeHeaders middle left right = .ok after)

include hafter

theorem headerContent_exchanged (exchanged : HeadersExchanged middle after left right)
    (hloop : loop ∈ nest) :
    headerContent after loop = headerContent middle (Equiv.swap left right loop) := by
  by_cases hloopLeft : loop = left
  · rw [hloopLeft, Equiv.swap_apply_left]
    exact exchanged.content_left
  by_cases hloopRight : loop = right
  · rw [hloopRight, Equiv.swap_apply_right]
    exact exchanged.content_right
  · rw [Equiv.swap_apply_of_ne_of_ne hloopLeft hloopRight]
    exact (undisturbed_exchangeHeaders rearranged.keeps.forest rearranged.nested hleft hright hne
      hafter hloop hloopLeft hloopRight).headerContent_eq rearranged.keeps.forest
        exchanged.keeps.forest (rearranged.complete loop hloop)

theorem single_exchanged (hagain : Exchangeable after left right) (hloop : loop ∈ nest)
    {range : NodeId} (hrange : after.childOf? loop .indexRange = some range) :
    SingleStep after range := by
  have hforest := rearranged.keeps.forest
  have hmiddle := (range_exchangeHeaders hforest rearranged.nested hleft hright hne hafter
    hloop).symm.trans hrange
  rcases mem_pair_or_undisturbed hforest rearranged.nested hleft hright hne hafter hloop with
    rfl | rfl | undisturbed
  · exact hagain.single range (mem_headerRanges.mpr ⟨loop, by simp, hrange⟩)
  · exact hagain.single range (mem_headerRanges.mpr ⟨loop, by simp, hrange⟩)
  · exact (undisturbed.singleStep_iff hforest hmiddle).mpr
      (rearranged.single loop hloop range hmiddle)

theorem new_exchanged (forest : before.Forest)
    (hnew : ∀ node ∈ headerNodes after left ++ headerNodes after right,
      ¬ middle.Clear (headerNodes middle left ++ headerNodes middle right) node)
    (hx : x ∈ nest.flatMap (headerNodes after)) :
    ¬ before.Clear (nest.flatMap (headerNodes before)) x := by
  have hpair (hnode : x ∈ headerNodes after left ++ headerNodes after right) :
      ¬ before.Clear (nest.flatMap (headerNodes before)) x := fun hclear ↦
    hnew x hnode (rearranged.keeps.clear forest
      (fun node hnode ↦ rearranged.new node (mem_headerNodes_pair hleft hright hnode)) hclear)
  obtain ⟨loop, hloop, hx⟩ := mem_flatMap.mp hx
  rcases mem_pair_or_undisturbed rearranged.keeps.forest rearranged.nested hleft hright hne hafter
    hloop with rfl | rfl | undisturbed
  · exact hpair (mem_append_left _ hx)
  · exact hpair (mem_append_right _ hx)
  · rw [undisturbed.headerNodes_eq rearranged.keeps.forest] at hx
    exact rearranged.new x (mem_flatMap.mpr ⟨loop, hloop, hx⟩)

theorem cover_exchanged (exchanged : HeadersExchanged middle after left right)
    (hx : after.contains x) :
    before.Clear (nest.flatMap (headerNodes before)) x ∨
      ∃ node ∈ nest.flatMap (headerNodes after), x ∈ after.subtree node := by
  have hforest := rearranged.keeps.forest
  rcases exchanged.cover x hx with hclear | ⟨node, hnode, hmem⟩
  · refine (rearranged.cover x hclear.1).imp_right ?_
    rintro ⟨node, hnode, hmem⟩
    obtain ⟨loop, hloop, hnode⟩ := mem_flatMap.mp hnode
    rcases mem_pair_or_undisturbed hforest rearranged.nested hleft hright hne hafter hloop with
      rfl | rfl | undisturbed
    · exact absurd hmem (hclear.2 node (mem_append_left _ hnode))
    · exact absurd hmem (hclear.2 node (mem_append_right _ hnode))
    · rw [← undisturbed.headerNodes_eq hforest] at hnode
      exact ⟨node, mem_flatMap.mpr ⟨loop, hloop, hnode⟩,
        (exchanged.keeps.mem_subtree_iff hforest hclear).mpr hmem⟩
  · exact Or.inr ⟨node, mem_headerNodes_pair hleft hright hnode, hmem⟩

omit hafter

theorem exists_exchanged (forest : before.Forest) :
    ∃ after, exchangeHeaders middle left right = .ok after ∧ Rearranged before after nest ∧
      ∀ loop ∈ nest,
        headerContent after loop = headerContent middle (Equiv.swap left right loop) := by
  have hforest := rearranged.keeps.forest
  obtain ⟨after, hafter, exchanged, hagain, hnew, -⟩ :=
    (rearranged.exchangeable hleft hright hne).exists_exchanged hforest
  have hcontent : ∀ loop ∈ nest,
      headerContent after loop = headerContent middle (Equiv.swap left right loop) :=
    fun loop hloop ↦ rearranged.headerContent_exchanged hleft hright hne hafter exchanged hloop
  refine ⟨after, hafter, ⟨?_, fun loop hloop ↦ ?_, fun loop hloop range hrange ↦ ?_,
    fun loop hloop ↦ ?_, fun loop hloop ↦ ?_, ?_, fun node hnode ↦ ?_, fun x hx ↦ ?_⟩, hcontent⟩
  · exact pairwise_nested_exchangeHeaders hforest rearranged.nested hleft hright hafter
  · exact (complete_exchangeHeaders_iff hforest rearranged.nested hleft hright hne hafter
      hloop).mpr (rearranged.complete loop hloop)
  · exact rearranged.single_exchanged hleft hright hne hafter hagain hloop hrange
  · exact (range_exchangeHeaders hforest rearranged.nested hleft hright hne hafter hloop).trans
      (rearranged.range loop hloop)
  · obtain ⟨source, hsource, hsame⟩ := rearranged.source _ (swap_mem hleft hright hloop)
    exact ⟨source, hsource, (hcontent loop hloop).trans hsame⟩
  · exact rearranged.keeps_exchanged hleft hright forest exchanged
  · exact rearranged.new_exchanged hleft hright hne hafter forest hnew hnode
  · exact rearranged.cover_exchanged hleft hright hne hafter exchanged hx

end Step

theorem stays (rearranged : Rearranged before after nest) (forest : before.Forest)
    (hcomplete : ∀ loop ∈ nest, Complete before loop) (hlive : before.contains x)
    (hout : ∀ loop ∈ nest, ¬ InHeader before loop x) :
    after.label x = before.label x ∧ after.parent? x = before.parent? x ∧
      after.position? x = before.position? x := by
  have keeps := rearranged.keeps
  obtain ⟨hclear, -⟩ := clear_of_not_inHeader forest hcomplete hlive hout
  refine ⟨keeps.label x hclear, keeps.parent? x hclear, ?_⟩
  rw [position?, position?, keeps.parent? x hclear]
  cases hparent : before.parent? x with
  | none => rfl
  | some parent =>
    -- The parent is outside of the headers too, so its children keep their places.
    have hparentOut : ∀ loop ∈ nest, ¬ InHeader before loop parent := fun loop hloop hin ↦
      hout loop hloop (hin.below forest
        (forest.mem_subtree_of_mem_children (forest.mem_children hparent)))
    obtain ⟨hparentClear, hrange⟩ := clear_of_not_inHeader forest hcomplete
      (forest.contains_parent hparent) hparentOut
    obtain ⟨index, hindex⟩ := getElem?_of_mem (forest.mem_children hparent)
    have hafter := keeps.getElem?_children parent hparentClear hrange index x hindex hclear
    have hplace {doc : Document} (forest : doc.Forest)
        (h : (doc.children parent)[index]? = some x) :
        (doc.children parent).idxOf? x = some index := by
      obtain ⟨hlt, rfl⟩ := List.getElem?_eq_some_iff.mp h
      rw [idxOf?_eq_some_iff]
      refine ⟨hlt, rfl, fun earlier hearlier heq ↦ ?_⟩
      exact absurd ((forest.nodup_children parent).getElem_inj_iff.mp heq) (by omega)
    exact (hplace keeps.forest hafter).trans (hplace forest hindex).symm

end Rearranged

theorem not_inHeader_of_pairwise_nested (forest : doc.Forest)
    (hnest : nest.Pairwise (Nested doc)) (hx : x ∈ nest) (hloop : loop ∈ nest) :
    ¬ InHeader doc loop x := by
  by_cases heq : x = loop
  · rintro ⟨kind, -, part, hpart, hmem⟩
    exact forest.not_mem_subtree_of_parent? (forest.parent?_of_childOf? hpart) (heq ▸ hmem)
  · exact (separate_of_pairwise_nested forest hnest hx hloop heq).1.left_notIn

end LoopDirectives.Loop
