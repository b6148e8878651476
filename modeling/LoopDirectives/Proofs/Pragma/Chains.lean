import Mathlib.Data.List.Induction
import LoopDirectives.Pragma.Wrap
import LoopDirectives.Proofs.Document.Rooted

/-!
# Chains of pragmas

Wrapping puts new leaves after old nodes and changes labels, and nothing else. `Chained` says this
of one step and of many: steps compose (`Chained.trans`), so the pragmas below a root end up as
chains whose labels are known (`exists_chained_foldl`).
-/

namespace LoopDirectives.Pragma

open Document Text List

variable {doc before middle after : Document} {anchor parent pragma : NodeId}
  {ids : List NodeId} {columns : Nat} {marker : String}

/-- New leaves `links x` stand directly after each old node `x`, in this order, if `x` hangs
somewhere. The labels of `x` and of these leaves are `pieces x label`, where `label` is the old
label of `x`. -/
structure Chained (before after : Document) (links : NodeId → List NodeId)
    (pieces : NodeId → Label → List Label) : Prop where
  forest : after.Forest
  size_le : before.slots.size ≤ after.slots.size
  contains_old : ∀ x, before.contains x = true → after.contains x = true
  keepsParents : KeepsParents before after
  children_eq : ∀ x, before.contains x = true →
    after.children x = (before.children x).flatMap fun child ↦ child :: links child
  labels : ∀ x, before.contains x = true →
    (x :: links x).map after.label = pieces x (before.label x)
  leaf : ∀ x, before.contains x = true → ∀ link ∈ links x, before.slots.size ≤ link.index ∧
    after.contains link = true ∧ after.children link = [] ∧
    ∃ parent, before.parent? x = some parent ∧ after.parent? link = some parent
  contains : ∀ x, after.contains x = true →
    before.contains x = true ∨ ∃ old, before.contains old = true ∧ x ∈ links old

theorem Chained.refl (forest : doc.Forest) :
    Chained doc doc (fun _ ↦ []) fun _ label ↦ [label] where
  forest := forest
  size_le := Nat.le_refl _
  contains_old x hx := hx
  keepsParents := .refl doc
  children_eq x _ := by simp
  labels x _ := rfl
  leaf x _ link hlink := by cases hlink
  contains x hx := Or.inl hx

/-- The second step may put further leaves after the old nodes and after the new ones. -/
theorem Chained.trans {links others : NodeId → List NodeId}
    {pieces furtherPieces allPieces : NodeId → Label → List Label}
    (first : Chained before middle links pieces)
    (second : Chained middle after others furtherPieces)
    (hpieces : ∀ x, before.contains x → (x :: links x).flatMap
      (fun piece ↦ furtherPieces piece (middle.label piece)) = allPieces x (before.label x)) :
    Chained before after (fun x ↦ others x ++ (links x).flatMap fun link ↦ link :: others link)
      allPieces where
  forest := second.forest
  size_le := Nat.le_trans first.size_le second.size_le
  contains_old x hx := second.contains_old x (first.contains_old x hx)
  keepsParents x hx :=
    (second.keepsParents x (Nat.lt_of_lt_of_le hx first.size_le)).trans (first.keepsParents x hx)
  children_eq x hx := by
    rw [second.children_eq x (first.contains_old x hx), first.children_eq x hx,
      flatMap_assoc]
    rfl
  labels x hx := by
    have hall : x :: (others x ++ (links x).flatMap fun link ↦ link :: others link) =
        (x :: links x).flatMap fun piece ↦ piece :: others piece := rfl
    rw [hall, map_flatMap, ← hpieces x hx]
    refine flatMap_congr fun piece hpiece ↦ second.labels piece ?_
    rcases mem_cons.mp hpiece with rfl | hlink
    · exact first.contains_old _ hx
    · exact (first.leaf x hx piece hlink).2.1
  leaf x hx link hlink := by
    rcases mem_append.mp hlink with hlink | hlink
    · obtain ⟨hnew, hlive, hleaf, parent, hparent, hplace⟩ :=
        second.leaf x (first.contains_old x hx) link hlink
      rw [first.keepsParents x (index_lt_size hx)] at hparent
      exact ⟨Nat.le_trans first.size_le hnew, hlive, hleaf, parent, hparent, hplace⟩
    · obtain ⟨piece, hpiece, hlink⟩ := mem_flatMap.mp hlink
      obtain ⟨hpieceNew, hpieceLive, hpieceLeaf, parent, hparent, hpiecePlace⟩ :=
        first.leaf x hx piece hpiece
      rcases mem_cons.mp hlink with rfl | hlink
      · refine ⟨hpieceNew, second.contains_old _ hpieceLive, ?_, parent, hparent,
          (second.keepsParents _ (index_lt_size hpieceLive)).trans hpiecePlace⟩
        rw [second.children_eq _ hpieceLive, hpieceLeaf]
        rfl
      · obtain ⟨hnew, hlive, hleaf, upper, hupper, hplace⟩ :=
          second.leaf piece hpieceLive link hlink
        rw [hpiecePlace] at hupper
        exact ⟨Nat.le_trans first.size_le hnew, hlive, hleaf, parent, hparent,
          hplace.trans hupper.symm⟩
  contains x hx := by
    have hsecond {old : NodeId} (hold : before.contains old) (hx : x ∈ others old) :
        ∃ old, before.contains old ∧
          x ∈ others old ++ (links old).flatMap fun link ↦ link :: others link :=
      ⟨old, hold, mem_append_left _ hx⟩
    have hfirst {old piece : NodeId} (hold : before.contains old)
        (hpiece : piece ∈ links old) (hx : x ∈ piece :: others piece) :
        ∃ old, before.contains old ∧
          x ∈ others old ++ (links old).flatMap fun link ↦ link :: others link :=
      ⟨old, hold, mem_append_right _ (mem_flatMap.mpr ⟨piece, hpiece, hx⟩)⟩
    rcases second.contains x hx with hmiddle | ⟨piece, hpiece, hlink⟩
    · exact (first.contains x hmiddle).imp_right fun ⟨old, hold, hlink⟩ ↦
        hfirst hold hlink (mem_cons_self ..)
    · rcases first.contains piece hpiece with hold | ⟨old, hold, holdLink⟩
      · exact Or.inr (hsecond hold hlink)
      · exact Or.inr (hfirst hold holdLink (mem_cons_of_mem _ hlink))

theorem chained_relabel (forest : doc.Forest) (id : NodeId) (change : Label → Label) :
    Chained doc (doc.relabel id change) (fun _ ↦ [])
      fun x label ↦ [if x = id then change label else label] where
  forest := forest.relabel id change
  size_le := Nat.le_of_eq (size_relabel doc id change).symm
  contains_old x hx := by rwa [contains_relabel]
  keepsParents := (KeepsParents.refl doc).relabel id change
  children_eq x _ := by simp
  labels x hx := by
    by_cases heq : x = id
    · subst heq
      simp [label_relabel_self _ _ _ hx]
    · simp [heq, label_relabel_of_ne]
  leaf x _ link hlink := by cases hlink
  contains x hx := by
    rw [contains_relabel] at hx
    exact Or.inl hx

/-! ### New nodes after an anchor -/

theorem keepsParents_create (forest : doc.Forest) (label : Label) :
    KeepsParents doc (doc.create label).1 := fun _ hx ↦
  ((forest.planted_create label).readings_old hx).2.2.1

theorem moved_insertAfter_create (forest : doc.Forest)
    (hanchor : doc.parent? anchor = some parent) (label : Label) :
    ∃ position, ((doc.create label).1.children parent |>.filter
        (· ≠ doc.fresh))[position]? = some anchor ∧
      Moved (doc.create label).1
        ((doc.create label).1.insertAfter anchor doc.fresh) doc.fresh parent
        (position + 1) := by
  have hcreated := forest.planted_create label
  have hforest := forest.create label
  have hkeeps := keepsParents_create forest label
  have hlive := contains_of_parent? hanchor
  have hparent := (hkeeps anchor (index_lt_size hlive)).trans hanchor
  exact hforest.moved_insertBeside hparent (ne_fresh hlive)
    (hkeeps.canAttach forest hforest (hcreated.contains_root (mem_singleton_self _))
      (hforest.contains_parent hparent) (Nat.le_refl _)
      (index_lt_size (forest.contains_parent hanchor)))

theorem flatMap_of_notMem (extra : List NodeId) (h : anchor ∉ ids) :
    ids.flatMap (fun x ↦ x :: if x = anchor then extra else []) = ids := by
  refine (flatMap_congr fun x hx ↦ ?_).trans (flatMap_singleton' ids)
  have hne : x ≠ anchor := fun heq ↦ h (heq ▸ hx)
  rw [if_neg hne]

theorem flatMap_of_getElem? (extra : List NodeId) (hnodup : ids.Nodup) {position : Nat}
    (h : ids[position]? = some anchor) :
    ids.flatMap (fun x ↦ x :: if x = anchor then extra else []) =
      ids.take (position + 1) ++ (extra ++ ids.drop (position + 1)) := by
  induction ids generalizing position with
  | nil => simp at h
  | cons first rest ih =>
    obtain ⟨hfirst, hrest⟩ := nodup_cons.mp hnodup
    cases position with
    | zero =>
      cases h
      simp [flatMap_of_notMem extra hfirst]
    | succ position =>
      have hne : first ≠ anchor := fun heq ↦ hfirst (heq ▸ mem_of_getElem? h)
      simp [hne, ih hrest h]

/-- A new node right after another one makes a chain of the two. -/
theorem chained_insertAfter_create (forest : doc.Forest)
    (hanchor : doc.parent? anchor = some parent) (label : Label) :
    Chained doc ((doc.create label).1.insertAfter anchor doc.fresh)
      (fun x ↦ if x = anchor then [doc.fresh] else [])
      (fun x old ↦ if x = anchor then [old, label] else [old]) ∧
    ((doc.create label).1.insertAfter anchor doc.fresh).parent? doc.fresh =
      some parent := by
  have hcreated := forest.planted_create label
  have hforest := forest.create label
  have hkeeps := keepsParents_create forest label
  obtain ⟨position, hposition, hmoved⟩ := moved_insertAfter_create forest hanchor label
  have hold {x : NodeId} (hx : doc.contains x) :=
    hcreated.readings_old (index_lt_size hx)
  have hkept {x : NodeId} (hx : doc.contains x) :
      ((doc.create label).1.children x).filter (· ≠ doc.fresh) = doc.children x := by
    rw [(hold hx).2.2.2]
    exact filter_eq_self.mpr fun child hchild ↦
      decide_eq_true (ne_fresh (forest.contains_child hchild))
  have hparent := forest.contains_parent hanchor
  refine ⟨⟨hmoved.forest hforest, ?_, fun x hx ↦ ?_, hkeeps.moved hmoved (Nat.le_refl _),
    fun x hx ↦ ?_, fun x hx ↦ ?_, fun x hx link hlink ↦ ?_, fun x hx ↦ ?_⟩, hmoved.parent?_self⟩
  · rw [hmoved.size_eq]
    exact hcreated.size_le
  · rw [hmoved.contains_eq, (hold hx).1]
    exact hx
  · by_cases heq : x = parent
    · subst heq
      rw [hkept hx] at hposition
      rw [hmoved.children_parent, hkept hx]
      exact (flatMap_of_getElem? [doc.fresh] (forest.nodup_children x) hposition).symm
    · rw [hmoved.children_of_ne x heq, hkept hx]
      refine (flatMap_of_notMem _ fun hmem ↦ heq ?_).symm
      exact Option.some.inj ((forest.parent?_of_mem hmem).symm.trans hanchor)
  · have hfreshLabel : (doc.create label).1.label doc.fresh = label := by
      simp [create, Document.label, node?_push]
    split
    · simp [hmoved.label_eq, (hold hx).2.1, hfreshLabel]
    · simp [hmoved.label_eq, (hold hx).2.1]
  · split at hlink
    · next heq =>
      rw [mem_singleton.mp hlink, heq, hmoved.parent?_self, hanchor, hmoved.contains_eq,
        hmoved.children_of_ne _ (ne_fresh hparent).symm]
      simp [create, fresh, Document.contains, Document.children, node?_push]
    · cases hlink
  · rw [hmoved.contains_eq, Document.contains, create, node?_push] at hx
    split at hx
    · next heq => exact Or.inr ⟨anchor, contains_of_parent? hanchor, by simp [heq]⟩
    · exact Or.inl hx

/-! ### Wrapping -/

def linkLabels (sentinel : String) (line? : Option String) : List String → List Label
  | [] => []
  | chunk :: rest =>
    continuation sentinel line? chunk rest.isEmpty :: linkLabels sentinel line? rest

theorem exists_chained_insertLinks (forest : doc.Forest)
    (hanchor : doc.parent? anchor = some parent) (sentinel : String) (line? : Option String)
    (chunks : List String) :
    ∃ links, Chained doc (insertLinks sentinel line? doc anchor chunks) links
      fun x label ↦ if x = anchor then label :: linkLabels sentinel line? chunks else [label] := by
  induction chunks generalizing doc anchor with
  | nil => exact ⟨_, by simpa [insertLinks, linkLabels] using Chained.refl forest⟩
  | cons chunk rest ih =>
    obtain ⟨hfirst, hfresh⟩ := chained_insertAfter_create forest hanchor
      (continuation sentinel line? chunk rest.isEmpty)
    obtain ⟨links, hrest⟩ := ih hfirst.forest hfresh
    refine ⟨_, hfirst.trans hrest fun x hx ↦ ?_⟩
    have hlabels := hfirst.labels x hx
    have hne := ne_fresh hx
    by_cases heq : x = anchor
    · simp only [heq, if_true, map_cons, List.cons.injEq] at hlabels hne ⊢
      simp [hne, hlabels, linkLabels]
    · simp only [heq, if_false, map_cons, List.cons.injEq] at hlabels ⊢
      simp [hne, hlabels]

/-- Whether a pragma with the text is wrapped: it is for another tool and has several chunks. -/
def isOverlong (columns : Nat) (marker text : String) : Bool :=
  sentinel text != "" && !sameLetters (sentinel text) marker &&
    decide (2 ≤ (chunks columns (sentinel text) text).length)

/-- The labels of the chain that a pragma with the label is wrapped into. -/
def chain (columns : Nat) (label : Label) : List Label :=
  (label.setText ((chunks columns (sentinel label.text) label.text).headD "")).setAttribute
      "is_continued" "true" ::
    linkLabels (sentinel label.text) (label.attribute? "lineno")
      (chunks columns (sentinel label.text) label.text).tail

theorem wrapAt?_of_not_isOverlong (h : isOverlong columns marker (doc.text pragma) = false) :
    wrapAt? columns marker doc pragma = none := by
  unfold wrapAt?
  dsimp only
  split
  · rfl
  · next hsentinel =>
    split
    · next first second rest hchunks => simp_all [isOverlong]
    · rfl

theorem relabel_relabel (doc : Document) (id : NodeId) (first second : Label → Label) :
    (doc.relabel id first).relabel id second = doc.relabel id (second ∘ first) := by
  refine ext_node? (by simp) fun x ↦ ?_
  simp only [relabel, node?_modify]
  split <;> simp [Function.comp_def]

theorem exists_chained_of_isOverlong (forest : doc.Forest)
    (hpragma : doc.parent? pragma = some parent)
    (h : isOverlong columns marker (doc.text pragma)) :
    ∃ wrapped links, wrapAt? columns marker doc pragma = some wrapped ∧
      Chained doc wrapped links
        fun x label ↦ if x = pragma then chain columns label else [label] := by
  simp only [isOverlong, Bool.and_eq_true, bne_iff_ne, Bool.not_eq_true', decide_eq_true_eq] at h
  obtain ⟨⟨hsentinel, hmarker⟩, hlength⟩ := h
  unfold wrapAt?
  dsimp only
  rw [if_neg (by simp [hsentinel, hmarker])]
  cases hchunks : chunks columns (sentinel (doc.text pragma)) (doc.text pragma) with
  | nil => simp [hchunks] at hlength
  | cons first rest =>
    cases rest with
    | nil => simp [hchunks] at hlength
    | cons second rest =>
      have hshort := chained_relabel forest pragma
        ((·.setAttribute "is_continued" "true") ∘ (·.setText first))
      rw [← relabel_relabel] at hshort
      have hparent := (hshort.keepsParents pragma
        (index_lt_size (contains_of_parent? hpragma))).trans hpragma
      obtain ⟨links, hlinks⟩ := exists_chained_insertLinks hshort.forest hparent
        (sentinel (doc.text pragma)) (doc.attribute? pragma "lineno") (second :: rest)
      refine ⟨_, _, rfl, hshort.trans hlinks fun x hx ↦ ?_⟩
      have hlabel := hshort.labels x hx
      simp only [map_cons, map_nil, List.cons.injEq, and_true] at hlabel
      by_cases heq : x = pragma
      · subst heq
        rw [text] at hchunks
        simp [hlabel, chain, hchunks, Document.text, attribute?]
      · simp [heq, hlabel]

/-- Wrapping pragmas one after the other makes chains of those that are overlong. A pragma that is
still to come is as it was, since each step changes but one old label. -/
theorem exists_chained_foldl (forest : doc.Forest) (columns : Nat) (marker : String)
    {pragmas : List NodeId} (hnodup : pragmas.Nodup)
    (hpragmas : ∀ pragma ∈ pragmas, ∃ parent, doc.parent? pragma = some parent) :
    ∃ links, Chained doc (pragmas.foldl (wrapNext columns marker) (doc, 0)).1 links
        (fun x label ↦
          if x ∈ pragmas.filter (isOverlong columns marker <| doc.text ·) then
            chain columns label
          else [label]) ∧
      (pragmas.foldl (wrapNext columns marker) (doc, 0)).2 =
        (pragmas.filter (isOverlong columns marker <| doc.text ·)).length := by
  induction pragmas using List.reverseRecOn with
  | nil => exact ⟨_, by simpa using Chained.refl forest, rfl⟩
  | append_singleton earlier pragma ih =>
    obtain ⟨hearlier, -, hdisjoint⟩ := nodup_append.mp hnodup
    have hnot : pragma ∉ earlier := fun hmem ↦ hdisjoint _ hmem _ (mem_singleton_self _) rfl
    obtain ⟨parent, hparent⟩ := hpragmas pragma (by simp)
    have hlive := contains_of_parent? hparent
    obtain ⟨links, chained, hcount⟩ := ih hearlier fun other hother ↦
      hpragmas other (mem_append_left _ hother)
    rw [foldl_append, foldl_cons, foldl_nil, filter_append]
    set progress := earlier.foldl (wrapNext columns marker) (doc, 0)
    have hkept := chained.labels pragma hlive
    rw [if_neg fun hmem ↦ hnot (mem_of_mem_filter hmem), map_cons, List.cons.injEq,
      map_eq_nil_iff] at hkept
    have htext : progress.1.text pragma = doc.text pragma := by rw [text, hkept.1, ← text]
    cases hlong : isOverlong columns marker (doc.text pragma) with
    | false =>
      rw [wrapNext, wrapAt?_of_not_isOverlong (htext ▸ hlong)]
      exact ⟨links, by simpa [hlong] using chained, by simpa [hlong] using hcount⟩
    | true =>
      obtain ⟨wrapped, others, hwrapped, hstep⟩ := exists_chained_of_isOverlong
        chained.forest ((chained.keepsParents pragma (index_lt_size hlive)).trans
          hparent) (htext ▸ hlong)
      rw [wrapNext, hwrapped]
      refine ⟨_, chained.trans hstep fun x hx ↦ ?_, by simpa [hlong] using hcount⟩
      by_cases heq : x = pragma
      · simp [heq, hkept, hlong]
      · -- Neither an old node nor a new leaf after it is the pragma.
        have hother : ∀ piece ∈ x :: links x, piece ≠ pragma := by
          rintro piece hpiece rfl
          rcases mem_cons.mp hpiece with rfl | hlink
          · exact heq rfl
          · exact absurd (index_lt_size hlive) (Nat.not_lt.mpr (chained.leaf x hx _ hlink).1)
        have hsame : (x :: links x).flatMap (fun piece ↦
            if piece = pragma then chain columns (progress.1.label piece)
            else [progress.1.label piece]) = (x :: links x).map progress.1.label := by
          rw [flatMap_congr fun piece hpiece ↦ if_neg (hother piece hpiece),
            map_eq_flatMap]
        rw [hsame, chained.labels x hx]
        simp [heq, hlong]

/-! ### What a chain says -/

section Links

variable (sentinel : String) (line? : Option String)

theorem text_linkLabels (chunks : List String) :
    (linkLabels sentinel line? chunks).map Label.text = chunks.map (sentinel ++ " " ++ ·) := by
  induction chunks with
  | nil => rfl
  | cons chunk rest ih => rw [linkLabels, map_cons, ih, map_cons]; rfl

theorem attributes_of_mem_linkLabels {chunks : List String} {label : Label}
    (h : label ∈ linkLabels sentinel line? chunks) :
    label.kind = .pragma ∧ label.attribute? "lineno" = line? := by
  induction chunks with
  | nil => cases h
  | cons chunk rest ih =>
    rcases mem_cons.mp h with rfl | h
    · refine ⟨Kind.ofTag_tag .pragma, ?_⟩
      cases line? <;> cases rest <;> rfl
    · exact ih h

theorem isContinued_linkLabels (chunks : List String) :
    (∀ label ∈ (linkLabels sentinel line? chunks).dropLast,
      label.attribute? "is_continued" = some "true") ∧
    ∀ label ∈ (linkLabels sentinel line? chunks).getLast?,
      label.attribute? "is_continued" = none := by
  induction chunks with
  | nil => simp [linkLabels]
  | cons chunk rest ih =>
    cases rest with
    | nil => cases line? <;> simp [linkLabels, continuation, Label.attribute?]
    | cons second rest =>
      rw [linkLabels, linkLabels] at *
      rw [dropLast_cons_cons, getLast?_cons_cons]
      refine ⟨forall_mem_cons.mpr ⟨?_, ih.1⟩, ih.2⟩
      cases line? <;> rfl

end Links

end LoopDirectives.Pragma
