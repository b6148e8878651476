import LoopDirectives.Proofs.Pragma.Fitting
import LoopDirectives.Proofs.Pragma.Wrap

/-!
# What a chain of pragmas says

The links of a chain stand directly after its first piece, repeat its first word and its line, and
together say what the pragma has said (`Continues`). Wrapping makes such a chain of every overlong
pragma below the root and changes nothing else (`wrapAll_continues`).
-/

namespace LoopDirectives.Pragma

open Document Text List

variable {doc before after : Document} {pragma : NodeId} {columns : Nat}

/-- The links continue the pragma: they are new leaves beside it, which repeat its first word and
its line, and together say what the pragma has said. Every piece but the last is marked. -/
structure Continues (columns : Nat) (before after : Document) (pragma : NodeId)
    (links : List NodeId) : Prop where
  leaf : ∀ link ∈ links, before.contains link = false ∧ after.isKind link .pragma = true ∧
    after.parent? link = before.parent? pragma ∧ after.children link = []
  texts : ∃ rest ≠ [],
    links.map after.text = rest.map (sentinel (before.text pragma) ++ " " ++ ·) ∧
    solid (after.text pragma ++ String.join rest).toList =
      solid (uncommented (before.text pragma)).toList
  label : after.label pragma =
    ((before.label pragma).setText (after.text pragma)).setAttribute "is_continued" "true"
  continued : ∀ piece ∈ (pragma :: links).dropLast,
    after.attribute? piece "is_continued" = some "true"
  ends : ∀ link ∈ links.getLast?, after.attribute? link "is_continued" = none
  line : ∀ link ∈ links, after.attribute? link "lineno" = before.attribute? pragma "lineno"
  fits : (∀ c ∈ (before.text pragma).toList, c.toNat < 128) →
    (sentinel (before.text pragma)).utf8ByteSize + 6 ≤ columns →
    ∀ piece ∈ pragma :: links, (after.text piece).utf8ByteSize ≤ columns - 4

theorem utf8ByteSize_le_budget {sentinel text chunk : String}
    (hascii : ∀ c ∈ text.toList, c.toNat < 128) (h : chunk ∈ chunks columns sentinel text) :
    chunk.utf8ByteSize ≤ budget columns sentinel := by
  obtain ⟨characters, hmem, rfl⟩ := mem_map.mp h
  rw [utf8ByteSize_ofList]
  rcases fits_of_mem_chunksOf (trimBoth_trimBoth _) hmem with hfits | hone
  · exact hfits
  · obtain ⟨c, rfl⟩ := length_eq_one_iff.mp hone
    have hc := hascii c ((sublist_of_mem_chunks h).subset (by simp))
    have hsize : c.utf8Size = 1 := Char.utf8Size_eq_one_iff.mpr (Nat.le_of_lt_succ hc)
    exact (show width [c] = 1 from hsize) ▸ Nat.le_max_left ..

/-- Assumes: a pragma that is too long. The pieces of its chain continue each other. -/
theorem Chained.continues {links : NodeId → List NodeId} {pieces : NodeId → Label → List Label}
    (chained : Chained before after links pieces) (hlive : before.contains pragma)
    {marker : String} (hlong : isOverlong columns marker (before.text pragma))
    (hpieces : pieces pragma (before.label pragma) = chain columns (before.label pragma)) :
    Continues columns before after pragma (links pragma) := by
  have hlabels := chained.labels pragma hlive
  rw [hpieces, chain, map_cons, List.cons.injEq, ← text, ← attribute?] at hlabels
  simp only [isOverlong, Bool.and_eq_true, decide_eq_true_eq] at hlong
  have hfit {chunk : String} := @utf8ByteSize_le_budget columns (sentinel (before.text pragma))
    (before.text pragma) chunk
  have hsolid := solid_join_chunks columns (sentinel (before.text pragma)) (before.text pragma)
  cases hchunks : chunks columns (sentinel (before.text pragma)) (before.text pragma) with
  | nil => simp [hchunks] at hlong
  | cons first rest =>
    rw [hchunks] at hlabels hlong hsolid hfit
    rw [headD_cons, tail_cons] at hlabels
    obtain ⟨hfirst, hrest⟩ := hlabels
    have hlabel {link : NodeId} (hlink : link ∈ links pragma) :=
      attributes_of_mem_linkLabels _ _ (hrest ▸ mem_map_of_mem hlink)
    have hmarks := isContinued_linkLabels (sentinel (before.text pragma))
      (before.attribute? pragma "lineno") rest
    have htext : after.text pragma = first := by rw [text, hfirst]; rfl
    have htexts : (links pragma).map after.text =
        rest.map (sentinel (before.text pragma) ++ " " ++ ·) := by
      rw [← text_linkLabels _ (before.attribute? pragma "lineno")]
      exact hrest ▸ map_map.symm
    have hnonempty : rest ≠ [] := by
      rintro rfl
      simp at hlong
    refine ⟨fun link hlink ↦ ?_, ⟨rest, hnonempty, htexts, ?_⟩, ?_, fun piece hpiece ↦ ?_,
      fun link hlink ↦ ?_, fun link hlink ↦ (hlabel hlink).2, fun hascii hcolumns ↦ ?_⟩
    · obtain ⟨hnew, -, hleaf, parent, hparent, hplace⟩ := chained.leaf pragma hlive link hlink
      exact ⟨contains_eq_false_of_size_le hnew, beq_iff_eq.mpr (hlabel hlink).1,
        hplace.trans hparent.symm, hleaf⟩
    · rw [htext, ← String.join_cons]
      exact hsolid
    · rw [htext]
      exact hfirst
    · have hlinks : links pragma ≠ [] := fun hnil ↦ hnonempty (by simpa [hnil] using htexts)
      rw [dropLast_cons_of_ne_nil hlinks] at hpiece
      rcases mem_cons.mp hpiece with rfl | hlink
      · rw [attribute?, hfirst, Label.attribute?_setAttribute_self]
      · refine hmarks.1 _ ?_
        rw [← hrest, ← map_dropLast]
        exact mem_map_of_mem hlink
    · refine hmarks.2 _ ?_
      rw [← hrest, getLast?_map]
      exact Option.mem_map_of_mem _ hlink
    · have hbudget : budget columns (sentinel (before.text pragma)) +
          (sentinel (before.text pragma)).utf8ByteSize + 5 ≤ columns := by
        rw [budget, overhead]
        omega
      rintro piece (_ | ⟨_, hlink⟩)
      · have hsize := hfit hascii (mem_cons_self ..)
        rw [htext]
        omega
      · have hmem := mem_map_of_mem (f := after.text) hlink
        rw [htexts] at hmem
        obtain ⟨chunk, hchunk, heq⟩ := mem_map.mp hmem
        have hsize := hfit hascii (mem_cons_of_mem _ hchunk)
        rw [← heq, String.utf8ByteSize_append, String.utf8ByteSize_append]
        have hspace : " ".utf8ByteSize = 1 := rfl
        omega

/-- Wrapping makes a chain of every overlong pragma below the root and leaves every other node as it
is: an old node keeps its parent and its children, each of which is directly followed by the links
that continue it. The count is that of the chains. -/
theorem wrapAll_continues (forest : doc.Forest) (columns : Nat) (marker : String)
    (root : NodeId) :
    let after := (wrapAll columns marker doc root).1
    ∃ links : NodeId → List NodeId, after.Forest ∧
      (∀ x, doc.contains x = true → after.contains x = true ∧
        after.parent? x = doc.parent? x ∧
        after.children x = (doc.children x).flatMap fun child ↦ child :: links child) ∧
      (∀ x, doc.contains x = true → x ∉ overlong columns marker doc root →
        after.label x = doc.label x ∧ links x = []) ∧
      (∀ x, after.contains x = true → doc.contains x = true ∨
        ∃ pragma ∈ overlong columns marker doc root, x ∈ links pragma) ∧
      (∀ pragma ∈ overlong columns marker doc root,
        Continues columns doc after pragma (links pragma)) ∧
      (wrapAll columns marker doc root).2 =
        (overlong columns marker doc root).length := by
  intro after
  obtain ⟨links, chained, hcount⟩ := exists_chained_wrapAll forest columns marker root
  have hkept {x : NodeId} (hx : doc.contains x = true)
      (hnot : x ∉ overlong columns marker doc root) :
      after.label x = doc.label x ∧ links x = [] := by
    have hlabels := chained.labels x hx
    rwa [if_neg hnot, List.map_cons, List.cons.injEq, List.map_eq_nil_iff] at hlabels
  refine ⟨links, chained.forest, fun x hx ↦ ⟨chained.contains_old x hx,
    chained.keepsParents x (index_lt_size hx), chained.children_eq x hx⟩,
    fun x hx hnot ↦ hkept hx hnot, fun x hx ↦ ?_, fun pragma hpragma ↦ ?_, hcount⟩
  · refine (chained.contains x hx).imp_right fun ⟨old, hold, hlink⟩ ↦ ⟨old, ?_, hlink⟩
    by_contra hnot
    rw [(hkept hold hnot).2] at hlink
    cases hlink
  · obtain ⟨hlive, hlong⟩ := contains_of_mem_overlong forest hpragma
    exact chained.continues hlive hlong (if_pos hpragma)

def bodyOfPragma (text : String) : Document :=
  (Document.ofElement (.node { tag := "body" } [.node
    { tag := "FpragmaStatement", attributes := [("lineno", "2")], text? := some text } []])).1

theorem forest_bodyOfPragma (text : String) : (bodyOfPragma text).Forest :=
  Document.forest_ofElement _

theorem wrapAll_continues_greekLetters :
    (bodyOfPragma "acc alpha, beta gamma").Forest ∧
      overlong 18 "lsm" (bodyOfPragma "acc alpha, beta gamma") ⟨0⟩ = [⟨1⟩] ∧
      ∃ links, Continues 18 (bodyOfPragma "acc alpha, beta gamma")
        (wrapAll 18 "lsm" (bodyOfPragma "acc alpha, beta gamma") ⟨0⟩).1 ⟨1⟩ links := by
  have hlong : overlong 18 "lsm" (bodyOfPragma "acc alpha, beta gamma") ⟨0⟩ = [⟨1⟩] := by
    decide +kernel
  obtain ⟨links, -, -, -, -, hcontinues, -⟩ :=
    wrapAll_continues (forest_bodyOfPragma "acc alpha, beta gamma") 18 "lsm" ⟨0⟩
  exact ⟨forest_bodyOfPragma _, hlong, links ⟨1⟩, hcontinues _ (hlong ▸ List.mem_cons_self ..)⟩

end LoopDirectives.Pragma
