import LoopDirectives.Proofs.Directive.Reading
import LoopDirectives.Proofs.Pragma.Reserved
import LoopDirectives.Proofs.Pragma.Rewrapping
import LoopDirectives.Proofs.Transformation.Steps

/-!
# Where reserved pragmas are recognised

A pragma is reserved if its first word, up to any white space, is the marker. Reading directives and
cleaning up around a loop go by that word. Wrapping goes by the text up to its first space, so it
splits a reserved pragma whose marker is not directly followed by one.
-/

namespace LoopDirectives.Pragma

open Document Text List

variable {doc : Document} {marker : String} {pragma root : NodeId}

theorem sameLetters_of_isReserved {text : String} (h : isReserved marker text) :
    sameLetters (String.ofList (firstWord text.toList)) marker := by
  unfold isReserved at h
  split at h
  · cases h
  · exact h

theorem find?_ne_none_of_isReserved (hmarker : Directive.IsMarker marker)
    (hkind : doc.isKind pragma .pragma)
    (hreserved : isReserved marker (doc.text pragma)) :
    Directive.find? marker doc pragma ≠ .ok none := by
  have hword := sameLetters_of_isReserved hreserved
  have hbang : '!' ∉ firstWord (doc.text pragma).toList := fun hmem ↦
    (hmarker.chars_of_sameLetters hword '!' hmem).2 rfl
  have hparse : Directive.parse marker (doc.text pragma) ≠ .ok none := by
    rw [ne_eq, Directive.parse_eq_ok_none_iff, firstWord_dropComment hbang, hword]
    exact Bool.noConfusion
  rw [Directive.find?_of_isKind hkind]
  cases hfound : Directive.parse marker (doc.text pragma) with
  | error cause => exact fun h ↦ by cases h
  | ok found? =>
    cases found? with
    | none => exact absurd hfound hparse
    | some found => exact fun h ↦ by cases h

theorem cleanAround_keeps (forest : doc.Forest) (hlive : doc.contains pragma)
    (hclear : ∀ upper, pragma ∈ doc.subtree upper → doc.isKind upper .pragma →
      isReserved marker (doc.text upper))
    (loop : NodeId) (before after : List String) :
    (cleanAround doc marker loop before after).contains pragma ∧
      (cleanAround doc marker loop before after).label pragma = doc.label pragma := by
  obtain ⟨doomed, hclean, hdoomed⟩ := cleanAround_eq_deleteAll forest marker loop before after
  have hpruned := forest.pruned_deleteAll doomed
  rw [hclean]
  have hkept : (doc.deleteAll doomed).contains pragma := by
    refine (hpruned.contains_iff pragma).mpr ⟨hlive, fun upper hupper hmem ↦ ?_⟩
    have hforeign : doc.isKind upper .pragma ∧
        isReserved marker (doc.text upper) = false :=
      (hdoomed upper hupper).elim (fun h ↦ (mem_of_mem_foreignRun h.1).2)
        fun h ↦ (mem_of_mem_foreignRun h.1).2
    exact Bool.false_ne_true (hforeign.2.symm.trans (hclear upper hmem hforeign.1))
  exact ⟨hkept, hpruned.label_eq pragma hkept⟩

theorem mem_overlong_iff (forest : doc.Forest) (hkind : doc.isKind pragma .pragma)
    {columns : Nat} :
    pragma ∈ overlong columns marker doc root ↔ doc.Above root pragma ∧
      isOverlong columns marker (doc.text pragma) := by
  rw [overlong, descendantsOf, mem_filter, mem_filter]
  simp only [hkind, and_true]
  exact and_congr_left fun _ ↦
    ⟨forest.mem_descendants_iff.mp, forest.mem_descendants_iff.mpr⟩

theorem label_wrap_eq_iff (forest : doc.Forest) (hlive : doc.contains pragma)
    (columns : Nat) (marker : String) (root : NodeId) :
    (wrap columns marker doc root).label pragma = doc.label pragma ↔
      pragma ∉ overlong columns marker doc root := by
  obtain ⟨links, chained, -⟩ := exists_chained_wrapAll forest columns marker root
  have hlabels := chained.labels pragma hlive
  rw [← wrap, map_cons] at hlabels
  constructor
  · intro hsame hmem
    obtain ⟨-, hlong⟩ := contains_of_mem_overlong forest hmem
    have hcount := hlong
    rw [isOverlong, Bool.and_eq_true, decide_eq_true_eq] at hcount
    obtain ⟨first, rest, hchunks⟩ := exists_cons_of_length_pos (Nat.zero_lt_of_lt hcount.2)
    rw [if_pos hmem, chain, hsame, ← text, hchunks] at hlabels
    -- The first chunk would be the whole text, but then the text fits.
    have htext : doc.text pragma = first := congrArg Label.text (List.cons.inj hlabels).1
    have hfits := fits_of_mem_chunks (hchunks ▸ mem_cons_self ..) (by rw [htext])
    rw [← htext] at hfits
    exact Bool.false_ne_true
      ((isOverlong_eq_false_iff.mpr (Or.inr (Or.inr hfits))).symm.trans hlong)
  · intro hmem
    rw [if_neg hmem] at hlabels
    exact (List.cons.inj hlabels).1

theorem length_le_width (text : List Char) : text.length ≤ width text := by
  induction text with
  | nil => exact Nat.zero_le _
  | cons c rest ih =>
    have hsize := c.utf8Size_pos
    rw [length_cons, width]
    omega

/-- A reserved pragma is no foreign one to the reader, and cleaning up keeps it unless a foreign
pragma holds it. Wrapping leaves it as it is on lines of every width exactly if its text begins with
the marker and a space, or with a space, or is one character. -/
theorem reserved_recognised (hmarker : Directive.IsMarker marker) (forest : doc.Forest)
    (hlive : doc.contains pragma = true) (hkind : doc.isKind pragma .pragma = true)
    (hreserved : isReserved marker (doc.text pragma) = true) :
    Directive.find? marker doc pragma ≠ .ok none ∧
    ((∀ upper, doc.Above upper pragma → doc.isKind upper .pragma = true →
        isReserved marker (doc.text upper) = true) →
      ∀ loop before after,
        (cleanAround doc marker loop before after).contains pragma = true ∧
        (cleanAround doc marker loop before after).label pragma = doc.label pragma) ∧
    ∀ root, doc.Above root pragma →
      ((∀ columns,
          (wrap columns marker doc root).label pragma = doc.label pragma) ↔
        sentinel (doc.text pragma) = "" ∨
        sameLetters (sentinel (doc.text pragma)) marker = true ∨
        (content (doc.text pragma)).length ≤ 1) := by
  refine ⟨find?_ne_none_of_isReserved hmarker hkind hreserved, fun hclear loop before after ↦ ?_,
    fun root habove ↦ ?_⟩
  · refine cleanAround_keeps forest hlive (fun upper hupper hpragma ↦ ?_) loop before after
    rcases (forest.mem_subtree_iff upper pragma).mp hupper with rfl | hupper
    · exact hreserved
    · exact hclear upper hupper hpragma
  · have hunchanged (columns : Nat) :
        (wrap columns marker doc root).label pragma = doc.label pragma ↔
          isOverlong columns marker (doc.text pragma) = false := by
      rw [label_wrap_eq_iff forest hlive, mem_overlong_iff forest hkind, Bool.eq_false_iff]
      exact not_congr (and_iff_right habove)
    simp only [hunchanged, isOverlong_eq_false_iff]
    refine ⟨fun h ↦ (h 0).imp_right (Or.imp_right fun hfits ↦ ?_), fun h columns ↦
      h.imp_right (Or.imp_right Or.inr)⟩
    -- Without columns there is room for one byte.
    have hroom : budget 0 (sentinel (doc.text pragma)) = 1 := by simp [budget]
    exact hfits.elim (fun hwidth ↦ (length_le_width _).trans (hwidth.trans hroom.le)) id

/-- A tab after the marker makes no difference but for wrapping. -/
theorem reserved_recognised_tab :
    isReserved "lsm" "lsm\tparallel loop" = true ∧
      Directive.find? "lsm" (bodyOfPragma "lsm\tparallel loop") ⟨1⟩ ≠ .ok none ∧
      ¬ ∀ columns, (wrap columns "lsm" (bodyOfPragma "lsm\tparallel loop") ⟨0⟩).label ⟨1⟩ =
        (bodyOfPragma "lsm\tparallel loop").label ⟨1⟩ := by
  have hmarker : Directive.IsMarker "lsm" := ⟨by decide, by simp [isBlank]⟩
  have hreserved : isReserved "lsm" "lsm\tparallel loop" = true := by decide +kernel
  have hlive : (bodyOfPragma "lsm\tparallel loop").contains ⟨1⟩ = true := by decide +kernel
  obtain ⟨hfind, -, hwrap⟩ := reserved_recognised hmarker (forest_bodyOfPragma _) hlive
    (by decide +kernel) hreserved
  refine ⟨hreserved, hfind, fun h ↦ ?_⟩
  have hwords := (hwrap ⟨0⟩ (above_of_parent? (by decide +kernel))).mp h
  revert hwords
  decide +kernel

end LoopDirectives.Pragma
