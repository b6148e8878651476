import Mathlib.Data.List.TakeDrop
import LoopDirectives.Directive
import LoopDirectives.Proofs.Text.Blank

/-!
# Directives are reserved pragmas

The marker of a directive is found after the comment of the pragma is dropped, that of a reserved
pragma in its whole text. Since a keyword follows the marker of a directive, a comment can not cut
into it: every directive is a reserved pragma (`Directive.isReserved_of_find?`).
-/

namespace LoopDirectives

open List

variable {marker : String}

namespace Pragma

theorem trimStart_takeWhile_ne (text : List Char) :
    Text.trimStart (text.takeWhile (· ≠ '!')) = (Text.trimStart text).takeWhile (· ≠ '!') := by
  induction text with
  | nil => rfl
  | cons c rest ih =>
    cases hblank : Text.isBlank c with
    | true =>
      have hne : c ≠ '!' := by
        rintro rfl
        simp [Text.isBlank] at hblank
      simpa [Text.trimStart, hblank, hne] using ih
    | false =>
      have hstart (others : List Char) : Text.trimStart (c :: others) = c :: others :=
        dropWhile_cons_of_neg (by simp [hblank])
      rw [hstart, takeWhile_cons]
      split
      · exact hstart _
      · rfl

theorem firstWord_dropComment {text : List Char} (h : '!' ∉ Text.firstWord text) :
    Text.firstWord (Text.trimBoth (dropComment text)) = Text.firstWord text := by
  rw [Text.firstWord_trimBoth, dropComment]
  split
  · rfl
  · rw [Text.firstWord_trimBoth, Text.firstWord, trimStart_takeWhile_ne, takeWhile_takeWhile]
    simp only [and_comm]
    rw [← takeWhile_takeWhile, ← Text.firstWord]
    exact takeWhile_eq_self_iff.mpr fun c hc ↦ decide_eq_true fun heq ↦ h (heq ▸ hc)

theorem firstWord_of_dropComment {text : List Char}
    (h : (Text.trimBoth (dropComment text)).dropWhile (fun c ↦ !Text.isBlank c) ≠ []) :
    Text.firstWord text =
      (Text.trimBoth (dropComment text)).takeWhile fun c ↦ !Text.isBlank c := by
  rw [← Text.trimBoth_trimBoth (dropComment text), ← Text.firstWord_eq]
  by_cases hbang : '!' ∈ Text.firstWord text
  · unfold dropComment at h ⊢
    dsimp only at h ⊢
    split at h
    · next hnone => rw [if_pos hnone, Text.firstWord_trimBoth]
    · -- The comment begins in the first word, so the text ends with it.
      refine absurd (dropWhile_eq_nil_iff.mpr fun c hc ↦ ?_) h
      have hmem := Text.mem_of_mem_trimBoth hc
      rw [Text.trimStart_trimBoth] at hmem
      have hrun := Text.mem_of_mem_trimBoth hmem
      rw [trimStart_takeWhile_ne, ← takeWhile_append_dropWhile (p := fun c ↦ !Text.isBlank c)
        (l := Text.trimStart text), takeWhile_append, if_neg] at hrun
      · exact all_eq_true.mp all_takeWhile c (takeWhile_subset _ hrun)
      · intro hlength
        have hall := (takeWhile_sublist _).eq_of_length hlength
        simpa using takeWhile_eq_self_iff.mp hall '!' hbang
  · exact (firstWord_dropComment hbang).symm

end Pragma

theorem Directive.isReserved_of_parse {text : String} {directive : Directive}
    (h : Directive.parse marker text = .ok (some directive)) : Pragma.isReserved marker text := by
  unfold Directive.parse at h
  dsimp only at h
  rw [span_eq_takeWhile_dropWhile] at h
  dsimp only at h
  split at h
  · next hmarker =>
    split at h
    · cases h
    · next hkeyword =>
      have hrest : (Text.trimBoth (Pragma.dropComment text.toList)).dropWhile
          (fun c ↦ !Text.isBlank c) ≠ [] := by
        intro hnil
        rw [hnil] at hkeyword
        exact hkeyword rfl
      have hword := Pragma.firstWord_of_dropComment hrest
      rw [← hword] at hmarker
      cases hfirst : Text.firstWord text.toList with
      | nil =>
        rw [hfirst] at hword
        cases hcontent : Text.trimBoth (Pragma.dropComment text.toList) with
        | nil => simp [hcontent] at hrest
        | cons first others =>
          simp [hcontent, Text.isBlank_head_trimBoth hcontent] at hword
      | cons first others =>
        simp only [Pragma.isReserved, hfirst]
        rw [hfirst] at hmarker
        exact hmarker
  · cases h

/-- A directive is found at reserved pragmas only, and is placed there. -/
theorem Directive.isReserved_of_find? {doc : Document} {node : NodeId}
    {directive : PlacedDirective}
    (h : Directive.find? marker doc node = .ok (some directive)) :
    doc.isKind node .pragma ∧
      Pragma.isReserved marker (doc.text node) ∧ directive.pragma = node := by
  unfold Directive.find? at h
  split at h
  · next hkind =>
    cases hparse : Directive.parse marker (doc.text node) with
    | error cause => simp [hparse, Except.map] at h
    | ok found? =>
      cases found? with
      | none => simp [hparse, Except.map] at h
      | some found =>
        rw [hparse] at h
        cases h
        exact ⟨hkind, Directive.isReserved_of_parse hparse, rfl⟩
  · cases h

end LoopDirectives
