import LoopDirectives.Pragma.Wrap
import LoopDirectives.Proofs.Markup.RoundTrip
import LoopDirectives.Proofs.Text.Blank

/-!
# Chunks can be written

Every chunk of a pragma is a text that reading leaves as it is: not empty and with no white space at
its ends (`Pragma.isCanonicalText_of_mem_chunks`). So is the text of a link of the chain that a
pragma is wrapped into (`Pragma.isCanonicalText_link`).
-/

namespace LoopDirectives

open List

namespace Text

/-- A text that neither is empty nor begins or ends with white space. -/
structure Trimmed (text : List Char) : Prop where
  nonempty : text ≠ []
  head : ∀ c ∈ text.head?, isBlank c = false
  last : ∀ c ∈ text.getLast?, isBlank c = false

theorem isCanonicalText_ofList_iff {text : List Char} :
    Element.isCanonicalText (String.ofList text) ↔ Trimmed text := by
  rw [Element.isCanonicalText, Bool.and_eq_true, bne_iff_ne, beq_iff_eq, Text.trim,
    String.toList_ofList, String.ofList_inj, trimBoth_eq_self_iff, ← String.ofList_nil, ne_eq,
    String.ofList_inj]
  exact ⟨fun h ↦ ⟨h.1, h.2.1, h.2.2⟩, fun h ↦ ⟨h.nonempty, h.head, h.last⟩⟩

theorem trimmed_trimEnd {first : Char} (hfirst : isBlank first = false) (rest : List Char) :
    Trimmed (trimEnd (first :: rest)) := by
  have hword := takeWhile_trimEnd (first :: rest)
  rw [takeWhile_cons_of_pos (by simp [hfirst])] at hword
  have hlast := trimEnd_eq_self_iff.mp (trimEnd_trimEnd (first :: rest))
  cases htrim : trimEnd (first :: rest) with
  | nil => simp [htrim] at hword
  | cons c tail =>
    refine ⟨cons_ne_nil c tail, ?_, htrim ▸ hlast⟩
    cases hc : isBlank c with
    | false => simpa using hc
    | true => simp [htrim, hc] at hword

theorem trimBoth_trimStart_drop {text : List Char} (htext : trimBoth text = text) (place : Nat) :
    trimBoth (trimStart (text.drop place)) = trimStart (text.drop place) := by
  have hsuffix : trimStart (text.drop place) <:+ text :=
    (dropWhile_suffix _).trans (drop_suffix place text)
  obtain ⟨front, hfront⟩ := hsuffix
  refine trimBoth_eq_self_iff.mpr ⟨trimStart_eq_self_iff.mp (dropWhile_idempotent ..),
    fun c hc ↦ (trimBoth_eq_self_iff.mp htext).2 c ?_⟩
  rw [← hfront, getLast?_append, Option.mem_def.mp hc]
  rfl

end Text

namespace Pragma

open Text

variable {columns : Nat} {chunk : String}

theorem trimmed_of_mem_chunksOf (room : Nat) {text : List Char} (htext : trimBoth text = text)
    {chunk : List Char} (h : chunk ∈ chunksOf room text) : Trimmed chunk := by
  fun_induction chunksOf room text with
  | case1 => cases h
  | case2 c rest hwide place ih =>
    have hfirst : isBlank c = false := (trimBoth_eq_self_iff.mp htext).1 c rfl
    rcases mem_cons.mp h with rfl | h
    · obtain ⟨before, hplace⟩ := Nat.exists_eq_succ_of_ne_zero (cut_pos room (c :: rest)).ne'
      show Trimmed (trimEnd ((c :: rest).take (cut room (c :: rest))))
      rw [hplace, take_succ_cons]
      exact trimmed_trimEnd hfirst _
    · exact ih (trimBoth_trimStart_drop htext _) h
  | case3 c rest hfits =>
    rw [mem_singleton.mp h]
    obtain ⟨hhead, hlast⟩ := trimBoth_eq_self_iff.mp htext
    exact ⟨cons_ne_nil _ _, hhead, hlast⟩

theorem trimmed_of_mem_chunks {sentinel text : String} (h : chunk ∈ chunks columns sentinel text) :
    Trimmed chunk.toList := by
  obtain ⟨piece, hpiece, rfl⟩ := mem_map.mp h
  rw [String.toList_ofList]
  exact trimmed_of_mem_chunksOf _ (trimBoth_trimBoth _) hpiece

/-- Every chunk is a text that survives writing. -/
theorem isCanonicalText_of_mem_chunks {sentinel text : String}
    (h : chunk ∈ chunks columns sentinel text) : Element.isCanonicalText chunk := by
  rw [← String.ofList_toList (s := chunk), isCanonicalText_ofList_iff]
  exact trimmed_of_mem_chunks h

/-- So does a chunk with the first word of the pragma before it. -/
theorem isCanonicalText_link {text : String} (htext : Element.isCanonicalText text)
    (hchunk : Trimmed chunk.toList) :
    Element.isCanonicalText (sentinel text ++ " " ++ chunk) := by
  rw [← String.ofList_toList (s := text), isCanonicalText_ofList_iff] at htext
  rw [← String.ofList_toList (s := sentinel text ++ " " ++ chunk), isCanonicalText_ofList_iff]
  have hword : (sentinel text).toList = text.toList.takeWhile (· ≠ ' ') := String.toList_ofList
  have hlist : (sentinel text ++ " " ++ chunk).toList =
      text.toList.takeWhile (· ≠ ' ') ++ ' ' :: chunk.toList := by
    rw [String.toList_append, String.toList_append, hword, append_assoc]
    rfl
  have hlast := getLast?_eq_some_getLast hchunk.nonempty
  rw [hlist]
  cases hcharacters : text.toList with
  | nil => exact absurd hcharacters htext.nonempty
  | cons first rest =>
    have hfirst : isBlank first = false := htext.head first (by rw [hcharacters]; rfl)
    by_cases hspace : first = ' '
    · rw [hspace] at hfirst
      cases hfirst
    · rw [takeWhile_cons_of_pos (by simpa using hspace), cons_append]
      refine ⟨cons_ne_nil _ _, fun c hc ↦ ?_, fun c hc ↦ hchunk.last c ?_⟩
      · cases hc
        exact hfirst
      · rw [← cons_append, getLast?_append, getLast?_cons, hlast] at hc
        simpa [hlast] using hc

end Pragma

end LoopDirectives
