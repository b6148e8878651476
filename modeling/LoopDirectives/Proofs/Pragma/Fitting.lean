import Mathlib.Data.List.TakeDrop
import LoopDirectives.Proofs.Pragma.Chunks

/-!
# Chunks fit and lose nothing

A pragma is cut into parts between characters, and its chunks are these parts without the white
space at their ends (`Pragma.exists_parts`): no character is lost that is not white space. A cut
falls within the room unless the first character alone is wider, so every chunk fits or is one
character (`Pragma.fits_of_mem_chunksOf`).
-/

namespace LoopDirectives

open List

namespace Text

def solid (text : List Char) : List Char :=
  text.filter (!isBlank ·)

theorem solid_append (left right : List Char) : solid (left ++ right) = solid left ++ solid right :=
  filter_append ..

theorem solid_of_allBlank {gap : List Char} (hgap : AllBlank gap) : solid gap = [] :=
  filter_eq_nil_iff.mpr fun c hc ↦ by simp [hgap c hc]

theorem solid_trimBoth (text : List Char) : solid (trimBoth text) = solid text := by
  obtain ⟨lead, trail, hlead, htrail, hsplit⟩ := exists_around_trimBoth text
  conv_rhs => rw [hsplit, solid_append, solid_append, solid_of_allBlank hlead,
    solid_of_allBlank htrail, nil_append, append_nil]

theorem trimBoth_sublist (text : List Char) : (trimBoth text).Sublist text :=
  (trimEnd_initial _).sublist.trans (dropWhile_sublist _)

theorem lastIndexOf?_lt {c : Char} {text : List Char} {position : Nat}
    (h : lastIndexOf? c text = some position) : position < text.length := by
  unfold lastIndexOf? at h
  split at h
  · cases h
  · next fromEnd hfind =>
    cases h
    obtain ⟨hlt, -⟩ := findIdx?_eq_some_iff_getElem.mp hfind
    rw [length_reverse] at hlt
    omega

end Text

namespace Pragma

open Text

variable {room : Nat} {text chunk : List Char}

theorem utf8ByteSize_ofList (text : List Char) :
    (String.ofList text).utf8ByteSize = width text := by
  induction text with
  | nil => rfl
  | cons c rest ih =>
    rw [String.ofList_cons, String.utf8ByteSize_append, ih, String.utf8ByteSize_singleton, width]

theorem width_le_of_sublist {shorter longer : List Char} (h : shorter.Sublist longer) :
    width shorter ≤ width longer := by
  induction h with
  | slnil => exact Nat.le_refl _
  | cons c _ ih => exact Nat.le_trans ih (Nat.le_add_left ..)
  | cons_cons c _ ih => exact Nat.add_le_add_left ih _

theorem cut_le (room : Nat) (text : List Char) : cut room text ≤ max 1 (fitting room text) := by
  have hwindow := length_take_le (max 1 (fitting room text)) text
  unfold cut
  dsimp only
  split
  · next space hspace =>
    have hlt := lastIndexOf?_lt (Option.filter_eq_some_iff.mp hspace).1
    omega
  · split
    · next comma hcomma =>
      have hlt := lastIndexOf?_lt hcomma
      omega
    · exact Nat.le_refl _

theorem fits_take_cut (room : Nat) (text : List Char) :
    width (text.take (cut room text)) ≤ room ∨ (text.take (cut room text)).length ≤ 1 := by
  have hcut := cut_le room text
  by_cases hfitting : fitting room text = 0
  · right
    rw [length_take]
    omega
  · left
    have hle : cut room text ≤ fitting room text := by omega
    exact Nat.le_trans (width_le_of_sublist (take_prefix_take_left hle).sublist)
      (width_take_fitting_le room text)

/-- Assumes: a trimmed text. A chunk fits the room or is a single character. -/
theorem fits_of_mem_chunksOf (htext : trimBoth text = text) (h : chunk ∈ chunksOf room text) :
    width chunk ≤ room ∨ chunk.length = 1 := by
  have htrimmed := trimmed_of_mem_chunksOf room htext h
  suffices hfits : width chunk ≤ room ∨ chunk.length ≤ 1 from
    hfits.imp_right fun hle ↦
      Nat.le_antisymm hle (length_pos_iff.mpr htrimmed.nonempty)
  clear htrimmed
  fun_induction chunksOf room text with
  | case1 => cases h
  | case2 c rest hwide place ih =>
    rcases mem_cons.mp h with rfl | h
    · have hsublist := (trimEnd_initial ((c :: rest).take place)).sublist
      exact (fits_take_cut room (c :: rest)).imp
        (Nat.le_trans (width_le_of_sublist hsublist)) (Nat.le_trans hsublist.length_le)
    · exact ih (trimBoth_trimStart_drop htext _) h
  | case3 c rest hfits =>
    rw [mem_singleton.mp h]
    exact Or.inl (Nat.not_lt.mp hfits)

/-- The text is cut into parts whose trimmed forms are the chunks; the white space after a cut
belongs to the part before it. -/
theorem exists_parts (room : Nat) (htext : trimBoth text = text) :
    ∃ parts : List (List Char), parts.flatten = text ∧ parts.map trimBoth = chunksOf room text := by
  fun_induction chunksOf room text with
  | case1 => exact ⟨[], rfl, rfl⟩
  | case2 c rest hwide place ih =>
    obtain ⟨parts, hjoined, hchunks⟩ := ih (trimBoth_trimStart_drop htext _)
    obtain ⟨gap, hgap, hdrop⟩ := exists_trimStart ((c :: rest).drop place)
    have hfirst : isBlank c = false := (trimBoth_eq_self_iff.mp htext).1 c rfl
    have hhead : ((c :: rest).take place ++ gap).head? = some c := by
      rw [head?_append, head?_take, if_neg (cut_pos room (c :: rest)).ne']
      rfl
    have hstart : trimStart ((c :: rest).take place ++ gap) = (c :: rest).take place ++ gap :=
      trimStart_eq_self_iff.mpr fun d hd ↦ Option.some.inj (hhead.symm.trans hd) ▸ hfirst
    refine ⟨((c :: rest).take place ++ gap) :: parts, ?_, ?_⟩
    · rw [flatten_cons, hjoined, append_assoc, ← hdrop, take_append_drop]
    · rw [map_cons, hchunks, trimBoth, hstart, trimEnd_append hgap]
  | case3 c rest hfits => exact ⟨[c :: rest], by simp, by simpa using htext⟩

theorem solid_flatten_map_trimBoth (parts : List (List Char)) :
    solid (parts.map trimBoth).flatten = solid parts.flatten := by
  induction parts with
  | nil => rfl
  | cons part rest ih =>
    rw [map_cons, flatten_cons, flatten_cons, solid_append, solid_append,
      solid_trimBoth, ih]

theorem length_chunksOf_le (room : Nat) (text : List Char) :
    (chunksOf room text).length ≤ text.length := by
  fun_induction chunksOf room text with
  | case1 => exact Nat.le_refl _
  | case2 c rest hwide place ih =>
    have hcut : 0 < place := cut_pos room (c :: rest)
    have hrest := Nat.le_trans ih (length_trimStart_le ((c :: rest).drop place))
    simp only [length_drop, length_cons] at hrest ⊢
    omega
  | case3 c rest hfits => exact Nat.succ_le_succ (Nat.zero_le _)

/-- What a pragma says without its comment and the white space around it. -/
def content (text : String) : List Char :=
  trimBoth (dropComment text.toList)

theorem content_sublist (text : String) : (content text).Sublist text.toList := by
  refine (trimBoth_sublist _).trans ?_
  unfold dropComment
  dsimp only
  split
  · exact .refl _
  · exact (trimBoth_sublist _).trans (takeWhile_sublist _)

theorem trim_uncommented (text : String) :
    trim (uncommented text) = String.ofList (content text) := by
  rw [trim, uncommented, String.toList_ofList, content]

theorem sublist_of_mem_chunks {columns : Nat} {sentinel text chunk : String}
    (h : chunk ∈ chunks columns sentinel text) : chunk.toList.Sublist text.toList := by
  obtain ⟨characters, hmem, rfl⟩ := mem_map.mp h
  obtain ⟨parts, hjoined, hchunks⟩ :=
    exists_parts (budget columns sentinel) (trimBoth_trimBoth (dropComment text.toList))
  rw [← hchunks] at hmem
  obtain ⟨part, hpart, rfl⟩ := mem_map.mp hmem
  rw [String.toList_ofList]
  refine ((trimBoth_sublist part).trans ?_).trans (content_sublist text)
  rw [content, ← hjoined]
  exact sublist_flatten_of_mem hpart

theorem solid_join_chunks (columns : Nat) (sentinel text : String) :
    solid (String.join (chunks columns sentinel text)).toList =
      solid (uncommented text).toList := by
  obtain ⟨parts, hjoined, hchunks⟩ :=
    exists_parts (budget columns sentinel) (trimBoth_trimBoth (dropComment text.toList))
  rw [chunks, ← hchunks, uncommented, String.toList_ofList, ← solid_trimBoth (dropComment _),
    ← hjoined, ← solid_flatten_map_trimBoth]
  congr 1
  simp [flatMap_map, ← flatMap_def]

/-- The chunks of a pragma are trimmed and not empty, and each fits the columns or is one character.
There are no more of them than characters. They are what is left of the parts of the text, cut at
positions between characters, and have all of its characters but white space and the comment. -/
theorem chunks_fit_and_join (columns : Nat) (sentinel text : String) :
    (∀ chunk ∈ chunks columns sentinel text, chunk ≠ "" ∧ trim chunk = chunk ∧
      (chunk.utf8ByteSize ≤ max 1 (columns - (sentinel.utf8ByteSize + 5)) ∨ chunk.length = 1)) ∧
    (chunks columns sentinel text).length ≤ text.length ∧
    (∃ parts : List String, parts.map trim = chunks columns sentinel text ∧
      String.join parts = trim (uncommented text) ∧
      ∀ count, (String.join (parts.take count)).rawEndPos.IsValid (trim (uncommented text))) ∧
    solid (String.join (chunks columns sentinel text)).toList =
      solid (uncommented text).toList := by
  obtain ⟨parts, hjoined, hchunks⟩ :=
    exists_parts (budget columns sentinel) (trimBoth_trimBoth (dropComment text.toList))
  have hsplit (count : Nat) :
      trim (uncommented text) =
        String.join ((parts.map String.ofList).take count) ++
          String.join ((parts.map String.ofList).drop count) := by
    rw [trim_uncommented, content, ← hjoined, ← String.toList_inj]
    simp [← List.flatMap_append, List.flatMap_map]
  refine ⟨fun chunk hchunk ↦ ?_, ?_, ⟨parts.map String.ofList, ?_, ?_, fun count ↦ ?_⟩, ?_⟩
  · obtain ⟨characters, hmem, rfl⟩ := List.mem_map.mp hchunk
    have htrimmed := isCanonicalText_of_mem_chunks hchunk
    rw [Element.isCanonicalText, Bool.and_eq_true, bne_iff_ne, beq_iff_eq] at htrimmed
    refine ⟨htrimmed.1, htrimmed.2, ?_⟩
    rw [utf8ByteSize_ofList, String.length_ofList]
    exact fits_of_mem_chunksOf (trimBoth_trimBoth _) hmem
  · rw [chunks, List.length_map]
    exact Nat.le_trans (length_chunksOf_le ..) (content_sublist text).length_le
  · rw [chunks, ← hchunks, List.map_map, List.map_map]
    exact List.map_congr_left fun part _ ↦ by simp [trim]
  · simpa using (hsplit 0).symm
  · exact String.Pos.Raw.isValid_iff_exists_append.mpr ⟨_, _, hsplit count, rfl⟩
  · exact solid_join_chunks columns sentinel text

end Pragma

end LoopDirectives
