import LoopDirectives.Proofs.Pragma.Continuing

/-!
# Wrapping twice

The budget of a chunk leaves room for the first word of the pragma, which a link repeats: a link
that fits its line can be wider than the budget and is then wrapped again. Wrapping changes nothing
exactly if no pragma is overlong (`wrap_eq_self_iff`), and after wrapping these are the pieces of
chains that are overlong again (`overlong_wrap_eq_nil_iff`).
-/

namespace LoopDirectives.Pragma

open Document Text List

variable {doc before after : Document} {pragma root x old : NodeId} {room columns : Nat}

/-! ### Texts that are not split -/

theorem length_fitting_lt {text : List Char} (h : room < width text) :
    fitting room text < text.length := by
  induction text generalizing room with
  | nil => cases h
  | cons c rest ih =>
    rw [fitting]
    split
    · next hfits =>
      rw [width] at h
      exact Nat.succ_lt_succ (ih (by omega))
    · exact Nat.succ_pos _

theorem length_chunksOf_le_one_iff {text : List Char} (htext : trimBoth text = text) :
    (chunksOf room text).length ≤ 1 ↔ width text ≤ room ∨ text.length ≤ 1 := by
  refine ⟨fun h ↦ ?_, fun h ↦ ?_⟩
  · by_contra hlong
    obtain ⟨hwide, hlength⟩ := not_or.mp hlong
    cases text with
    | nil => exact hlength (Nat.zero_le _)
    | cons c rest =>
      rw [chunksOf, if_pos (Nat.not_le.mp hwide)] at h
      have hplace : cut room (c :: rest) < (c :: rest).length :=
        Nat.lt_of_le_of_lt (cut_le ..) (max_lt (Nat.not_le.mp hlength)
          (length_fitting_lt (Nat.not_le.mp hwide)))
      have hdrop : (c :: rest).drop (cut room (c :: rest)) ≠ [] :=
        drop_eq_nil_iff.not.mpr (Nat.not_le.mpr hplace)
      have hlast := (trimBoth_eq_self_iff.mp htext).2 (List.getLast _ hdrop)
        (by rw [getLast_drop]; exact getLast?_eq_some_getLast _)
      -- The text does not end in white space, so something is left after the cut.
      have hrest : trimStart ((c :: rest).drop (cut room (c :: rest))) ≠ [] := fun hnil ↦
        Bool.false_ne_true
          (hlast.symm.trans (dropWhile_eq_nil_iff.mp hnil _ (getLast_mem hdrop)))
      obtain ⟨next, others, hcons⟩ := exists_cons_of_ne_nil hrest
      dsimp only at h
      rw [hcons, chunksOf] at h
      split at h <;> simp at h
  · rcases h with hfits | hone
    · cases text with
      | nil => simp [chunksOf]
      | cons c rest => rw [chunksOf, if_neg (Nat.not_lt.mpr hfits)]; exact Nat.le_refl _
    · exact Nat.le_trans (length_chunksOf_le ..) hone

/-- The text of a pragma fits the budget of its first word, or there is nothing to split. -/
def Fits (columns : Nat) (text : String) : Prop :=
  width (content text) ≤ budget columns (sentinel text) ∨ (content text).length ≤ 1

theorem isOverlong_eq_false_iff {marker text : String} :
    isOverlong columns marker text = false ↔
      sentinel text = "" ∨ sameLetters (sentinel text) marker ∨ Fits columns text := by
  have hchunks : (chunks columns (sentinel text) text).length ≤ 1 ↔ Fits columns text := by
    rw [chunks, length_map]
    exact length_chunksOf_le_one_iff (trimBoth_trimBoth _)
  rw [← hchunks, isOverlong, ← Bool.not_eq_true]
  simp only [Bool.and_eq_true, bne_iff_ne, Bool.not_eq_true', decide_eq_true_eq, not_and_or, ne_eq,
    not_not, Bool.not_eq_false, Nat.not_le, Nat.lt_succ_iff, or_assoc]

theorem sentinel_link (text chunk : String) :
    sentinel (sentinel text ++ " " ++ chunk) = sentinel text := by
  have hword : ∀ c ∈ (sentinel text).toList, decide (c ≠ ' ') := by
    rw [sentinel, String.toList_ofList]
    exact fun c hc ↦ all_eq_true.mp all_takeWhile c hc
  rw [sentinel, String.toList_append, String.toList_append, append_assoc,
    (split_run hword (by simp)).1, String.ofList_toList]

theorem budget_le {shorter longer : String} (h : shorter.utf8ByteSize ≤ longer.utf8ByteSize) :
    budget columns longer ≤ budget columns shorter := by
  unfold budget
  omega

theorem content_initial {text : String} (htext : ∀ c ∈ text.toList.head?, isBlank c = false) :
    content text <+: text.toList := by
  have htrim {part : List Char} (hpart : part <+: text.toList) : trimBoth part <+: text.toList := by
    have hstart : trimStart part = part := by
      refine trimStart_eq_self_iff.mpr fun c hc ↦ htext c ?_
      obtain ⟨tail, htail⟩ := hpart
      rw [← htail, head?_append, Option.mem_def.mp hc]
      rfl
    rw [trimBoth, hstart]
    exact (trimEnd_initial part).trans hpart
  unfold content dropComment
  dsimp only
  split
  · exact htrim prefix_rfl
  · rw [trimBoth_trimBoth]
    exact htrim (List.takeWhile_prefix _)

theorem fits_of_mem_chunks {text chunk : String} (h : chunk ∈ chunks columns (sentinel text) text)
    (hword : (sentinel chunk).utf8ByteSize ≤ (sentinel text).utf8ByteSize) :
    Fits columns chunk := by
  obtain ⟨characters, hmem, rfl⟩ := mem_map.mp h
  have hsublist := content_sublist (String.ofList characters)
  rw [String.toList_ofList] at hsublist
  refine (fits_of_mem_chunksOf (trimBoth_trimBoth _) hmem).imp (fun hwidth ↦ ?_) fun hone ↦ ?_
  · exact (width_le_of_sublist hsublist).trans (hwidth.trans (budget_le hword))
  · exact hsublist.length_le.trans hone.le

theorem fits_first {text first : String} {rest : List String}
    (htext : ∀ c ∈ text.toList.head?, isBlank c = false)
    (h : chunks columns (sentinel text) text = first :: rest) : Fits columns first := by
  refine fits_of_mem_chunks (h ▸ mem_cons_self ..) ?_
  rw [chunks, ← content] at h
  obtain ⟨chunk, others, hchunks, rfl, -⟩ := map_eq_cons_iff.mp h
  have hinitial : chunk <+: content text := by
    cases hcontent : content text with
    | nil => simp [hcontent, chunksOf] at hchunks
    | cons c rest =>
      rw [hcontent, chunksOf] at hchunks
      split at hchunks
      · cases hchunks
        exact (trimEnd_initial _).trans (List.take_prefix ..)
      · cases hchunks
        exact prefix_rfl
  obtain ⟨tail, htail⟩ := hinitial.trans (content_initial htext)
  rw [sentinel, sentinel, utf8ByteSize_ofList, utf8ByteSize_ofList, String.toList_ofList, ← htail,
    takeWhile_append]
  split
  · exact width_le_of_sublist ((takeWhile_sublist _).trans (sublist_append_left ..))
  · exact Nat.le_refl _

/-! ### Documents that are not changed -/

/-- Wrapping changes a forest exactly when some pragma is too long. -/
theorem wrap_eq_self_iff (forest : doc.Forest) (columns : Nat) (marker : String)
    (root : NodeId) :
    wrap columns marker doc root = doc ↔ overlong columns marker doc root = [] := by
  constructor
  · intro h
    obtain ⟨links, chained, -⟩ := exists_chained_wrapAll forest columns marker root
    rw [← wrap, h] at chained
    refine eq_nil_iff_forall_not_mem.mpr fun pragma hpragma ↦ ?_
    obtain ⟨hlive, hlong⟩ := contains_of_mem_overlong forest hpragma
    obtain ⟨rest, hne, htexts, -⟩ := (chained.continues hlive hlong (if_pos hpragma)).texts
    obtain ⟨link, hlink⟩ : ∃ link, link ∈ links pragma :=
      exists_mem_of_ne_nil _ fun hnil ↦ hne (by simpa [hnil] using htexts)
    obtain ⟨hnew, hcontains, -⟩ := chained.leaf pragma hlive link hlink
    exact Nat.not_lt.mpr hnew (index_lt_size hcontains)
  · intro hnone
    have hsame : ∀ pragma ∈ doc.descendantsOf root .pragma,
        wrapAt columns marker doc pragma = doc := by
      intro pragma hpragma
      have hlong := filter_eq_nil_iff.mp hnone pragma hpragma
      rw [wrapAt, wrapAt?_of_not_isOverlong (Bool.not_eq_true _ ▸ hlong)]
      rfl
    rw [wrap_eq_foldl]
    generalize doc.descendantsOf root .pragma = pragmas at hsame
    induction pragmas with
    | nil => rfl
    | cons pragma rest ih =>
      obtain ⟨hfirst, hrest⟩ := forall_mem_cons.mp hsame
      rw [foldl_cons, hfirst]
      exact ih hrest

theorem Chained.above_iff {links : NodeId → List NodeId} {pieces : NodeId → Label → List Label}
    (chained : Chained before after links pieces) (forest : before.Forest)
    (hold : before.contains old) (hx : x ∈ old :: links old) :
    after.Above root x ↔ before.Above root old := by
  have hkeeps := chained.keepsParents
  rcases mem_cons.mp hx with rfl | hlink
  · exact hkeeps.above_iff forest (index_lt_size hold)
  · obtain ⟨-, -, -, parent, hparent, hplace⟩ := chained.leaf old hold x hlink
    rw [above_iff_of_parent? hparent, above_iff_of_parent? hplace,
      hkeeps.above_iff forest (index_lt_size (forest.contains_parent hparent))]

theorem kind_of_mem_chain {label piece : Label} (hlabel : label.kind = .pragma)
    (h : piece ∈ chain columns label) : piece.kind = .pragma := by
  rcases mem_cons.mp h with rfl | h
  · exact hlabel
  · exact (attributes_of_mem_linkLabels _ _ h).1

/-- Nothing is left to wrap if every piece of every long pragma fits. -/
theorem overlong_wrap_eq_nil_iff (forest : doc.Forest) (columns : Nat) (marker : String)
    (root : NodeId) :
    overlong columns marker (wrap columns marker doc root) root = [] ↔
      ∀ pragma ∈ overlong columns marker doc root,
        ∀ piece ∈ chain columns (doc.label pragma),
          isOverlong columns marker piece.text = false := by
  obtain ⟨links, chained, -⟩ := exists_chained_wrapAll forest columns marker root
  rw [← wrap] at chained
  set after := wrap columns marker doc root
  have hafter := chained.forest
  rw [overlong, filter_eq_nil_iff]
  simp only [Bool.not_eq_true]
  constructor
  · intro h pragma hpragma piece hpiece
    obtain ⟨hmem, hkind⟩ := mem_filter.mp (mem_filter.mp hpragma).1
    obtain ⟨hlive, -⟩ := contains_of_mem_overlong forest hpragma
    have hlabels := chained.labels pragma hlive
    rw [if_pos hpragma] at hlabels
    obtain ⟨x, hx, rfl⟩ := mem_map.mp (hlabels ▸ hpiece)
    have habove := (chained.above_iff forest hlive hx).mpr (forest.mem_descendants_iff.mp hmem)
    exact h x (mem_filter.mpr ⟨hafter.mem_descendants_iff.mpr habove,
      beq_iff_eq.mpr (kind_of_mem_chain (beq_iff_eq.mp hkind) hpiece)⟩)
  · intro h x hx
    obtain ⟨hmem, hkind⟩ := mem_filter.mp hx
    have habove := hafter.mem_descendants_iff.mp hmem
    obtain ⟨old, hlive, hold⟩ : ∃ old, doc.contains old ∧ x ∈ old :: links old := by
      rcases chained.contains x habove.contains with hlive | ⟨old, hlive, hlink⟩
      · exact ⟨x, hlive, mem_cons_self ..⟩
      · exact ⟨old, hlive, mem_cons_of_mem _ hlink⟩
    have hpiece := mem_map_of_mem (f := after.label) hold
    rw [chained.labels old hlive] at hpiece
    split at hpiece
    · next hlong => exact h old hlong _ hpiece
    · next hshort =>
      rw [mem_singleton] at hpiece
      rw [text, hpiece]
      by_contra hlong
      refine hshort (mem_filter.mpr
        ⟨mem_filter.mpr ⟨?_, ?_⟩, Bool.not_eq_false _ ▸ hlong⟩)
      · exact forest.mem_descendants_iff.mpr ((chained.above_iff forest hlive hold).mp habove)
      · rwa [isKind, kind, hpiece] at hkind

/-- Wrapping again changes nothing exactly if no piece of a chain is overlong: neither the first
piece, which never is unless the text begins with white space, nor a link, which must fit the budget
with the first word repeated. -/
theorem wrap_wrap_eq_iff (forest : doc.Forest) (columns : Nat) (marker : String)
    (root : NodeId) :
    (wrap columns marker (wrap columns marker doc root) root =
        wrap columns marker doc root ↔
      ∀ pragma ∈ overlong columns marker doc root, ∀ first rest,
        chunks columns (sentinel (doc.text pragma)) (doc.text pragma) = first :: rest →
        isOverlong columns marker first = false ∧
          ∀ chunk ∈ rest, Fits columns (sentinel (doc.text pragma) ++ " " ++ chunk)) ∧
    ∀ text first rest, (∀ c ∈ text.toList.head?, isBlank c = false) →
      chunks columns (sentinel text) text = first :: rest →
      isOverlong columns marker first = false := by
  refine ⟨?_, fun text first rest htext hchunks ↦
    isOverlong_eq_false_iff.mpr (Or.inr (Or.inr (fits_first htext hchunks)))⟩
  rw [wrap_eq_self_iff (wrapped_wrap forest columns marker root).forest,
    overlong_wrap_eq_nil_iff forest]
  refine forall₂_congr fun pragma hpragma ↦ ?_
  obtain ⟨-, hlong⟩ := contains_of_mem_overlong forest hpragma
  have hlink (chunk : String) : isOverlong columns marker
      (sentinel (doc.text pragma) ++ " " ++ chunk) = false ↔
        Fits columns (sentinel (doc.text pragma) ++ " " ++ chunk) := by
    simp only [isOverlong, Bool.and_eq_true, bne_iff_ne, Bool.not_eq_true'] at hlong
    rw [isOverlong_eq_false_iff, sentinel_link]
    simp [hlong]
  cases hchunks : chunks columns (sentinel (doc.text pragma)) (doc.text pragma) with
  | nil => simp [isOverlong, hchunks] at hlong
  | cons first rest =>
    have htexts : (chain columns (doc.label pragma)).map Label.text =
        first :: rest.map (sentinel (doc.text pragma) ++ " " ++ ·) := by
      rw [chain, List.map_cons, text_linkLabels, ← text, hchunks]
      rfl
    have hpieces : (∀ piece ∈ chain columns (doc.label pragma),
        isOverlong columns marker piece.text = false) ↔
          ∀ text ∈ first :: rest.map (sentinel (doc.text pragma) ++ " " ++ ·),
            isOverlong columns marker text = false := by
      rw [← htexts, List.forall_mem_map]
    rw [hpieces, List.forall_mem_cons, List.forall_mem_map]
    simp only [hlink, List.cons.injEq, and_imp]
    exact ⟨fun h _ _ hfirst hrest ↦ hfirst ▸ hrest ▸ h, fun h ↦ h first rest rfl rfl⟩

/-- The middle one of three pieces is split again. -/
theorem wrap_wrap_ne_of_greekLetters :
    (bodyOfPragma "acc alpha beta iota gamma").Forest ∧
      wrap 18 "lsm" (wrap 18 "lsm" (bodyOfPragma "acc alpha beta iota gamma") ⟨0⟩) ⟨0⟩ ≠
        wrap 18 "lsm" (bodyOfPragma "acc alpha beta iota gamma") ⟨0⟩ := by
  refine ⟨forest_bodyOfPragma _, fun h ↦ ?_⟩
  have hpieces := (wrap_wrap_eq_iff (forest_bodyOfPragma _) 18 "lsm" ⟨0⟩).1.mp h ⟨1⟩
    (by decide +kernel) "acc alpha" ["beta iota", "gamma"] (by decide +kernel)
  have hfits := hpieces.2 "beta iota" (List.mem_cons_self ..)
  unfold Fits at hfits
  revert hfits
  decide +kernel

end LoopDirectives.Pragma
