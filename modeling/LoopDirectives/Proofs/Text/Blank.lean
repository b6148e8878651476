import Mathlib.Data.List.DropRight
import Mathlib.Data.List.TakeWhile
import Mathlib.Logic.Basic
import LoopDirectives.Text.Letter
import LoopDirectives.Text.Word

/-!
# Texts without white space at their ends

Trimming a text changes it exactly when it begins or ends with white space
(`trimBoth_eq_self_iff`), so trimming twice is trimming once. A text is what trimming leaves of it
with white space around it (`exists_around_trimBoth`), and nothing else is
(`trimBoth_around`).
-/

namespace LoopDirectives.Text

open List

variable {first : Char} {tail gap : List Char}

theorem takeWhile_trimEnd (text : List Char) :
    (trimEnd text).takeWhile (fun c ↦ !isBlank c) = text.takeWhile fun c ↦ !isBlank c := by
  have hsplit : text = trimEnd text ++ (text.reverse.takeWhile isBlank).reverse := by
    rw [trimEnd, ← reverse_append, takeWhile_append_dropWhile, reverse_reverse]
  have hblank : ((text.reverse.takeWhile isBlank).reverse).takeWhile (fun c ↦ !isBlank c) = [] := by
    cases htail : (text.reverse.takeWhile isBlank).reverse with
    | nil => rfl
    | cons first rest =>
      have hmem : first ∈ text.reverse.takeWhile isBlank :=
        mem_reverse.mp (htail ▸ mem_cons_self ..)
      simp [all_eq_true.mp all_takeWhile first hmem]
  conv_rhs => rw [hsplit, takeWhile_append, hblank, append_nil]
  split
  · next hall => exact (takeWhile_sublist _).eq_of_length hall
  · rfl

theorem trimEnd_initial (text : List Char) : trimEnd text <+: text := by
  have hsuffix : text.reverse.dropWhile isBlank <:+ text.reverse := dropWhile_suffix _
  rw [← reverse_reverse text]
  simpa [trimEnd] using reverse_prefix.mpr hsuffix

theorem isBlank_head_trimBoth {text rest : List Char} (h : trimBoth text = first :: rest) :
    isBlank first = false := by
  obtain ⟨tail, htail⟩ := trimEnd_initial (trimStart text)
  rw [← trimBoth, h, cons_append] at htail
  have hhead := head?_dropWhile_not isBlank text
  rw [← trimStart, ← htail] at hhead
  simpa using hhead

theorem trimStart_trimBoth (text : List Char) : trimStart (trimBoth text) = trimBoth text := by
  cases h : trimBoth text with
  | nil => rfl
  | cons first rest => simp [trimStart, isBlank_head_trimBoth h]

theorem firstWord_eq (text : List Char) :
    firstWord text = (trimBoth text).takeWhile fun c ↦ !isBlank c := by
  rw [trimBoth, takeWhile_trimEnd, firstWord]

theorem mem_of_mem_trimBoth {text : List Char} {c : Char} (h : c ∈ trimBoth text) :
    c ∈ trimStart text :=
  (trimEnd_initial (trimStart text)).subset h

/-! ### Texts that are trimmed already -/

theorem trimStart_eq_self_iff {text : List Char} :
    trimStart text = text ↔ ∀ c ∈ text.head?, isBlank c = false := by
  cases text with
  | nil => simp [trimStart]
  | cons first rest =>
    cases hfirst : isBlank first with
    | false => simp [trimStart, hfirst]
    | true =>
      have hshorter : (rest.dropWhile isBlank).length ≠ (first :: rest).length :=
        Nat.ne_of_lt (Nat.lt_succ_of_le (dropWhile_sublist _).length_le)
      simp only [trimStart, dropWhile_cons_of_pos hfirst, head?_cons]
      simpa [hfirst] using fun heq ↦ hshorter (congrArg List.length heq)

theorem trimEnd_eq_self_iff {text : List Char} :
    trimEnd text = text ↔ ∀ c ∈ text.getLast?, isBlank c = false := by
  rw [← head?_reverse, ← trimStart_eq_self_iff, trimEnd, trimStart, reverse_eq_iff]

/-- A text is trimmed if it neither begins nor ends with white space. -/
theorem trimBoth_eq_self_iff {text : List Char} :
    trimBoth text = text ↔
      (∀ c ∈ text.head?, isBlank c = false) ∧ ∀ c ∈ text.getLast?, isBlank c = false := by
  rw [← trimStart_eq_self_iff, ← trimEnd_eq_self_iff]
  constructor
  · intro h
    have hstart : trimStart text = text := by
      rw [← h]
      exact trimStart_trimBoth text
    exact ⟨hstart, by rwa [trimBoth, hstart] at h⟩
  · rintro ⟨hstart, hend⟩
    rw [trimBoth, hstart, hend]

theorem trimEnd_trimEnd (text : List Char) : trimEnd (trimEnd text) = trimEnd text := by
  rw [trimEnd, trimEnd, reverse_reverse, dropWhile_idempotent]

theorem trimBoth_trimBoth (text : List Char) : trimBoth (trimBoth text) = trimBoth text := by
  conv_lhs => rw [trimBoth, trimStart_trimBoth]
  rw [trimBoth, trimEnd_trimEnd]

theorem firstWord_trimBoth (text : List Char) : firstWord (trimBoth text) = firstWord text := by
  rw [firstWord_eq, firstWord_eq, trimBoth_trimBoth]

/-! ### Runs of characters -/

theorem split_run {p : Char → Bool} {run : List Char} (hrun : ∀ c ∈ run, p c)
    (htail : ∀ c ∈ tail.head?, p c = false) :
    (run ++ tail).takeWhile p = run ∧ (run ++ tail).dropWhile p = tail := by
  rw [takeWhile_append_of_pos hrun, dropWhile_append_of_pos hrun]
  cases tail with
  | nil => simp
  | cons first rest => simp [htail first (by simp)]

theorem exists_run (p : Char → Bool) (text : List Char) :
    ∃ run tail, text = run ++ tail ∧ (∀ c ∈ run, p c) ∧ ∀ c ∈ tail.head?, p c = false := by
  refine ⟨text.takeWhile p, text.dropWhile p, takeWhile_append_dropWhile.symm,
    fun c hc ↦ all_eq_true.mp all_takeWhile c hc, fun c hc ↦ ?_⟩
  have hhead := head?_dropWhile_not p text
  rw [Option.mem_def] at hc
  simpa [hc] using hhead

/-! ### White space around a text -/

def AllBlank (text : List Char) : Prop :=
  ∀ c ∈ text, isBlank c = true

theorem allBlank_nil : AllBlank [] :=
  forall_mem_nil _

/-- The text begins and ends with characters that are not white space. -/
structure IsTrimmed (text : List Char) : Prop where
  head : ∀ c ∈ text.head?, isBlank c = false
  last : ∀ c ∈ text.getLast?, isBlank c = false

theorem trimStart_append (hgap : AllBlank gap) (text : List Char) :
    trimStart (gap ++ text) = trimStart text :=
  dropWhile_append_of_pos hgap

theorem exists_trimStart (text : List Char) :
    ∃ gap, AllBlank gap ∧ text = gap ++ trimStart text := by
  obtain ⟨gap, tail, rfl, hgap, htail⟩ := exists_run isBlank text
  exact ⟨gap, hgap, by rw [trimStart, (split_run hgap htail).2]⟩

theorem trimEnd_append (hgap : AllBlank gap) (text : List Char) :
    trimEnd (text ++ gap) = trimEnd text := by
  rw [trimEnd, reverse_append, dropWhile_append_of_pos, trimEnd]
  exact fun c hc ↦ hgap c (mem_reverse.mp hc)

theorem trimEnd_append_of_ne_nil (htail : trimEnd tail ≠ []) (text : List Char) :
    trimEnd (text ++ tail) = text ++ trimEnd tail := by
  rw [trimEnd, reverse_append, dropWhile_append, if_neg]
  · simp [trimEnd]
  · simpa [trimEnd] using htail

theorem trimEnd_ne_nil {text : List Char} {c : Char} (hmem : c ∈ text)
    (hblank : isBlank c = false) : trimEnd text ≠ [] := by
  rw [trimEnd, ne_eq, reverse_eq_nil_iff, dropWhile_eq_nil_iff]
  exact fun hall ↦ by simp [hall c (mem_reverse.mpr hmem)] at hblank

theorem exists_trimEnd (text : List Char) :
    ∃ gap, AllBlank gap ∧ text = trimEnd text ++ gap := by
  obtain ⟨gap, hgap, hsplit⟩ := exists_trimStart text.reverse
  refine ⟨gap.reverse, fun c hc ↦ hgap c (mem_reverse.mp hc), ?_⟩
  rw [trimEnd, ← reverse_append, ← trimStart, ← hsplit, reverse_reverse]

/-- White space around a trimmed text is cut off. -/
theorem trimBoth_around {lead core trail : List Char} (hlead : AllBlank lead)
    (hcore : IsTrimmed core) (htrail : AllBlank trail) :
    trimBoth (lead ++ core ++ trail) = core := by
  cases core with
  | nil =>
    have hall : AllBlank (lead ++ [] ++ trail) := by
      intro c hc
      simp only [append_nil, mem_append] at hc
      exact hc.elim (hlead c) (htrail c)
    have hnil : trimStart (lead ++ [] ++ trail) = [] := dropWhile_eq_nil_iff.mpr hall
    rw [trimBoth, hnil]
    rfl
  | cons first rest =>
    have hstart : trimStart (first :: rest ++ trail) = first :: rest ++ trail :=
      trimStart_eq_self_iff.mpr hcore.head
    rw [trimBoth, append_assoc, trimStart_append hlead, hstart, trimEnd_append htrail]
    exact trimEnd_eq_self_iff.mpr hcore.last

theorem isTrimmed_trimBoth (text : List Char) : IsTrimmed (trimBoth text) := by
  obtain ⟨hhead, hlast⟩ := trimBoth_eq_self_iff.mp (trimBoth_trimBoth text)
  exact ⟨hhead, hlast⟩

/-- Nothing but white space around a text is cut off. -/
theorem exists_around_trimBoth (text : List Char) :
    ∃ lead trail, AllBlank lead ∧ AllBlank trail ∧ text = lead ++ trimBoth text ++ trail := by
  obtain ⟨lead, hlead, hstart⟩ := exists_trimStart text
  obtain ⟨trail, htrail, hend⟩ := exists_trimEnd (trimStart text)
  refine ⟨lead, trail, hlead, htrail, ?_⟩
  rw [trimBoth, append_assoc, ← hend, ← hstart]

theorem head?_trimBoth (hfirst : isBlank first = false) (rest : List Char) :
    (trimBoth (first :: rest)).head? = some first := by
  have hstart : trimStart (first :: rest) = first :: rest :=
    trimStart_eq_self_iff.mpr fun c hc ↦ Option.mem_some_iff.mp hc ▸ hfirst
  obtain ⟨tail, htail⟩ := trimEnd_initial (first :: rest)
  rw [trimBoth, hstart]
  cases hend : trimEnd (first :: rest) with
  | nil => exact absurd hend (trimEnd_ne_nil (mem_cons_self ..) hfirst)
  | cons other others =>
    rw [hend] at htail
    cases htail
    rfl

/-! ### Letter case -/

theorem toLower_cases (c : Char) : c.toLower = c ∨
    65 ≤ c.toNat ∧ c.toNat ≤ 90 ∧ c.toLower.toNat = c.toNat + 32 := by
  unfold Char.toLower
  split
  · next h =>
    obtain ⟨hlow, hhigh⟩ := h
    have hlow' : 65 ≤ c.val.toNat := by simpa [UInt32.le_iff_toNat_le] using hlow
    have hhigh' : c.val.toNat ≤ 90 := by simpa [UInt32.le_iff_toNat_le] using hhigh
    refine Or.inr ⟨hlow', hhigh', ?_⟩
    have hdistance : ('a'.val - 'A'.val).toNat = 32 := rfl
    change (c.val + ('a'.val - 'A'.val)).toNat = c.val.toNat + 32
    rw [UInt32.toNat_add]
    omega
  · exact Or.inl rfl

theorem isBlank_toLower (c : Char) : isBlank c.toLower = isBlank c := by
  rcases toLower_cases c with heq | ⟨hlow, hhigh, hlower⟩
  · rw [heq]
  · have hletter : ∀ letter : Char, 65 ≤ letter.toNat → letter.toNat ≤ 122 →
        isBlank letter = false := by
      intro letter hlow hhigh
      simp only [isBlank, Bool.or_eq_false_iff, Bool.and_eq_false_iff, decide_eq_false_iff_not,
        beq_eq_false_iff_ne]
      omega
    rw [hletter c.toLower (by omega) (by omega), hletter c hlow (by omega)]

theorem toLower_eq_iff {other : Char} (hother : other.toNat < 65) (c : Char) :
    c.toLower = other ↔ c = other := by
  rcases toLower_cases c with heq | ⟨hlow, hhigh, hlower⟩
  · rw [heq]
  · refine iff_of_false (fun h ↦ ?_) fun h ↦ ?_
    · rw [h] at hlower
      omega
    · rw [h] at hlow
      omega

theorem toLower_toLower (c : Char) : c.toLower.toLower = c.toLower := by
  rcases toLower_cases c with heq | ⟨hlow, -, hlower⟩
  · rw [heq, heq]
  · rcases toLower_cases c.toLower with heq | ⟨-, hhigh, -⟩
    · exact heq
    · omega

theorem lower_lower (text : String) : lower (lower text) = lower text := by
  rw [lower, lower, String.toList_ofList, lowerChars, lowerChars, map_map]
  congr 2
  exact funext toLower_toLower

theorem forall_mem_of_sameLetters {property : Char → Prop}
    (hlower : ∀ c, property c.toLower ↔ property c) {left : List Char} {right : String}
    (h : sameLetters (String.ofList left) right) (hright : ∀ c ∈ right.toList, property c) :
    ∀ c ∈ left, property c := by
  intro c hc
  have hmem : c.toLower ∈ lowerChars right.toList := by
    rw [sameLetters_iff, lower, lower, String.ofList_inj, String.toList_ofList] at h
    exact h ▸ mem_map_of_mem hc
  obtain ⟨other, hother, heq⟩ := mem_map.mp hmem
  exact (hlower c).mp (heq ▸ (hlower other).mpr (hright other hother))

/-! ### Pieces -/

variable {separator : Char} {piece rest : List Char}

theorem pieces_of_notMem (h : separator ∉ piece) : pieces separator piece = [piece] := by
  induction piece with
  | nil => rfl
  | cons first others ih =>
    obtain ⟨hfirst, hothers⟩ := not_or.mp (mt mem_cons.mpr h)
    rw [pieces, if_neg (Ne.symm hfirst), ih hothers]

theorem pieces_append_cons (h : separator ∉ piece) (rest : List Char) :
    pieces separator (piece ++ separator :: rest) = piece :: pieces separator rest := by
  induction piece with
  | nil => simp [pieces]
  | cons first others ih =>
    obtain ⟨hfirst, hothers⟩ := not_or.mp (mt mem_cons.mpr h)
    rw [cons_append, pieces, if_neg (Ne.symm hfirst), ih hothers]

end LoopDirectives.Text
