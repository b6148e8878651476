import Mathlib.Data.List.TakeDrop
import LoopDirectives.Document.Edit
import LoopDirectives.Proofs.Directive.Grammar

/-!
# Pragmas that are directives

A pragma says what stands in it before its comment (`Pragma.statement`). It is read as a directive
exactly if that is the text of the directive by the grammar, and passed over exactly if its first
word is not the marker (`Directive.find?_iff_directiveText`).
-/

namespace LoopDirectives

open Text List

/-- What a pragma says: its text up to a comment, which begins at a `!` that is not the first
character, without the white space around it. -/
def Pragma.statement : List Char → List Char
  | [] => []
  | first :: rest => trimBoth (first :: rest.takeWhile (· ≠ '!'))

namespace Directive

variable {marker pragma : String} {directive : Directive}

/-! ### Marker and keyword -/

/-- A marker of directives: not empty, and without white space or the sign of a comment in it. -/
structure IsMarker (marker : String) : Prop where
  nonempty : marker ≠ ""
  chars : ∀ c ∈ marker.toList, isBlank c = false ∧ c ≠ '!'

namespace IsMarker

variable {marker : String} {word : List Char} (hmarker : IsMarker marker)

include hmarker

theorem chars_of_sameLetters (hword : sameLetters (String.ofList word) marker) :
    ∀ c ∈ word, isBlank c = false ∧ c ≠ '!' := by
  refine forall_mem_of_sameLetters (fun c ↦ ?_) hword hmarker.chars
  rw [isBlank_toLower, ne_eq, toLower_eq_iff (by decide)]

theorem ne_nil_of_sameLetters (hword : sameLetters (String.ofList word) marker) :
    word ≠ [] := by
  rintro rfl
  rw [sameLetters_iff, lower, lower, String.ofList_inj] at hword
  exact hmarker.nonempty (String.toList_eq_nil_iff.mp (map_eq_nil_iff.mp hword.symm))

end IsMarker

/-- A text cut into its first word, a keyword and the rest, where the white space between them goes
as far as it can. -/
structure Cut (text word gap keyword after rest : List Char) : Prop where
  text_eq : text = word ++ (gap ++ (keyword ++ (after ++ rest)))
  word : ∀ c ∈ word, (!isBlank c) = true
  gap_head : ∀ c ∈ (gap ++ (keyword ++ (after ++ rest))).head?, (!isBlank c) = false
  gap : AllBlank gap
  keyword_head : ∀ c ∈ (keyword ++ (after ++ rest)).head?, isBlank c = false
  keyword : ∀ c ∈ keyword, (!(isBlank c || c = '(')) = true
  after_head : ∀ c ∈ (after ++ rest).head?, (!(isBlank c || c = '(')) = false
  after : AllBlank after
  rest_head : ∀ c ∈ rest.head?, isBlank c = false

theorem exists_cut (text : List Char) :
    ∃ word gap keyword after rest, Cut text word gap keyword after rest := by
  obtain ⟨word, afterWord, hword, hwordChars, hgapHead⟩ := exists_run (fun c ↦ !isBlank c) text
  obtain ⟨gap, afterGap, rfl, hgap, hkeywordHead⟩ := exists_run isBlank afterWord
  obtain ⟨keyword, tail, rfl, hkeyword, hafterHead⟩ :=
    exists_run (fun c ↦ !(isBlank c || c = '(')) afterGap
  obtain ⟨after, rest, rfl, hafter, hrestHead⟩ := exists_run isBlank tail
  exact ⟨word, gap, keyword, after, rest, hword, hwordChars, hgapHead, hgap, hkeywordHead, hkeyword,
    hafterHead, hafter, hrestHead⟩

namespace Cut

variable {marker : String} {text word gap keyword after rest : List Char} {clauses : List Clause}
  (cut : Cut text word gap keyword after rest)

include cut

theorem parse_eq (hpragma : trimBoth (Pragma.dropComment pragma.toList) = text) :
    parse marker pragma =
      if sameLetters (String.ofList word) marker then
        if keyword.isEmpty then .error (.missingKeyword (String.ofList text))
        else
          match clauses? rest with
          | none => .error (.unbalanced (String.ofList text))
          | some clauses => .ok (some { keyword := lower (String.ofList keyword), clauses })
      else .ok none := by
  obtain ⟨htakeWord, hdropWord⟩ := split_run cut.word cut.gap_head
  obtain ⟨htakeKeyword, hdropKeyword⟩ := split_run cut.keyword cut.after_head
  have htrimGap : trimStart (gap ++ (keyword ++ (after ++ rest))) = keyword ++ (after ++ rest) :=
    (split_run cut.gap cut.keyword_head).2
  have htrimAfter : trimStart (after ++ rest) = rest := (split_run cut.after cut.rest_head).2
  rw [cut.text_eq] at hpragma
  cases hclauses : clauses? rest <;>
    simp only [parse, hpragma, splitKeyword, span_eq_takeWhile_dropWhile, htakeWord, hdropWord,
      htrimGap, htakeKeyword, hdropKeyword, htrimAfter, hclauses, cut.text_eq]

theorem gap_ne_nil (hkeyword : keyword ≠ []) : gap ≠ [] := by
  rintro rfl
  obtain ⟨first, others, rfl⟩ := exists_cons_of_ne_nil hkeyword
  have hblank := cut.gap_head first rfl
  have hkept := cut.keyword first (mem_cons_self ..)
  simp_all

theorem after_ne_nil (hrest : ClausesText rest clauses) : after ≠ [] ∨ rest = [] := by
  by_contra hnot
  push Not at hnot
  obtain ⟨rfl, hne⟩ := hnot
  obtain ⟨first, others, rfl⟩ := exists_cons_of_ne_nil hne
  have hstop := cut.after_head first rfl
  obtain ⟨hblank, hopening, -⟩ := hrest.head first rfl
  simp [hblank, hopening] at hstop

theorem directiveText (hword : sameLetters (String.ofList word) marker)
    (hkeyword : keyword ≠ []) (hrest : ClausesText rest clauses) :
    DirectiveText marker text { keyword := lower (String.ofList keyword), clauses } := by
  have hwritten := DirectiveText.mk hword cut.gap (cut.gap_ne_nil hkeyword)
    ⟨hkeyword, fun c hc ↦ by simpa using cut.keyword c hc⟩ cut.after (cut.after_ne_nil hrest) hrest
  rw [cut.text_eq]
  simpa using hwritten

end Cut

theorem DirectiveText.exists_cut (hmarker : IsMarker marker) {text : List Char}
    (h : DirectiveText marker text directive) :
    ∃ word gap keyword after rest, Cut text word gap keyword after rest ∧
      sameLetters (String.ofList word) marker ∧ keyword ≠ [] ∧
      directive.keyword = lower (String.ofList keyword) ∧
      ClausesText rest directive.clauses := by
  cases h with
  | @mk word gap keyword after rest clauses hword hgap hgapNonempty hkeyword hafter hapart hrest =>
    refine ⟨word, gap, keyword, after, rest, ?_, hword, hkeyword.nonempty, rfl, hrest⟩
    refine ⟨by simp, fun c hc ↦ ?_, fun c hc ↦ ?_, hgap, fun c hc ↦ ?_, fun c hc ↦ ?_,
      fun c hc ↦ ?_, hafter, fun c hc ↦ (hrest.head c hc).1⟩
    · simp [(hmarker.chars_of_sameLetters hword c hc).1]
    · obtain ⟨first, others, rfl⟩ := exists_cons_of_ne_nil hgapNonempty
      cases hc
      simpa using hgap c (mem_cons_self ..)
    · obtain ⟨first, others, rfl⟩ := exists_cons_of_ne_nil hkeyword.nonempty
      cases hc
      exact (hkeyword.chars c (mem_cons_self ..)).1
    · simpa using hkeyword.chars c hc
    · cases after with
      | nil => simp [hapart.resolve_left (fun h ↦ h rfl)] at hc
      | cons first others =>
        cases hc
        simp [hafter c (mem_cons_self ..)]

theorem parse_eq_ok_some_iff (hmarker : IsMarker marker) :
    parse marker pragma = .ok (some directive) ↔
      DirectiveText marker (trimBoth (Pragma.dropComment pragma.toList)) directive := by
  constructor
  · intro h
    obtain ⟨word, gap, keyword, after, rest, cut⟩ :=
      Directive.exists_cut (trimBoth (Pragma.dropComment pragma.toList))
    rw [cut.parse_eq rfl] at h
    split at h
    · next hword =>
      split at h
      · cases h
      · next hkeyword =>
        split at h
        · cases h
        · next clauses hclauses =>
          cases h
          exact cut.directiveText hword (by simpa using hkeyword) (clauses?_eq_some_iff.mp hclauses)
    · cases h
  · intro h
    obtain ⟨word, gap, keyword, after, rest, cut, hword, hkeyword, hlower, hrest⟩ :=
      h.exists_cut hmarker
    rw [cut.parse_eq rfl, if_pos hword, if_neg (by simpa using hkeyword),
      clauses?_eq_some_iff.mpr hrest, ← hlower]

theorem parse_eq_ok_none_iff :
    parse marker pragma = .ok none ↔
      sameLetters (String.ofList (firstWord (trimBoth (Pragma.dropComment pragma.toList)))) marker =
        false := by
  obtain ⟨word, gap, keyword, after, rest, cut⟩ :=
    Directive.exists_cut (trimBoth (Pragma.dropComment pragma.toList))
  have hfirst : firstWord (trimBoth (Pragma.dropComment pragma.toList)) = word := by
    rw [firstWord, trimStart_trimBoth, cut.text_eq, (split_run cut.word cut.gap_head).1]
  rw [cut.parse_eq rfl, hfirst]
  split
  · next hword =>
    simp only [hword, Bool.true_eq_false, iff_false]
    split
    · simp
    · split <;> simp
  · next hword => simpa using hword

end Directive

/-! ### Comments -/

namespace Pragma

theorem statement_eq {text : List Char} (hfirst : text.head? ≠ some '!') :
    statement text = trimBoth (dropComment text) := by
  cases text with
  | nil => rfl
  | cons first rest =>
    have hne : first ≠ '!' := by simpa using hfirst
    have hbefore : (first :: rest).takeWhile (· ≠ '!') = first :: rest.takeWhile (· ≠ '!') := by
      simp [hne]
    rw [statement, dropComment, hbefore]
    split
    · next hall =>
      have hlength : (first :: rest.takeWhile (· ≠ '!')).length = (first :: rest).length := by
        simpa using hall
      rw [← hbefore] at hlength ⊢
      rw [(takeWhile_sublist _).eq_of_length hlength]
    · rw [trimBoth_trimBoth]

theorem head?_of_bang (rest : List Char) :
    (statement ('!' :: rest)).head? = some '!' ∧
      (trimBoth (dropComment ('!' :: rest))).head? = some '!' :=
  ⟨head?_trimBoth rfl _, head?_trimBoth rfl rest⟩

end Pragma

namespace Directive

section

variable {marker : String} (hmarker : IsMarker marker)

include hmarker

theorem not_sameLetters_of_bang {text : List Char} (hhead : text.head? = some '!') :
    sameLetters (String.ofList (firstWord text)) marker = false := by
  obtain ⟨rest, rfl⟩ := head?_eq_some_iff.mp hhead
  by_contra hword
  rw [Bool.not_eq_false] at hword
  refine (hmarker.chars_of_sameLetters hword '!' ?_).2 rfl
  simp [firstWord, trimStart, isBlank]

theorem not_directiveText_of_bang {text : List Char} (hhead : text.head? = some '!')
    (directive : Directive) : ¬ DirectiveText marker text directive := by
  intro h
  obtain ⟨word, gap, keyword, after, rest, cut, hword, -⟩ := h.exists_cut hmarker
  obtain ⟨first, others, rfl⟩ := exists_cons_of_ne_nil (hmarker.ne_nil_of_sameLetters hword)
  rw [cut.text_eq] at hhead
  cases hhead
  exact (hmarker.chars_of_sameLetters hword '!' (mem_cons_self ..)).2 rfl

theorem parse_eq_ok_some_iff_statement (pragma : String) (directive : Directive) :
    parse marker pragma = .ok (some directive) ↔
      DirectiveText marker (Pragma.statement pragma.toList) directive := by
  rw [parse_eq_ok_some_iff hmarker]
  by_cases hbang : pragma.toList.head? = some '!'
  · obtain ⟨rest, hrest⟩ := head?_eq_some_iff.mp hbang
    obtain ⟨hstatement, hcontent⟩ := Pragma.head?_of_bang rest
    rw [hrest]
    exact iff_of_false (not_directiveText_of_bang hmarker hcontent directive)
      (not_directiveText_of_bang hmarker hstatement directive)
  · rw [Pragma.statement_eq hbang]

theorem parse_eq_ok_none_iff_statement (pragma : String) :
    parse marker pragma = .ok none ↔
      sameLetters (String.ofList (firstWord (Pragma.statement pragma.toList))) marker = false := by
  rw [parse_eq_ok_none_iff]
  by_cases hbang : pragma.toList.head? = some '!'
  · obtain ⟨rest, hrest⟩ := head?_eq_some_iff.mp hbang
    obtain ⟨hstatement, hcontent⟩ := Pragma.head?_of_bang rest
    rw [hrest]
    exact iff_of_true (not_sameLetters_of_bang hmarker hcontent)
      (not_sameLetters_of_bang hmarker hstatement)
  · rw [Pragma.statement_eq hbang]

/-- The statement of a pragma is the directive that is written in it, with white space around it and
a comment after it. -/
theorem DirectiveText.statement_around {lead written trail comment : List Char}
    {directive : Directive} (h : DirectiveText marker written directive) (hbang : '!' ∉ written)
    (hlead : AllBlank lead) (htrail : AllBlank trail)
    (hcomment : comment = [] ∨ comment.head? = some '!') :
    Pragma.statement (lead ++ written ++ trail ++ comment) = Text.trimEnd written := by
  have hblank {gap : List Char} (hgap : AllBlank gap) : '!' ∉ gap := fun hmem ↦
    absurd (hgap _ hmem) (by decide)
  have hbefore : ∀ c ∈ lead ++ written ++ trail, decide (c ≠ '!') := by
    rintro c hc
    have hne : c ≠ '!' := by
      rintro rfl
      simp [hblank hlead, hbang, hblank htrail] at hc
    simpa using hne
  have hstop : ∀ c ∈ comment.head?, decide (c ≠ '!') = false := by
    intro c hc
    rcases hcomment with rfl | hhead
    · cases hc
    · cases hhead.symm.trans hc
      rfl
  obtain ⟨word, gap, keyword, after, rest, cut, hword, -⟩ := h.exists_cut hmarker
  obtain ⟨letter, letters, rfl⟩ := exists_cons_of_ne_nil (hmarker.ne_nil_of_sameLetters hword)
  have hstart : trimStart (lead ++ written ++ trail) = written ++ trail := by
    rw [append_assoc, trimStart_append hlead, cut.text_eq]
    refine trimStart_eq_self_iff.mpr fun c hc ↦ ?_
    cases hc
    simpa using cut.word letter (mem_cons_self ..)
  have htrim : trimBoth (lead ++ written ++ trail) = Text.trimEnd written := by
    rw [trimBoth, hstart, trimEnd_append htrail]
  obtain ⟨first, others, hcons⟩ : ∃ first others, lead ++ written ++ trail = first :: others :=
    exists_cons_of_ne_nil (by simp [cut.text_eq])
  rw [hcons] at hbefore htrim ⊢
  rw [cons_append, Pragma.statement,
    (split_run (forall_mem_cons.mp hbefore).2 hstop).1, htrim]

end

theorem find?_of_isKind {marker : String} {doc : Document} {node : NodeId}
    (hkind : doc.isKind node .pragma) :
    find? marker doc node = (parse marker (doc.text node)).map fun directive? ↦
      directive?.map fun directive ↦
        { directive with pragma := node, line := doc.line node } :=
  if_pos hkind

/-- A pragma is read as a directive exactly if its statement, the text before its comment, is a
directive by the grammar; it is passed over exactly if the first word of the statement is not the
marker; otherwise it is faulty. So a directive that is written by the grammar, with any white space
around it and any comment after it, is read back. -/
theorem find?_iff_directiveText {marker : String} (hmarker : IsMarker marker)
    (doc : Document) (node : NodeId) (hkind : doc.isKind node .pragma = true) :
    (∀ directive : PlacedDirective,
      find? marker doc node = .ok (some directive) ↔
        DirectiveText marker (Pragma.statement (doc.text node).toList) directive.toDirective ∧
          directive.pragma = node ∧ directive.line = doc.line node) ∧
    (find? marker doc node = .ok none ↔
      sameLetters (String.ofList (firstWord (Pragma.statement (doc.text node).toList)))
        marker = false) ∧
    ((∃ cause, find? marker doc node = .error cause) ↔
      sameLetters (String.ofList (firstWord (Pragma.statement (doc.text node).toList)))
          marker = true ∧
        ∀ directive,
          ¬ DirectiveText marker (Pragma.statement (doc.text node).toList) directive) ∧
    ∀ (directive : Directive) (lead written trail comment : List Char),
      (doc.text node).toList = lead ++ written ++ trail ++ comment →
      DirectiveText marker written directive → '!' ∉ written → AllBlank lead → AllBlank trail →
      (comment = [] ∨ comment.head? = some '!') →
      find? marker doc node =
        .ok (some { directive with pragma := node, line := doc.line node }) := by
  have hsome := parse_eq_ok_some_iff_statement hmarker (doc.text node)
  have hnone := parse_eq_ok_none_iff_statement hmarker (doc.text node)
  rw [find?_of_isKind hkind]
  refine ⟨fun directive ↦ ?_, ?_, ?_, ?_⟩
  · rw [← hsome]
    constructor
    · intro h
      cases hparse : parse marker (doc.text node) with
      | error cause => simp [hparse, Except.map] at h
      | ok found? =>
        cases found? with
        | none => simp [hparse, Except.map] at h
        | some found =>
          rw [hparse] at h
          cases h
          exact ⟨rfl, rfl, rfl⟩
    · rintro ⟨hparse, rfl, hline⟩
      rw [hparse, ← hline]
      rfl
  · rw [← hnone]
    cases parse marker (doc.text node) with
    | error cause => simp [Except.map]
    | ok found? => cases found? <;> simp [Except.map]
  · rw [← Bool.not_eq_false, ← hnone]
    simp only [← hsome]
    cases parse marker (doc.text node) with
    | error cause => simp [Except.map]
    | ok found? => cases found? <;> simp [Except.map]
  · intro directive lead written trail comment htext hwritten hbang hlead htrail hcomment
    have hstatement := hwritten.statement_around hmarker hbang hlead htrail hcomment
    rw [← htext] at hstatement
    rw [(hsome directive).mpr (hstatement ▸ hwritten.trimEnd)]
    rfl

/-- A pragma with a directive in mixed case, with arguments apart from and next to each other, an
empty one among them, and a comment. -/
def spacedDemotion : Document :=
  (Document.ofElement (.node
    { tag := "FpragmaStatement"
      attributes := [("lineno", "7")]
      text? := some " LSM\tDemote) array ( Tmp)keep(1, ,K L ) Serial ! (note" } [])).1

/-- The grammar tells what the pragma says, though its keyword ends in a parenthesis and its comment
opens one. -/
theorem find?_iff_directiveText_spacedDemotion :
    IsMarker "lsm" ∧ spacedDemotion.isKind ⟨0⟩ .pragma = true ∧
      DirectiveText "lsm" (Pragma.statement (spacedDemotion.text ⟨0⟩).toList)
        { keyword := "demote)"
          clauses := [{ name := "array", arguments := ["Tmp"] },
            { name := "keep", arguments := ["1", "K L"] }, { name := "serial" }] } := by
  have hmarker : IsMarker "lsm" := ⟨by decide, by simp [isBlank]⟩
  have hkind : spacedDemotion.isKind ⟨0⟩ .pragma = true := by decide +kernel
  refine ⟨hmarker, hkind, ?_⟩
  exact (((find?_iff_directiveText hmarker spacedDemotion ⟨0⟩ hkind).1
    { keyword := "demote)"
      clauses := [{ name := "array", arguments := ["Tmp"] },
        { name := "keep", arguments := ["1", "K L"] }, { name := "serial" }]
      pragma := ⟨0⟩
      line := 7 }).mp (by decide +kernel)).1

end Directive

end LoopDirectives
