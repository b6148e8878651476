import LoopDirectives.Directive
import LoopDirectives.Proofs.Text.Blank

/-!
# The grammar of directives

`DirectiveText` says which texts are directives and which directive each of them is, without saying
how to find out: marker, keyword and clauses, with white space where it may or must stand. Arguments
and clauses are read exactly by their part of the grammar (`argumentsText_iff`,
`clauses?_eq_some_iff`). White space at the end makes no difference (`DirectiveText.trimEnd`).
-/

namespace LoopDirectives

open Text List

namespace Directive

variable {piece gap inner rest : List Char} {clauses : List Clause} {clause : Clause}

/-! ### What is written -/

/-- What stands between two commas: white space alone is no argument, everything else is one. -/
inductive ArgumentText : List Char → Option String → Prop
  | blank {gap : List Char} (hgap : AllBlank gap) : ArgumentText gap none
  | argument {lead word trail : List Char} (hlead : AllBlank lead) (hword : IsTrimmed word)
      (hnonempty : word ≠ []) (hcomma : ',' ∉ word) (htrail : AllBlank trail) :
      ArgumentText (lead ++ word ++ trail) (some (String.ofList word))

/-- What stands between two parentheses, with the arguments in it. -/
inductive ArgumentsText : List Char → List String → Prop
  | last {piece : List Char} {argument? : Option String}
      (hpiece : ArgumentText piece argument?) : ArgumentsText piece argument?.toList
  | comma {piece rest : List Char} {argument? : Option String} {arguments : List String}
      (hpiece : ArgumentText piece argument?) (hrest : ArgumentsText rest arguments) :
      ArgumentsText (piece ++ ',' :: rest) (argument?.toList ++ arguments)

/-- A name of a clause: neither empty nor with white space or parentheses in it. -/
structure IsName (name : List Char) : Prop where
  nonempty : name ≠ []
  chars : ∀ c ∈ name, isBlank c = false ∧ c ≠ '(' ∧ c ≠ ')'

/-- Clauses one after the other: a name, and then white space or arguments in parentheses, unless
nothing follows. -/
inductive ClausesText : List Char → List Clause → Prop
  | nil : ClausesText [] []
  | bare {name gap rest : List Char} {clauses : List Clause} (hname : IsName name)
      (hgap : AllBlank gap) (hapart : gap ≠ [] ∨ rest = []) (hrest : ClausesText rest clauses) :
      ClausesText (name ++ gap ++ rest) ({ name := lower (String.ofList name) } :: clauses)
  | applied {name gap inner after rest : List Char} {arguments : List String}
      {clauses : List Clause} (hname : IsName name) (hgap : AllBlank gap)
      (hinner : '(' ∉ inner ∧ ')' ∉ inner) (harguments : ArgumentsText inner arguments)
      (hafter : AllBlank after) (hrest : ClausesText rest clauses) :
      ClausesText (name ++ gap ++ '(' :: inner ++ ')' :: after ++ rest)
        ({ name := lower (String.ofList name), arguments } :: clauses)

/-- A keyword: neither empty nor with white space or an opening parenthesis in it. -/
structure IsKeyword (keyword : List Char) : Prop where
  nonempty : keyword ≠ []
  chars : ∀ c ∈ keyword, isBlank c = false ∧ c ≠ '('

/-- The marker in any letter case, a keyword and clauses, apart from each other by white space. -/
inductive DirectiveText (marker : String) : List Char → Directive → Prop
  | mk {word gap keyword after rest : List Char} {clauses : List Clause}
      (hword : sameLetters (String.ofList word) marker = true) (hgap : AllBlank gap)
      (hgapNonempty : gap ≠ []) (hkeyword : IsKeyword keyword) (hafter : AllBlank after)
      (hapart : after ≠ [] ∨ rest = []) (hrest : ClausesText rest clauses) :
      DirectiveText marker (word ++ gap ++ keyword ++ after ++ rest)
        { keyword := lower (String.ofList keyword), clauses }

/-! ### Arguments -/

def argumentOf? (piece : List Char) : Option String :=
  if (trimBoth piece).isEmpty then none else some (String.ofList (trimBoth piece))

theorem argumentsOf_eq_filterMap (inner : List Char) :
    argumentsOf inner = (pieces ',' inner).filterMap argumentOf? := by
  rw [argumentsOf]
  induction pieces ',' inner with
  | nil => rfl
  | cons piece rest ih =>
    cases hempty : (trimBoth piece).isEmpty with
    | true => simpa [argumentOf?, hempty] using ih
    | false => simpa [argumentOf?, hempty] using ih

theorem argumentsOf_of_notMem (hcomma : ',' ∉ piece) :
    argumentsOf piece = (argumentOf? piece).toList := by
  rw [argumentsOf_eq_filterMap, pieces_of_notMem hcomma]
  cases hargument : argumentOf? piece <;> simp [hargument]

theorem argumentsOf_append_cons (hcomma : ',' ∉ piece) (rest : List Char) :
    argumentsOf (piece ++ ',' :: rest) = (argumentOf? piece).toList ++ argumentsOf rest := by
  rw [argumentsOf_eq_filterMap, pieces_append_cons hcomma, argumentsOf_eq_filterMap]
  cases hargument : argumentOf? piece <;> simp [hargument]

theorem argumentText_argumentOf? (hcomma : ',' ∉ piece) :
    ArgumentText piece (argumentOf? piece) := by
  obtain ⟨lead, trail, hlead, htrail, hsplit⟩ := exists_around_trimBoth piece
  unfold argumentOf?
  split
  · next hempty =>
    rw [List.isEmpty_iff] at hempty
    rw [hempty, append_nil] at hsplit
    rw [hsplit]
    exact .blank fun c hc ↦ (mem_append.mp hc).elim (hlead c) (htrail c)
  · next hsome =>
    rw [List.isEmpty_iff] at hsome
    have hword : ',' ∉ trimBoth piece := by
      intro hmem
      rw [hsplit] at hcomma
      simp [hmem] at hcomma
    have hwritten := ArgumentText.argument hlead (isTrimmed_trimBoth piece) hsome hword htrail
    rwa [← hsplit] at hwritten

theorem notMem_comma_of_allBlank (hgap : AllBlank gap) : ',' ∉ gap :=
  fun hmem ↦ absurd (hgap _ hmem) (by decide)

theorem ArgumentText.eq_argumentOf? {argument? : Option String} (h : ArgumentText piece argument?) :
    ',' ∉ piece ∧ argument? = argumentOf? piece := by
  cases h with
  | blank hgap =>
    have hnil : trimBoth piece = [] := by
      rw [trimBoth, trimStart, dropWhile_eq_nil_iff.mpr hgap]
      rfl
    exact ⟨notMem_comma_of_allBlank hgap, by simp [argumentOf?, hnil]⟩
  | @argument lead word trail hlead hword hnonempty hcomma htrail =>
    refine ⟨?_, ?_⟩
    · simp [notMem_comma_of_allBlank hlead, hcomma, notMem_comma_of_allBlank htrail]
    · rw [argumentOf?, trimBoth_around hlead hword htrail, if_neg (by simpa using hnonempty)]

theorem argumentsText_argumentsOf (inner : List Char) :
    ArgumentsText inner (argumentsOf inner) := by
  induction hlength : inner.length using Nat.strong_induction_on generalizing inner with
  | _ length ih =>
    subst hlength
    by_cases hcomma : ',' ∈ inner
    · obtain ⟨piece, rest, rfl, hpiece⟩ := eq_append_cons_of_mem hcomma
      rw [argumentsOf_append_cons hpiece]
      refine .comma (argumentText_argumentOf? hpiece) (ih rest.length ?_ rest rfl)
      rw [length_append, length_cons]
      omega
    · rw [argumentsOf_of_notMem hcomma]
      exact .last (argumentText_argumentOf? hcomma)

/-- The grammar of arguments says what the splitter computes. -/
theorem argumentsText_iff {arguments : List String} :
    ArgumentsText inner arguments ↔ arguments = argumentsOf inner := by
  refine ⟨fun h ↦ ?_, fun h ↦ h ▸ argumentsText_argumentsOf inner⟩
  induction h with
  | last hpiece =>
    obtain ⟨hcomma, rfl⟩ := hpiece.eq_argumentOf?
    exact (argumentsOf_of_notMem hcomma).symm
  | comma hpiece hrest ih =>
    obtain ⟨hcomma, rfl⟩ := hpiece.eq_argumentOf?
    rw [argumentsOf_append_cons hcomma, ih]

/-! ### Clauses -/

theorem inName_iff {c : Char} : inName c ↔ isBlank c = false ∧ c ≠ '(' ∧ c ≠ ')' := by
  simp [inName, and_assoc]

theorem IsName.inName {name : List Char} (hname : IsName name) : ∀ c ∈ name, inName c :=
  fun c hc ↦ inName_iff.mpr (hname.chars c hc)

theorem inName_head_of_allBlank (hgap : AllBlank gap) (tail : List Char)
    (hapart : gap ≠ [] ∨ ∀ c ∈ tail.head?, Directive.inName c = false) :
    ∀ c ∈ (gap ++ tail).head?, Directive.inName c = false := by
  cases gap with
  | nil => simpa using hapart
  | cons first rest => simp [Directive.inName, hgap first (mem_cons_self ..)]

theorem ClausesText.head {text : List Char} (h : ClausesText text clauses) :
    ∀ c ∈ text.head?, isBlank c = false ∧ c ≠ '(' ∧ c ≠ ')' := by
  have hcons {name tail : List Char} (hname : IsName name) :
      ∀ c ∈ (name ++ tail).head?, isBlank c = false ∧ c ≠ '(' ∧ c ≠ ')' := by
    obtain ⟨first, others, rfl⟩ := exists_cons_of_ne_nil hname.nonempty
    intro c hc
    rw [cons_append, head?_cons, Option.mem_some_iff] at hc
    exact hname.chars c (hc ▸ mem_cons_self ..)
  cases h with
  | nil => simp
  | bare hname =>
    rw [append_assoc]
    exact hcons hname
  | applied hname =>
    simp only [append_assoc]
    exact hcons hname

theorem ClausesText.trimStart_eq {text : List Char} (h : ClausesText text clauses) :
    trimStart text = text :=
  trimStart_eq_self_iff.mpr fun c hc ↦ (h.head c hc).1

theorem nextClause?_bare {name : List Char} (hname : IsName name) (hgap : AllBlank gap)
    (hapart : gap ≠ [] ∨ rest = []) (hrest : ClausesText rest clauses) :
    nextClause? (name ++ gap ++ rest) =
      some ({ name := lower (String.ofList name) }, rest) := by
  obtain ⟨first, others, rfl⟩ := exists_cons_of_ne_nil hname.nonempty
  have hafter : ∀ c ∈ (gap ++ rest).head?, Directive.inName c = false :=
    inName_head_of_allBlank hgap rest (hapart.imp_right fun hnil ↦ by simp [hnil])
  obtain ⟨htake, hdrop⟩ := split_run hname.inName hafter
  have htrim : trimStart (gap ++ rest) = rest := by
    rw [trimStart_append hgap, hrest.trimStart_eq]
  rw [append_assoc]
  unfold nextClause?
  rw [htake, hdrop, htrim]
  dsimp only
  split
  · next inner hinner => exact absurd rfl (hrest.head '(' (by simp)).2.1
  · rfl

theorem nextClause?_applied {name after : List Char} (hname : IsName name) (hgap : AllBlank gap)
    (hinner : '(' ∉ inner ∧ ')' ∉ inner) (hafter : AllBlank after)
    (hrest : ClausesText rest clauses) :
    nextClause? (name ++ gap ++ '(' :: inner ++ ')' :: after ++ rest) =
      some ({ name := lower (String.ofList name), arguments := argumentsOf inner }, rest) := by
  obtain ⟨first, others, rfl⟩ := exists_cons_of_ne_nil hname.nonempty
  obtain ⟨htake, hdrop⟩ := split_run hname.inName (inName_head_of_allBlank hgap
    ('(' :: (inner ++ ')' :: (after ++ rest))) (Or.inr (by simp [Directive.inName])))
  have htrim : trimStart (gap ++ '(' :: (inner ++ ')' :: (after ++ rest))) =
      '(' :: (inner ++ ')' :: (after ++ rest)) := by
    rw [trimStart_append hgap]
    exact trimStart_eq_self_iff.mpr fun c hc ↦ Option.mem_some_iff.mp hc ▸ rfl
  have hclose : ∀ c ∈ inner, decide (c ≠ ')') := by
    intro c hc
    simpa using fun heq : c = ')' ↦ hinner.2 (heq ▸ hc)
  have hstop : ∀ c ∈ (')' :: (after ++ rest)).head?, decide (c ≠ ')') = false :=
    fun c hc ↦ Option.mem_some_iff.mp hc ▸ rfl
  obtain ⟨hbetween, htail⟩ := split_run hclose hstop
  have hwritten : first :: others ++ gap ++ '(' :: inner ++ ')' :: after ++ rest =
      first :: others ++ (gap ++ '(' :: (inner ++ ')' :: (after ++ rest))) := by
    simp
  rw [hwritten]
  unfold nextClause?
  rw [htake, hdrop, htrim]
  simp only [hbetween, htail]
  rw [if_neg (by simpa using hinner.1), trimStart_append hafter, hrest.trimStart_eq]

/-- What the first clause of a text is made of. White space follows a bare name unless the text ends
there or a closing parenthesis follows. -/
theorem exists_of_nextClause? {text : List Char} (h : nextClause? text = some (clause, rest)) :
    ∃ name gap, IsName name ∧ AllBlank gap ∧
      (clause = { name := lower (String.ofList name) } ∧ text = name ++ gap ++ rest ∧
          (gap ≠ [] ∨ rest = [] ∨ rest.head? = some ')') ∨
        ∃ inner after, ('(' ∉ inner ∧ ')' ∉ inner) ∧ AllBlank after ∧
          clause = { name := lower (String.ofList name), arguments := argumentsOf inner } ∧
          text = name ++ gap ++ '(' :: inner ++ ')' :: after ++ rest) := by
  obtain ⟨name, tail, rfl, hname, htail⟩ := exists_run Directive.inName text
  obtain ⟨gap, afterGap, rfl, hgap, hafterGap⟩ := exists_run isBlank tail
  obtain ⟨htake, hdrop⟩ := split_run hname htail
  unfold nextClause? at h
  rw [htake, hdrop, trimStart, (split_run hgap hafterGap).2] at h
  cases name with
  | nil => cases h
  | cons first others =>
    refine ⟨first :: others, gap, ⟨cons_ne_nil _ _, fun c hc ↦ inName_iff.mp (hname c hc)⟩,
      hgap, ?_⟩
    dsimp only at h
    split at h
    · next inner =>
      obtain ⟨between, closed, rfl, hbetween, hclosed⟩ := exists_run (· ≠ ')') inner
      obtain ⟨htakeInner, hdropInner⟩ := split_run hbetween hclosed
      rw [htakeInner, hdropInner] at h
      split at h
      · cases h
      · next closing afterClosing =>
        split at h
        · cases h
        · next hopening =>
          cases h
          obtain ⟨after, hafter, hrest⟩ := exists_trimStart afterClosing
          have hclosing : closing = ')' := by simpa using hclosed closing rfl
          refine Or.inr ⟨between, after, ⟨by simpa using hopening, fun hmem ↦ ?_⟩, hafter, rfl, ?_⟩
          · simpa using hbetween _ hmem
          · have hwritten : ')' :: after ++ trimStart afterClosing = ')' :: afterClosing := by
              rw [cons_append, ← hrest]
            rw [hclosing, append_assoc _ (')' :: after), hwritten]
            simp
    · next hopening =>
      cases h
      refine Or.inl ⟨rfl, by simp, ?_⟩
      cases gap with
      | cons => exact Or.inl (cons_ne_nil _ _)
      | nil =>
        cases rest with
        | nil => exact Or.inr (Or.inl rfl)
        | cons c others =>
          -- Neither of a name nor white space nor an opening parenthesis.
          have hother : inName c = false := htail c rfl
          have hblank : isBlank c = false := hafterGap c rfl
          have hopen : c ≠ '(' := fun heq ↦ hopening others (by rw [heq])
          simp only [inName, hblank, hopen] at hother
          simpa using hother

theorem clauses?_of_nextClause? {text : List Char} (h : nextClause? text = some (clause, rest)) :
    clauses? text = (clauses? rest).map (clause :: ·) := by
  have hlength := nextClause?_length_lt h
  rw [clauses?, if_neg]
  · split
    · next hnone => cases hnone.symm.trans h
    · next hsome =>
      cases hsome.symm.trans h
      rfl
  · rw [List.isEmpty_iff]
    rintro rfl
    exact absurd hlength (Nat.not_lt_zero _)

/-- The reader of clauses accepts exactly the grammar, with the same clauses. -/
theorem clauses?_eq_some_iff {text : List Char} :
    clauses? text = some clauses ↔ ClausesText text clauses := by
  constructor
  · intro h
    induction hlength : text.length using Nat.strong_induction_on generalizing text clauses with
    | _ length ih =>
      subst hlength
      rw [clauses?] at h
      split at h
      · next hempty =>
        cases h
        rw [List.isEmpty_iff.mp hempty]
        exact .nil
      · split at h
        · cases h
        · next clause rest hnext =>
          obtain ⟨others, hothers, rfl⟩ := Option.map_eq_some_iff.mp h
          have hrest := ih rest.length (nextClause?_length_lt hnext) hothers rfl
          obtain ⟨name, gap, hname, hgap, hbare | happlied⟩ := exists_of_nextClause? hnext
          · obtain ⟨rfl, rfl, hapart⟩ := hbare
            refine .bare hname hgap (hapart.imp_right ?_) hrest
            rintro (hnil | hclosing)
            · exact hnil
            · exact absurd rfl (hrest.head ')' hclosing).2.2
          · obtain ⟨inner, after, hinner, hafter, rfl, rfl⟩ := happlied
            exact .applied hname hgap hinner (argumentsText_argumentsOf inner) hafter hrest
  · intro h
    induction h with
    | nil => simp [clauses?]
    | bare hname hgap hapart hrest ih =>
      rw [clauses?_of_nextClause? (nextClause?_bare hname hgap hapart hrest), ih, Option.map_some]
    | applied hname hgap hinner harguments hafter hrest ih =>
      rw [clauses?_of_nextClause? (nextClause?_applied hname hgap hinner hafter hrest), ih,
        Option.map_some, ← argumentsText_iff.mp harguments]

/-! ### White space at the end -/

theorem IsName.trimEnd_eq {name : List Char} (hname : IsName name) : trimEnd name = name :=
  trimEnd_eq_self_iff.mpr fun c hc ↦ (hname.chars c (mem_of_mem_getLast? hc)).1

/-- White space after the clauses can be cut off. -/
theorem ClausesText.trimEnd {text : List Char} (h : ClausesText text clauses) :
    ClausesText (Text.trimEnd text) clauses := by
  induction h with
  | nil => exact .nil
  | @bare name gap rest clauses hname hgap hapart hrest ih =>
    cases rest with
    | nil =>
      rw [append_nil, trimEnd_append hgap, hname.trimEnd_eq]
      simpa using ClausesText.bare hname allBlank_nil (Or.inr rfl) hrest
    | cons first others =>
      have hsome := trimEnd_ne_nil (mem_cons_self (a := first) (l := others))
        (hrest.head first rfl).1
      rw [trimEnd_append_of_ne_nil hsome]
      exact .bare hname hgap (hapart.imp_right fun h ↦ absurd h (cons_ne_nil _ _)) ih
  | @applied name gap inner after rest arguments clauses hname hgap hinner harguments hafter hrest
      ih =>
    cases rest with
    | nil =>
      have hclosed := ClausesText.applied hname hgap hinner harguments allBlank_nil hrest
      have hlast : Text.trimEnd [')'] = [')'] := rfl
      have hsplit : name ++ gap ++ '(' :: inner ++ ')' :: after ++ [] =
          name ++ gap ++ '(' :: inner ++ [')'] ++ after := by simp
      rw [hsplit, trimEnd_append hafter, trimEnd_append_of_ne_nil (by simp [hlast]), hlast]
      simpa using hclosed
    | cons first others =>
      have hsome := trimEnd_ne_nil (mem_cons_self (a := first) (l := others))
        (hrest.head first rfl).1
      rw [trimEnd_append_of_ne_nil hsome]
      exact .applied hname hgap hinner harguments hafter ih

/-- White space after a directive can be cut off. -/
theorem DirectiveText.trimEnd {marker : String} {text : List Char}
    {directive : Directive} (h : DirectiveText marker text directive) :
    DirectiveText marker (Text.trimEnd text) directive := by
  cases h with
  | @mk word gap keyword after rest clauses hword hgap hgapNonempty hkeyword hafter hapart hrest =>
    cases rest with
    | nil =>
      have hlast : Text.trimEnd keyword = keyword := trimEnd_eq_self_iff.mpr fun c hc ↦
        (hkeyword.chars c (mem_of_mem_getLast? hc)).1
      have hwritten := DirectiveText.mk hword hgap hgapNonempty hkeyword allBlank_nil
        (Or.inr rfl) hrest
      rw [append_nil, trimEnd_append hafter, trimEnd_append_of_ne_nil, hlast]
      · simpa using hwritten
      · rw [hlast]
        exact hkeyword.nonempty
    | cons first others =>
      have hsome := trimEnd_ne_nil (mem_cons_self (a := first) (l := others))
        (hrest.head first rfl).1
      rw [trimEnd_append_of_ne_nil hsome]
      exact .mk hword hgap hgapNonempty hkeyword hafter
        (hapart.imp_right fun h ↦ absurd h (cons_ne_nil _ _)) hrest.trimEnd

end Directive

end LoopDirectives
