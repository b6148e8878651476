import Mathlib.Data.List.Basic
import LoopDirectives.Markup.Writer
import LoopDirectives.Proofs.Markup.Escape

/-!
# Written tags read back

A label whose names hold nothing that ends a name or a tag is written as a tag that the reader
takes as a whole (`foldlM_step_head`) and splits into the same tag and attributes
(`labelOf_writeHead`). So a written start tag opens an element with the label, a written empty tag
is an element with the label, and a written end tag closes an element with the label.
-/

namespace LoopDirectives.Markup

open List

variable {done : List (String × String)}

/-! ### Names -/

/-- A character that ends neither a name nor the tag that the name stands in. -/
def isNameChar (c : Char) : Bool :=
  !isSpace c && c != '<' && c != '>' && c != '/' && c != '=' && c != '&' && c != '!' && c != '?' &&
    c != '"' && c != '\''

/-- A name that can be written: not empty and without blanks and characters of markup. -/
def isName (name : String) : Bool :=
  !name.toList.isEmpty && name.toList.all isNameChar

/-- A label whose tag and attribute names can be written and whose attribute names differ. -/
def isWellNamed (label : Label) : Bool :=
  isName label.tag && label.attributes.all (fun entry ↦ isName entry.1) &&
    decide (label.attributes.map Prod.fst).Nodup

theorem isNameChar_iff (c : Char) :
    isNameChar c ↔ isSpace c = false ∧ c ≠ '<' ∧ c ≠ '>' ∧ c ≠ '/' ∧ c ≠ '=' ∧ c ≠ '&' ∧
      c ≠ '!' ∧ c ≠ '?' ∧ c ≠ '"' ∧ c ≠ '\'' := by
  simp [isNameChar, and_assoc]

theorem isName_iff (name : String) :
    isName name ↔ name.toList ≠ [] ∧ ∀ c ∈ name.toList, isNameChar c := by
  simp [isName]

theorem isWellNamed_iff (label : Label) :
    isWellNamed label ↔ isName label.tag ∧
      (∀ entry ∈ label.attributes, isName entry.1) ∧
      (label.attributes.map Prod.fst).Nodup := by
  simp [isWellNamed, and_assoc]

def withoutText (label : Label) : Label :=
  { label with text? := none }

theorem withoutText_of_text?_eq_none {label : Label} (h : label.text? = none) :
    withoutText label = label := by
  cases label
  exact congrArg _ h.symm

/-! ### Attributes -/

theorem foldlM_attribute_name {name : List Char} (hname : ∀ c ∈ name, isNameChar c)
    (done : List (String × String)) (read : List Char) :
    name.foldlM AttributeReading.step { done, mode := .name read } =
      .ok { done, mode := .name (name.reverse ++ read) } := by
  refine foldlM_collect AttributeReading.step (fun read ↦ { done, mode := .name read })
    (fun c hc read ↦ ?_) read
  obtain ⟨hspace, -, -, -, hequals, -⟩ := (isNameChar_iff c).mp (hname c hc)
  simp [AttributeReading.step, hspace, hequals]

theorem foldlM_attribute_value {text : List Char} (htext : ∀ c ∈ text, c ≠ '"')
    (done : List (String × String)) (name : String) (read : List Char) :
    text.foldlM AttributeReading.step { done, mode := .value name '"' read } =
      .ok { done, mode := .value name '"' (text.reverse ++ read) } :=
  foldlM_collect AttributeReading.step (fun read ↦ { done, mode := .value name '"' read })
    (fun c hc read ↦ by simp [AttributeReading.step, htext c hc]) read

theorem foldlM_writeAttribute {entry : String × String} (hname : isName entry.1)
    (hnew : ∀ other ∈ done, other.1 ≠ entry.1) :
    (writeAttribute entry).foldlM AttributeReading.step { done } =
      .ok { done := entry :: done } := by
  obtain ⟨hnonempty, hchars⟩ := (isName_iff entry.1).mp hname
  obtain ⟨first, rest, hsplit⟩ := exists_cons_of_ne_nil hnonempty
  have hchars' : ∀ c ∈ rest, isNameChar c := fun c hc ↦
    hchars c (hsplit ▸ mem_cons_of_mem _ hc)
  have hfirst : isSpace first = false :=
    ((isNameChar_iff first).mp (hchars first (hsplit ▸ mem_cons_self ..))).1
  have hbegin : [' ', first].foldlM AttributeReading.step { done } =
      .ok { done, mode := .name [first] } := by
    have hstep : AttributeReading.step { done } first = .ok { done, mode := .name [first] } := by
      simp [AttributeReading.step, hfirst]
    exact foldlM_cons_of_ok hstep []
  have hequals : ['=', '"'].foldlM AttributeReading.step
      { done, mode := .name (rest.reverse ++ [first]) } =
      .ok { done, mode := .value entry.1 '"' [] } := by
    have hread : String.ofList (rest.reverse ++ [first]).reverse = entry.1 := by
      rw [reverse_append, reverse_reverse]
      change String.ofList (first :: rest) = entry.1
      rw [← hsplit, String.ofList_toList]
    have hnone : (done.any fun other ↦ other.1 == entry.1) = false := by
      simpa using hnew
    have hstep : AttributeReading.step { done, mode := .name (rest.reverse ++ [first]) } '=' =
        .ok { done, mode := .equals entry.1 } := by
      simp only [AttributeReading.step, if_true, hread, AttributeReading.expectValue, hnone,
        Bool.false_eq_true, if_false]
    rw [foldlM_cons_of_ok hstep]
    rfl
  have hend : ['"'].foldlM AttributeReading.step
      { done, mode := .value entry.1 '"' ((escape entry.2.toList).reverse ++ []) } =
      .ok { done := entry :: done } := by
    simp [AttributeReading.step, unescape_escape, bind, Except.bind, pure, Except.pure]
  have hwritten : writeAttribute entry =
      [' ', first] ++ (rest ++ (['=', '"'] ++ (escape entry.2.toList ++ ['"']))) := by
    simp [writeAttribute, hsplit]
  rw [hwritten, foldlM_append_of_ok hbegin,
    foldlM_append_of_ok (foldlM_attribute_name hchars' done [first]), foldlM_append_of_ok hequals,
    foldlM_append_of_ok (foldlM_attribute_value (fun c hc ↦ (ne_of_mem_escape hc).2.2.1) ..), hend]

section

variable {entries : List (String × String)} (hnames : ∀ entry ∈ entries, isName entry.1)
  (hnodup : (entries.map Prod.fst).Nodup)

include hnames hnodup

theorem foldlM_writeAttributes (hnew : ∀ entry ∈ entries, ∀ other ∈ done, other.1 ≠ entry.1) :
    (entries.flatMap writeAttribute).foldlM AttributeReading.step { done } =
      .ok { done := entries.reverse ++ done } := by
  induction entries generalizing done with
  | nil => rfl
  | cons entry rest ih =>
    rw [map_cons, nodup_cons] at hnodup
    have hentry := foldlM_writeAttribute (hnames entry (mem_cons_self ..))
      (hnew entry (mem_cons_self ..))
    rw [flatMap_cons, foldlM_append_of_ok hentry,
      ih (fun later hlater ↦ hnames later (mem_cons_of_mem _ hlater)) hnodup.2]
    · simp
    · intro later hlater other hother
      rcases mem_cons.mp hother with rfl | hdone
      · exact fun heq ↦ hnodup.1 (heq ▸ mem_map_of_mem hlater)
      · exact hnew later (mem_cons_of_mem _ hlater) other hdone

theorem attributes_write : attributes (entries.flatMap writeAttribute) = .ok entries := by
  have hread : (entries.flatMap writeAttribute).foldlM AttributeReading.step {} =
      .ok { done := entries.reverse ++ [] } := foldlM_writeAttributes hnames hnodup (by simp)
  simp [attributes, hread, AttributeReading.finish, bind, Except.bind]

end

/-! ### The content of a tag -/

/-- Assumes: a well-named label. The head written for it is read back, without the text. -/
theorem labelOf_writeHead {label : Label} (hlabel : isWellNamed label) :
    labelOf (writeHead label) = .ok (withoutText label) := by
  obtain ⟨htag, hnames, hnodup⟩ := (isWellNamed_iff label).mp hlabel
  have hchars : ∀ c ∈ label.tag.toList, (!isSpace c) := fun c hc ↦ by
    simp [((isNameChar_iff c).mp (((isName_iff _).mp htag).2 c hc)).1]
  have htake : (label.attributes.flatMap writeAttribute).takeWhile (fun c ↦ !isSpace c) = [] := by
    cases label.attributes with
    | nil => rfl
    | cons entry rest => rfl
  have hdrop : (label.attributes.flatMap writeAttribute).dropWhile (fun c ↦ !isSpace c) =
      label.attributes.flatMap writeAttribute := by
    cases label.attributes with
    | nil => rfl
    | cons entry rest => rfl
  rw [labelOf, writeHead, dropWhile_append_of_pos hchars, hdrop,
    takeWhile_append_of_pos hchars, htake, attributes_write hnames hnodup]
  simp [withoutText, bind, Except.bind, pure, Except.pure]

theorem exists_head_writeHead {label : Label} (hlabel : isWellNamed label) :
    ∃ first rest, writeHead label = first :: rest ∧ isNameChar first := by
  obtain ⟨hnonempty, hchars⟩ := (isName_iff _).mp ((isWellNamed_iff label).mp hlabel).1
  obtain ⟨first, rest, hsplit⟩ := exists_cons_of_ne_nil hnonempty
  refine ⟨first, rest ++ label.attributes.flatMap writeAttribute, ?_, ?_⟩
  · rw [writeHead, hsplit, cons_append]
  · exact hchars first (hsplit ▸ mem_cons_self ..)

theorem getLast?_writeHead_ne {label : Label} (hlabel : isWellNamed label) :
    (writeHead label).getLast? ≠ some '/' := by
  obtain ⟨hnonempty, hchars⟩ := (isName_iff _).mp ((isWellNamed_iff label).mp hlabel).1
  rcases eq_nil_or_concat label.attributes with hnil | ⟨init, last, hconcat⟩
  · -- The tag stands alone, and its last character is one of a name.
    rw [writeHead, hnil, flatMap_nil, append_nil]
    intro hlast
    exact ((isNameChar_iff '/').mp (hchars '/' (mem_of_getLast? hlast))).2.2.2.1 rfl
  · -- The last attribute ends with a quote.
    have hwritten : writeHead label = (label.tag.toList ++ init.flatMap writeAttribute ++
        (' ' :: last.1.toList ++ '=' :: '"' :: escape last.2.toList)) ++ ['"'] := by
      simp [writeHead, hconcat, writeAttribute]
    rw [hwritten, getLast?_concat]
    decide

theorem ofContent_of_head_ne {content : List Char} (hhead : content.head? ≠ some '/') :
    Tag.ofContent content =
      if content.getLast? = some '/' then do return .empty (← labelOf content.dropLast)
      else do return .start (← labelOf content) := by
  unfold Tag.ofContent
  split
  · simp at hhead
  · rfl

theorem ofContent_start {label : Label} (hlabel : isWellNamed label) :
    Tag.ofContent (writeHead label) = .ok (.start (withoutText label)) := by
  obtain ⟨first, rest, hwritten, hfirst⟩ := exists_head_writeHead hlabel
  have hhead : (writeHead label).head? ≠ some '/' := by
    simp [hwritten, ((isNameChar_iff first).mp hfirst).2.2.2.1]
  rw [ofContent_of_head_ne hhead, if_neg (getLast?_writeHead_ne hlabel), labelOf_writeHead hlabel]
  rfl

theorem ofContent_empty {label : Label} (hlabel : isWellNamed label) :
    Tag.ofContent (writeHead label ++ ['/']) = .ok (.empty (withoutText label)) := by
  obtain ⟨first, rest, hwritten, hfirst⟩ := exists_head_writeHead hlabel
  have hhead : (writeHead label ++ ['/']).head? ≠ some '/' := by
    simp [hwritten, ((isNameChar_iff first).mp hfirst).2.2.2.1]
  rw [ofContent_of_head_ne hhead, if_pos getLast?_concat, dropLast_concat,
    labelOf_writeHead hlabel]
  rfl

theorem endName_of_isName {name : String} (hname : isName name) :
    endName name.toList = name.toList := by
  obtain ⟨hnonempty, hchars⟩ := (isName_iff name).mp hname
  have hkeep : name.toList.reverse.dropWhile isSpace = name.toList.reverse := by
    obtain ⟨last, init, hsplit⟩ :=
      exists_cons_of_ne_nil (mt reverse_eq_nil_iff.mp hnonempty)
    have hlast : last ∈ name.toList := mem_reverse.mp (hsplit ▸ mem_cons_self ..)
    rw [hsplit, dropWhile_cons_of_neg]
    simp [((isNameChar_iff last).mp (hchars last hlast)).1]
  unfold endName
  rw [hkeep, reverse_reverse]
  split
  · rfl
  · rfl

theorem ofContent_finish {name : String} (hname : isName name) :
    Tag.ofContent ('/' :: name.toList) = .ok (.finish name) := by
  simp [Tag.ofContent, endName_of_isName hname]

/-! ### Reading a tag -/

namespace Reading

variable {read : List Char} {assembly : Assembly}

theorem step_tag {quote? : Option Char} {c : Char} (hgoes : c ≠ '>' ∨ quote? ≠ none)
    (assembly : Assembly) :
    step { mode := .tag read quote?, assembly } c =
      .ok { mode := .tag (c :: read) (quoteAfter quote? c), assembly } := by
  have hopen : ¬(c = '>' ∧ quote? = none) := by
    rintro ⟨hc, hquote⟩
    exact hgoes.elim (· hc) (· hquote)
  simp [step, tagStep, go, hopen]

theorem foldlM_step_unquoted {text : List Char}
    (htext : ∀ c ∈ text, c ≠ '>' ∧ c ≠ '"' ∧ c ≠ '\'') (assembly : Assembly) (read : List Char) :
    text.foldlM step { mode := .tag read none, assembly } =
      .ok { mode := .tag (text.reverse ++ read) none, assembly } := by
  refine foldlM_collect step (fun read ↦ { mode := .tag read none, assembly })
    (fun c hc read ↦ ?_) read
  obtain ⟨hgt, hquot, hapos⟩ := htext c hc
  rw [step_tag (Or.inl hgt)]
  simp [quoteAfter, hquot, hapos]

theorem foldlM_step_quoted {text : List Char} (htext : ∀ c ∈ text, c ≠ '"')
    (assembly : Assembly) (read : List Char) :
    text.foldlM step { mode := .tag read (some '"'), assembly } =
      .ok { mode := .tag (text.reverse ++ read) (some '"'), assembly } := by
  refine foldlM_collect step (fun read ↦ { mode := .tag read (some '"'), assembly })
    (fun c hc read ↦ ?_) read
  rw [step_tag (Or.inr (Option.some_ne_none _))]
  simp [quoteAfter, htext c hc]

theorem unquoted_of_isNameChar {c : Char} (hc : isNameChar c) :
    c ≠ '>' ∧ c ≠ '"' ∧ c ≠ '\'' := by
  obtain ⟨-, -, hgt, -, -, -, -, -, hquot, hapos⟩ := (isNameChar_iff c).mp hc
  exact ⟨hgt, hquot, hapos⟩

theorem foldlM_step_writeAttribute {entry : String × String} (hname : isName entry.1)
    (assembly : Assembly) (read : List Char) :
    (writeAttribute entry).foldlM step { mode := .tag read none, assembly } =
      .ok { mode := .tag ((writeAttribute entry).reverse ++ read) none, assembly } := by
  have hbegin : ∀ c ∈ ' ' :: entry.1.toList ++ ['='], c ≠ '>' ∧ c ≠ '"' ∧ c ≠ '\'' := by
    intro c hc
    rcases mem_append.mp hc with hc | hc
    · rcases mem_cons.mp hc with rfl | hc
      · decide
      · exact unquoted_of_isNameChar (((isName_iff _).mp hname).2 c hc)
    · rw [mem_singleton.mp hc]
      decide
  have hwritten : writeAttribute entry =
      (' ' :: entry.1.toList ++ ['=']) ++ (['"'] ++ (escape entry.2.toList ++ ['"'])) := by
    simp [writeAttribute]
  have hquote (read : List Char) (quote? after? : Option Char)
      (hafter : quoteAfter quote? '"' = after?) :
      ['"'].foldlM step { mode := .tag read quote?, assembly } =
        .ok { mode := .tag ('"' :: read) after?, assembly } := by
    rw [foldlM_cons_of_ok (step_tag (Or.inl (by decide)) assembly), hafter]
    rfl
  rw [hwritten, foldlM_append_of_ok (foldlM_step_unquoted hbegin assembly read),
    foldlM_append_of_ok (hquote _ none (some '"') rfl),
    foldlM_append_of_ok
      (foldlM_step_quoted (fun c hc ↦ (ne_of_mem_escape hc).2.2.1) assembly _),
    hquote _ (some '"') none rfl]
  simp

theorem foldlM_step_writeAttributes {entries : List (String × String)}
    (hnames : ∀ entry ∈ entries, isName entry.1) (assembly : Assembly) (read : List Char) :
    (entries.flatMap writeAttribute).foldlM step { mode := .tag read none, assembly } =
      .ok { mode := .tag ((entries.flatMap writeAttribute).reverse ++ read) none, assembly } := by
  induction entries generalizing read with
  | nil => rfl
  | cons entry rest ih =>
    rw [flatMap_cons, foldlM_append_of_ok
      (foldlM_step_writeAttribute (hnames entry (mem_cons_self ..)) assembly read),
      ih (fun later hlater ↦ hnames later (mem_cons_of_mem _ hlater))]
    simp

theorem foldlM_step_lt {first : Char} (hbang : first ≠ '!') (hquestion : first ≠ '?')
    (rest : List Char) (assembly : Assembly) :
    ('<' :: first :: rest).foldlM step { assembly } =
      (first :: rest).foldlM step { mode := .tag [] none, assembly } := by
  have hlt : step { assembly } '<' = .ok { mode := .markup, assembly } := rfl
  have hfirst : step { mode := .markup, assembly } first =
      step { mode := .tag [] none, assembly } first := by
    simp [step, hbang, hquestion, tagStep, go]
  rw [foldlM_cons_of_ok hlt, foldlM_cons, foldlM_cons, hfirst]

/-- Assumes: a well-named label. The reader is still within the tag after the head. -/
theorem foldlM_step_head {label : Label} (hlabel : isWellNamed label)
    (assembly : Assembly) :
    ('<' :: writeHead label).foldlM step { assembly } =
      .ok { mode := .tag (writeHead label).reverse none, assembly } := by
  obtain ⟨first, rest, hsplit, hfirst⟩ := exists_head_writeHead hlabel
  obtain ⟨htag, hnames, -⟩ := (isWellNamed_iff label).mp hlabel
  obtain ⟨-, -, -, -, -, -, hbang, hquestion, -, -⟩ := (isNameChar_iff first).mp hfirst
  have hstart : ('<' :: writeHead label).foldlM step { assembly } =
      (writeHead label).foldlM step { mode := .tag [] none, assembly } := by
    rw [hsplit]
    exact foldlM_step_lt hbang hquestion rest assembly
  rw [hstart, writeHead, foldlM_append_of_ok (foldlM_step_unquoted
      (fun c hc ↦ unquoted_of_isNameChar (((isName_iff _).mp htag).2 c hc)) assembly []),
    foldlM_step_writeAttributes hnames]
  simp

theorem foldlM_step_gt (tag : Tag) {after : Assembly}
    (htag : Tag.ofContent read.reverse = .ok tag) (haccept : assembly.acceptTag tag = .ok after) :
    ['>'].foldlM step { mode := .tag read none, assembly } = .ok { assembly := after } := by
  have hstep : step { mode := .tag read none, assembly } '>' = .ok { assembly := after } := by
    simp [step, tagStep, htag, haccept, bind, Except.bind, pure, Except.pure]
  exact foldlM_cons_of_ok hstep []

theorem foldlM_step_start {label : Label} (hlabel : isWellNamed label)
    (hroot : assembly.checkRoot = .ok ()) :
    ('<' :: writeHead label ++ ['>']).foldlM step { assembly } =
      .ok { assembly :=
        { assembly with stack := { label := withoutText label } :: assembly.stack } } := by
  rw [foldlM_append_of_ok (foldlM_step_head hlabel assembly)]
  refine foldlM_step_gt (.start (withoutText label)) ?_ ?_
  · rw [reverse_reverse, ofContent_start hlabel]
  · rw [Assembly.acceptTag, hroot]
    rfl

theorem foldlM_step_empty {label : Label} (hlabel : isWellNamed label)
    (hroot : assembly.checkRoot = .ok ()) :
    ('<' :: writeHead label ++ ['/', '>']).foldlM step { assembly } =
      .ok { assembly := assembly.add (.node (withoutText label) []) } := by
  have hslash : ['/'].foldlM step { mode := .tag (writeHead label).reverse none, assembly } =
      .ok { mode := .tag ('/' :: (writeHead label).reverse) none, assembly } := rfl
  rw [foldlM_append_of_ok (foldlM_step_head hlabel assembly), ← singleton_append,
    foldlM_append_of_ok hslash]
  refine foldlM_step_gt (.empty (withoutText label)) ?_ ?_
  · rw [reverse_cons, reverse_reverse, ofContent_empty hlabel]
  · rw [Assembly.acceptTag, hroot]
    rfl

theorem foldlM_step_end {label : Label} (hlabel : isWellNamed label)
    {innermost : OpenElement} (htag : innermost.label.tag = label.tag)
    (outer : List OpenElement) (root? : Option Element) :
    (writeEnd label).foldlM step { assembly := { stack := innermost :: outer, root? } } =
      .ok { assembly := { stack := outer, root? : Assembly }.add innermost.close } := by
  have hname := ((isWellNamed_iff label).mp hlabel).1
  have hchars : ∀ c ∈ '/' :: label.tag.toList, c ≠ '>' ∧ c ≠ '"' ∧ c ≠ '\'' := by
    intro c hc
    rcases mem_cons.mp hc with rfl | hc
    · decide
    · exact unquoted_of_isNameChar (((isName_iff _).mp hname).2 c hc)
  have hread : ('<' :: '/' :: label.tag.toList).foldlM step
      { assembly := { stack := innermost :: outer, root? } } =
      .ok { mode := .tag ('/' :: label.tag.toList).reverse none
            assembly := { stack := innermost :: outer, root? } } := by
    rw [foldlM_step_lt (by decide) (by decide), foldlM_step_unquoted hchars, append_nil]
  have hsplit : writeEnd label = ('<' :: '/' :: label.tag.toList) ++ ['>'] := rfl
  rw [hsplit, foldlM_append_of_ok hread]
  refine foldlM_step_gt (.finish label.tag) ?_ ?_
  · rw [reverse_reverse, ofContent_finish hname]
  · simp [Assembly.acceptTag, htag]

end Reading

end LoopDirectives.Markup
