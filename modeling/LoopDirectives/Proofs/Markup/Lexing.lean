import Mathlib.Logic.Basic
import LoopDirectives.Proofs.Except
import LoopDirectives.Proofs.Markup.Lexeme

/-!
# Reading a text piece by piece

What the reader has read at any time are complete pieces and the beginning of another one, which its
mode tells (`Pending`), and what it has assembled comes from the tags among the complete pieces
(`Assembles`). Each character keeps this (`Reads.step`). So a text that is read falls into pieces,
and the root is assembled from its tags (`exists_lexed_of_read`).
-/

namespace LoopDirectives.Markup

open List

variable {c : Char} {mark : List Char} {reading : Reading}

/-! ### Marks at the end of a text -/

def trailing (c : Char) (text : List Char) : Nat :=
  (text.reverse.takeWhile (· = c)).length

@[simp] theorem trailing_nil (c : Char) : trailing c [] = 0 := rfl

theorem trailing_concat_self (c : Char) (text : List Char) :
    trailing c (text ++ [c]) = trailing c text + 1 := by
  simp [trailing]

theorem trailing_concat_of_ne {other : Char} (h : other ≠ c) (text : List Char) :
    trailing c (text ++ [other]) = 0 := by
  simp [trailing, h]

theorem two_le_trailing_iff {text : List Char} : 2 ≤ trailing c text ↔ [c, c] <:+ text := by
  rw [trailing, ← reverse_prefix]
  match text.reverse with
  | [] => simp
  | [first] => by_cases hfirst : first = c <;> simp [hfirst]
  | first :: second :: rest =>
    by_cases hfirst : first = c
    · by_cases hsecond : second = c
      · simp [hfirst, hsecond]
      · simp [hfirst, hsecond, Ne.symm hsecond]
    · simp [hfirst, Ne.symm hfirst]

theorem unclosed_nil : Unclosed mark [] := by
  simp [Unclosed]

theorem Unclosed.concat {text : List Char} (h : Unclosed mark text)
    (hclosing : c = '>' → ¬ mark <:+ text) : Unclosed mark (text ++ [c]) := by
  intro hinfix
  rcases infix_concat_iff.mp hinfix with hsuffix | hinfix
  · rcases suffix_concat_iff.mp hsuffix with hnil | ⟨front, heq, hfront⟩
    · simp at hnil
    · obtain ⟨rfl, hc⟩ := append_inj' heq rfl
      exact hclosing (singleton_inj.mp hc).symm hfront
  · exact h hinfix

/-- A text with a doubled mark stays unclosed unless `>` comes after two of the mark. -/
theorem Unclosed.concat_of_not {mark : Char} {text : List Char} (h : Unclosed [mark, mark] text)
    (hclosing : ¬ (c = '>' ∧ 2 ≤ trailing mark text)) : Unclosed [mark, mark] (text ++ [c]) :=
  h.concat fun hc hsuffix ↦ hclosing ⟨hc, two_le_trailing_iff.mpr hsuffix⟩

/-! ### The beginning of a piece -/

theorem openQuote?_concat (text : List Char) (c : Char) :
    openQuote? (text ++ [c]) = quoteAfter (openQuote? text) c := by
  simp [openQuote?]

theorem inTag_nil : InTag [] none :=
  ⟨fun c hc ↦ (by cases hc), rfl, fun before after h ↦ by simp at h⟩

theorem InTag.concat {content : List Char} {quote? : Option Char} (h : InTag content quote?)
    (hstart : content = [] → c ≠ '!' ∧ c ≠ '?') (hquoted : c = '>' → quote? ≠ none) :
    InTag (content ++ [c]) (quoteAfter quote? c) := by
  refine ⟨fun first hfirst ↦ ?_, by rw [openQuote?_concat, h.quote], fun before after heq ↦ ?_⟩
  · cases content with
    | nil =>
      cases hfirst
      exact hstart rfl
    | cons head rest => exact h.start first hfirst
  · rcases eq_nil_or_concat after with rfl | ⟨front, last, rfl⟩
    · obtain ⟨rfl, hc⟩ := append_inj' heq rfl
      rw [h.quote]
      exact hquoted (singleton_inj.mp hc)
    · have hlast : content ++ [c] = before ++ '>' :: front ++ [last] := by
        rw [heq]
        simp
      exact h.quoted before front (append_inj' hlast rfl).1

/-- The characters of a piece that is not complete, with the mode that they lead to. -/
inductive Pending : Mode → List Char → Prop
  | content : Pending .content []
  | reference {name : List Char} (h : ∀ c ∈ name, c ≠ ';' ∧ c ≠ '&' ∧ c ≠ '<') :
      Pending (.reference name) ('&' :: name.reverse)
  | markup : Pending .markup ['<']
  | tag {read : List Char} {quote? : Option Char} (hread : read ≠ [])
      (h : InTag read.reverse quote?) : Pending (.tag read quote?) ('<' :: read.reverse)
  | instruction {read : List Char} (h : Unclosed ['?'] ('?' :: read.reverse)) :
      Pending (.instruction read) ('<' :: '?' :: read.reverse)
  | bang : Pending .bang ['<', '!']
  | dash : Pending .dash ['<', '!', '-']
  | comment {read : List Char} (h : Unclosed ['-', '-'] read) :
      Pending (.comment (trailing '-' read)) ('<' :: '!' :: '-' :: '-' :: read)
  | dataOpening {left read : List Char} (h : read ++ left = "CDATA[".toList) :
      Pending (.dataOpening left) ('<' :: '!' :: '[' :: read)
  | data {read : List Char} (h : Unclosed [']', ']'] read) :
      Pending (.data (trailing ']' read)) ('<' :: '!' :: '[' :: ("CDATA[".toList ++ read))
  | doctype {mode : DoctypeMode} {letter : Char} {read : List Char}
      (hletter : letter = 'D' ∨ letter = 'd')
      (h : ∀ rest, DoctypeText mode rest →
        DoctypeText (.keyword "octype".toList) (read ++ rest)) :
      Pending (.doctype mode) ('<' :: '!' :: letter :: read)

/-! ### What the tags lead to -/

/-- What is assembled from the tags, in order, with any characters in between. -/
inductive Assembles : List Tag → Assembly → Prop
  | nil : Assembles [] {}
  | tag {tags : List Tag} {assembly next : Assembly} {tag : Tag} (h : Assembles tags assembly)
      (htag : assembly.acceptTag tag = .ok next) : Assembles (tags ++ [tag]) next
  | char {tags : List Tag} {assembly : Assembly} (h : Assembles tags assembly) (c : Char) :
      Assembles tags (assembly.acceptChar c)

theorem Assembles.reference {tags : List Tag} {assembly next : Assembly} {name : List Char}
    (h : Assembles tags assembly) (hname : assembly.acceptReference name = .ok next) :
    Assembles tags next := by
  unfold Assembly.acceptReference at hname
  split at hname
  · cases hname
    exact h
  · obtain ⟨c, -, hname⟩ := exists_of_bind_eq_ok hname
    cases hname
    exact h.char c

theorem Assembles.brackets {tags : List Tag} {assembly : Assembly} (h : Assembles tags assembly)
    (brackets : Nat) : Assembles tags (Reading.acceptBrackets assembly brackets) := by
  unfold Reading.acceptBrackets
  induction List.replicate brackets ']' generalizing assembly with
  | nil => exact h
  | cons c rest ih => exact ih (h.char c)

/-- What is read are the complete pieces and a beginning of another one, and what is assembled comes
from the tags among the complete ones. -/
structure ReadsAs (lexemes : List Lexeme) (tags : List Tag) (pending text : List Char)
    (reading : Reading) : Prop where
  text_eq : text = lexemes.flatMap Lexeme.text ++ pending
  wellFormed : ∀ lexeme ∈ lexemes, lexeme.WellFormed
  map_tags : (lexemes.filterMap Lexeme.tagContent?).map Tag.ofContent = tags.map Except.ok
  mode : Pending reading.mode pending
  assembles : Assembles tags reading.assembly

/-- What is read falls into complete pieces and a beginning of another one. -/
def Reads (text : List Char) (reading : Reading) : Prop :=
  ∃ lexemes tags pending, ReadsAs lexemes tags pending text reading

namespace ReadsAs

variable {lexemes : List Lexeme} {tags : List Tag} {pending text : List Char} {reading : Reading}
  {mode : Mode} {assembly : Assembly} {lexeme : Lexeme}
  (reads : ReadsAs lexemes tags pending text reading) {c : Char} {next : Reading}

include reads

theorem more (hmode : Pending mode (pending ++ [c])) (hassembly : Assembles tags assembly) :
    Reads (text ++ [c]) { mode, assembly } :=
  ⟨lexemes, tags, pending ++ [c], by rw [reads.text_eq, append_assoc], reads.wellFormed,
    reads.map_tags, hmode, hassembly⟩

theorem go (hmode : Pending mode (pending ++ [c])) (h : reading.go mode = .ok next) :
    Reads (text ++ [c]) next := by
  cases h
  exact reads.more hmode reads.assembles

section

variable (hlexeme : lexeme.WellFormed) (htext : lexeme.text = pending ++ [c])
  (htag : lexeme.tagContent? = none)

include hlexeme htext htag

theorem complete (hassembly : Assembles tags assembly) :
    Reads (text ++ [c]) { mode := .content, assembly } := by
  refine ⟨lexemes ++ [lexeme], tags, [], ?_, ?_, ?_, .content, hassembly⟩
  · simp [reads.text_eq, htext]
  · exact forall_mem_append.mpr ⟨reads.wellFormed, forall_mem_singleton.mpr hlexeme⟩
  · simpa [htag] using reads.map_tags

theorem close (h : reading.go .content = .ok next) : Reads (text ++ [c]) next := by
  cases h
  exact reads.complete hlexeme htext htag reads.assembles

end

theorem completeTag {content : List Char} (hcontent : InTag content none)
    (hpending : pending = '<' :: content) {tag : Tag} (htag : Tag.ofContent content = .ok tag)
    (hassembly : reading.assembly.acceptTag tag = .ok assembly) :
    Reads (text ++ ['>']) { mode := .content, assembly } := by
  refine ⟨lexemes ++ [.tag content], tags ++ [tag], [], ?_, ?_, ?_, .content,
    reads.assembles.tag hassembly⟩
  · simp [reads.text_eq, hpending, Lexeme.text]
  · exact forall_mem_append.mpr ⟨reads.wellFormed, forall_mem_singleton.mpr hcontent⟩
  · simpa [Lexeme.tagContent?, htag] using reads.map_tags

theorem tagStep {read : List Char} {quote? : Option Char} (hpending : pending = '<' :: read.reverse)
    (hread : InTag read.reverse quote?) (hstart : read = [] → c ≠ '!' ∧ c ≠ '?')
    (h : reading.tagStep read quote? c = .ok next) : Reads (text ++ [c]) next := by
  unfold Reading.tagStep at h
  split at h
  · next hclosing =>
    rw [Bool.and_eq_true, decide_eq_true_eq, Option.isNone_iff_eq_none] at hclosing
    obtain ⟨rfl, rfl⟩ := hclosing
    obtain ⟨tag, htag, h⟩ := exists_of_bind_eq_ok h
    obtain ⟨assembly, hassembly, h⟩ := exists_of_bind_eq_ok h
    cases h
    exact reads.completeTag hread hpending htag hassembly
  · next hopen =>
    have hnext : InTag (c :: read).reverse (quoteAfter quote? c) := by
      rw [reverse_cons]
      exact hread.concat (fun hnil ↦ hstart (reverse_eq_nil_iff.mp hnil))
        fun hc hnone ↦ hopen (by simp [hc, hnone])
    refine reads.go ?_ h
    rw [hpending, cons_append, ← reverse_cons]
    exact .tag (cons_ne_nil c read) hnext

end ReadsAs

/-! ### One more character -/

section Modes

variable {lexemes : List Lexeme} {tags : List Tag} {text read : List Char} {assembly : Assembly}
  {c : Char} {next : Reading}

theorem ReadsAs.content
    (reads : ReadsAs lexemes tags [] text { mode := .content, assembly })
    (h : Reading.step { mode := .content, assembly } c = .ok next) : Reads (text ++ [c]) next := by
  simp only [Reading.step] at h
  split at h
  · next hc =>
    subst hc
    exact reads.go .markup h
  · split at h
    · next hc =>
      subst hc
      exact reads.go (.reference (forall_mem_nil _)) h
    · next hmarkup hreference =>
      cases h
      have hlexeme : (Lexeme.character c).WellFormed := ⟨hmarkup, hreference⟩
      exact reads.complete hlexeme rfl rfl (reads.assembles.char c)

theorem ReadsAs.reference
    (reads : ReadsAs lexemes tags ('&' :: read.reverse) text { mode := .reference read, assembly })
    (hread : ∀ c ∈ read, c ≠ ';' ∧ c ≠ '&' ∧ c ≠ '<')
    (h : Reading.step { mode := .reference read, assembly } c = .ok next) :
    Reads (text ++ [c]) next := by
  simp only [Reading.step] at h
  split at h
  · next hc =>
    subst hc
    obtain ⟨accepted, haccepted, h⟩ := exists_of_bind_eq_ok h
    cases h
    have hlexeme : (Lexeme.reference read.reverse).WellFormed := fun c hc ↦
      hread c (mem_reverse.mp hc)
    exact reads.complete hlexeme rfl rfl (reads.assembles.reference haccepted)
  · split at h
    · cases h
    · next hsemicolon hother =>
      simp only [Bool.or_eq_true, decide_eq_true_eq, not_or] at hother
      have hcons := Pending.reference (forall_mem_cons.mpr ⟨⟨hsemicolon, hother⟩, hread⟩)
      rw [reverse_cons] at hcons
      exact reads.go hcons h

theorem ReadsAs.markup
    (reads : ReadsAs lexemes tags ['<'] text { mode := .markup, assembly })
    (h : Reading.step { mode := .markup, assembly } c = .ok next) : Reads (text ++ [c]) next := by
  simp only [Reading.step] at h
  split at h
  · next hc =>
    subst hc
    exact reads.go .bang h
  · split at h
    · next hc =>
      subst hc
      have hunclosed : Unclosed ['?'] ('?' :: [].reverse) := fun hinfix ↦ by
        simpa using hinfix.length_le
      exact reads.go (.instruction hunclosed) h
    · next hbang hquestion =>
      have hstart : InTag [].reverse none := inTag_nil
      exact reads.tagStep rfl hstart (fun _ ↦ ⟨hbang, hquestion⟩) h

/-- An instruction stays unclosed unless `>` comes after `?`. The one that opens it does not
count. -/
theorem unclosed_instruction (hread : Unclosed ['?'] ('?' :: read.reverse))
    (hnonempty : ¬ (c = '>' ∧ read = [])) (hopen : ¬ (c = '>' ∧ read.head? = some '?')) :
    Unclosed ['?'] ('?' :: (c :: read).reverse) := by
  rw [reverse_cons, ← cons_append]
  refine hread.concat fun hc hsuffix ↦ ?_
  cases read with
  | nil => exact hnonempty ⟨hc, rfl⟩
  | cons last front =>
    rw [reverse_cons, ← cons_append] at hsuffix
    rcases suffix_concat_iff.mp hsuffix with hnil | ⟨_, heq, -⟩
    · cases hnil
    · have hlast : '?' = last := by simpa using congrArg List.getLast? heq
      exact hopen ⟨hc, by rw [hlast]; rfl⟩

theorem ReadsAs.instruction
    (reads : ReadsAs lexemes tags ('<' :: '?' :: read.reverse) text
      { mode := .instruction read, assembly })
    (hread : Unclosed ['?'] ('?' :: read.reverse))
    (h : Reading.step { mode := .instruction read, assembly } c = .ok next) :
    Reads (text ++ [c]) next := by
  simp only [Reading.step] at h
  split at h
  · cases h
  · next hnonempty =>
    split at h
    · next hclosing =>
      rw [Bool.and_eq_true, decide_eq_true_eq, decide_eq_true_eq, head?_eq_some_iff]
        at hclosing
      obtain ⟨rfl, front, rfl⟩ := hclosing
      rw [reverse_cons] at hread
      have hlexeme : (Lexeme.instruction front.reverse).WellFormed := hread
      exact reads.close hlexeme (by simp [Lexeme.text]) rfl h
    · next hopen =>
      have hcons := Pending.instruction
        (unclosed_instruction hread (by simpa using hnonempty) (by simpa using hopen))
      rw [reverse_cons] at hcons
      exact reads.go hcons h

theorem ReadsAs.bang
    (reads : ReadsAs lexemes tags ['<', '!'] text { mode := .bang, assembly })
    (h : Reading.step { mode := .bang, assembly } c = .ok next) : Reads (text ++ [c]) next := by
  simp only [Reading.step] at h
  split at h
  · next hc =>
    subst hc
    exact reads.go .dash h
  · split at h
    · next hc =>
      subst hc
      exact reads.go (.dataOpening rfl) h
    · split at h
      · next hletter =>
        rw [Bool.or_eq_true, decide_eq_true_eq, decide_eq_true_eq] at hletter
        exact reads.go (.doctype hletter fun _ hrest ↦ hrest) h
      · cases h

theorem ReadsAs.dash
    (reads : ReadsAs lexemes tags ['<', '!', '-'] text { mode := .dash, assembly })
    (h : Reading.step { mode := .dash, assembly } c = .ok next) : Reads (text ++ [c]) next := by
  simp only [Reading.step] at h
  split at h
  · next hc =>
    subst hc
    exact reads.go (.comment unclosed_nil) h
  · cases h

theorem ReadsAs.comment
    (reads : ReadsAs lexemes tags ('<' :: '!' :: '-' :: '-' :: read) text
      { mode := .comment (trailing '-' read), assembly })
    (hread : Unclosed ['-', '-'] read)
    (h : Reading.step { mode := .comment (trailing '-' read), assembly } c = .ok next) :
    Reads (text ++ [c]) next := by
  simp only [Reading.step] at h
  split at h
  · next hc =>
    subst hc
    have hmore := Pending.comment (hread.concat_of_not (c := '-') (by simp))
    rw [trailing_concat_self] at hmore
    exact reads.go hmore h
  · next hdash =>
    split at h
    · next hclosing =>
      rw [Bool.and_eq_true, decide_eq_true_eq, decide_eq_true_eq, two_le_trailing_iff] at hclosing
      obtain ⟨rfl, content, rfl⟩ := hclosing
      have hlexeme : (Lexeme.comment content).WellFormed := hread
      exact reads.close hlexeme (by simp [Lexeme.text]) rfl h
    · next hopen =>
      have hmore := Pending.comment (hread.concat_of_not (c := c) (by simpa using hopen))
      rw [trailing_concat_of_ne hdash] at hmore
      exact reads.go hmore h

theorem ReadsAs.dataOpening {left : List Char}
    (reads : ReadsAs lexemes tags ('<' :: '!' :: '[' :: read) text
      { mode := .dataOpening left, assembly })
    (hread : read ++ left = "CDATA[".toList)
    (h : Reading.step { mode := .dataOpening left, assembly } c = .ok next) :
    Reads (text ++ [c]) next := by
  cases left with
  | nil => cases h
  | cons expected left =>
    simp only [Reading.step] at h
    split at h
    · cases h
    · next hc =>
      obtain rfl := not_not.mp hc
      split at h
      · next hlast =>
        rw [List.isEmpty_iff] at hlast
        subst hlast
        have hdata := Pending.data unclosed_nil
        rw [← hread] at hdata
        exact reads.go (by simpa using hdata) h
      · exact reads.go (.dataOpening (by simpa using hread)) h

theorem ReadsAs.data
    (reads : ReadsAs lexemes tags ('<' :: '!' :: '[' :: ("CDATA[".toList ++ read)) text
      { mode := .data (trailing ']' read), assembly })
    (hread : Unclosed [']', ']'] read)
    (h : Reading.step { mode := .data (trailing ']' read), assembly } c = .ok next) :
    Reads (text ++ [c]) next := by
  simp only [Reading.step] at h
  split at h
  · next hc =>
    subst hc
    have hmore := Pending.data (hread.concat_of_not (c := ']') (by simp))
    rw [trailing_concat_self] at hmore
    exact reads.go (by simpa using hmore) h
  · next hbracket =>
    split at h
    · next hclosing =>
      rw [Bool.and_eq_true, decide_eq_true_eq, decide_eq_true_eq, two_le_trailing_iff] at hclosing
      cases h
      have hassembles := reads.assembles.brackets (trailing ']' read - 2)
      obtain ⟨rfl, content, rfl⟩ := hclosing
      have hlexeme : (Lexeme.data content).WellFormed := hread
      exact reads.complete hlexeme (by simp [Lexeme.text]) rfl hassembles
    · next hopen =>
      cases h
      have hmore := Pending.data (hread.concat_of_not (c := c) (by simpa using hopen))
      rw [trailing_concat_of_ne hbracket] at hmore
      exact reads.more (by simpa using hmore) ((reads.assembles.brackets _).char c)

theorem ReadsAs.doctype {mode : DoctypeMode} {letter : Char}
    (reads : ReadsAs lexemes tags ('<' :: '!' :: letter :: read) text
      { mode := .doctype mode, assembly })
    (hletter : letter = 'D' ∨ letter = 'd')
    (hread : ∀ rest, DoctypeText mode rest →
      DoctypeText (.keyword "octype".toList) (read ++ rest))
    (h : Reading.step { mode := .doctype mode, assembly } c = .ok next) :
    Reads (text ++ [c]) next := by
  obtain ⟨mode?, hstep, h⟩ := exists_of_bind_eq_ok h
  cases mode? with
  | none =>
    have hlexeme : (Lexeme.doctype letter (read ++ [c])).WellFormed :=
      ⟨hletter, hread [c] (.last hstep)⟩
    exact reads.close hlexeme rfl rfl h
  | some next =>
    refine reads.go (.doctype hletter fun rest hrest ↦ ?_) h
    show DoctypeText _ (read ++ [c] ++ rest)
    rw [append_assoc]
    exact hread (c :: rest) (.more hstep hrest)

end Modes

/-- One more character keeps the account of what has been read. -/
theorem Reads.step {text : List Char} {next : Reading} (reads : Reads text reading) (c : Char)
    (h : reading.step c = .ok next) : Reads (text ++ [c]) next := by
  obtain ⟨lexemes, tags, pending, reads⟩ := reads
  obtain ⟨mode, assembly⟩ := reading
  cases reads.mode with
  | content => exact reads.content h
  | reference hread => exact reads.reference hread h
  | markup => exact reads.markup h
  | tag hread hstart => exact reads.tagStep rfl hstart (fun hnil ↦ absurd hnil hread) h
  | instruction hread => exact reads.instruction hread h
  | bang => exact reads.bang h
  | dash => exact reads.dash h
  | comment hread => exact reads.comment hread h
  | dataOpening hread => exact reads.dataOpening hread h
  | data hread => exact reads.data hread h
  | doctype hletter hread => exact reads.doctype hletter hread h

theorem Reads.foldlM {text read : List Char} {last : Reading} (reads : Reads read reading)
    (h : text.foldlM Reading.step reading = .ok last) : Reads (read ++ text) last := by
  induction text generalizing read reading with
  | nil =>
    cases h
    rwa [append_nil]
  | cons c rest ih =>
    rw [foldlM_cons] at h
    obtain ⟨next, hnext, h⟩ := exists_of_bind_eq_ok h
    rw [append_cons]
    exact ih (reads.step c hnext) h

/-- A text that is read has lexemes, its tags can be read, and they assemble to the result. -/
theorem exists_lexed_of_read {text : String} {root? : Option Element}
    (h : read text = .ok root?) :
    ∃ lexemes tags, Lexed (Text.dropMark text.toList) lexemes ∧
      (lexemes.filterMap Lexeme.tagContent?).map Tag.ofContent = tags.map Except.ok ∧
      Assembles tags { root? } := by
  obtain ⟨reading, hreading, h⟩ := exists_of_bind_eq_ok h
  have hstart : Reads [] {} :=
    ⟨[], [], [], rfl, forall_mem_nil _, rfl, .content, .nil⟩
  obtain ⟨lexemes, tags, pending, reads⟩ := hstart.foldlM hreading
  obtain ⟨mode, stack, found?⟩ := reading
  have hpending := reads.mode
  have hassembles := reads.assembles
  unfold Reading.finish at h
  dsimp only at h hpending hassembles
  split at h
  · split at h
    · next hstack =>
      cases hpending
      cases h
      rw [List.isEmpty_iff.mp hstack] at hassembles
      refine ⟨lexemes, tags, ⟨?_, reads.wellFormed⟩, reads.map_tags, hassembles⟩
      simpa using reads.text_eq
    · cases h
  all_goals cases h

end LoopDirectives.Markup
