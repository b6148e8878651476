import LoopDirectives.Markup.Reader

/-!
# The pieces of a marked-up text

A marked-up text is a sequence of pieces: characters, references, tags, processing instructions,
comments, data sections and document type declarations. Each kind is recognised by how it begins,
and each piece ends where its closing characters stand for the first time, which for a tag is the
first `>` outside of quotes. So a text falls into pieces in one way only (`Lexed.unique`).
-/

namespace LoopDirectives.Markup

open List

variable {one other rest otherRest mark : List Char}

/-- A piece of a marked-up text, given by what stands between its opening and its closing
characters. -/
inductive Lexeme where
  /-- A character of text. -/
  | character (c : Char)
  /-- A reference `&name;`. -/
  | reference (name : List Char)
  /-- A tag `<content>`. -/
  | tag (content : List Char)
  /-- A processing instruction `<?content?>`. -/
  | instruction (content : List Char)
  /-- A comment `<!--content-->`. -/
  | comment (content : List Char)
  /-- A data section `<![CDATA[content]]>`. -/
  | data (content : List Char)
  /-- A document type declaration, with its first letter and all that follows. -/
  | doctype (letter : Char) (rest : List Char)

/-- No `>` follows the mark anywhere in the text. -/
def Unclosed (mark text : List Char) : Prop :=
  ¬ mark ++ ['>'] <:+: text

/-- The quote that is open at the end of the text. -/
def openQuote? (text : List Char) : Option Char :=
  text.foldl quoteAfter none

/-- What can stand in a tag up to a place where the given quote is open: no `>` outside of quotes,
and nothing at the start that makes it an instruction, a comment or a declaration. -/
structure InTag (content : List Char) (quote? : Option Char) : Prop where
  start : ∀ c ∈ content.head?, c ≠ '!' ∧ c ≠ '?'
  quote : openQuote? content = quote?
  quoted : ∀ before after, content = before ++ '>' :: after → openQuote? before ≠ none

/-- A document type declaration from the mode on, which is complete with its last character and not
before. -/
inductive DoctypeText : DoctypeMode → List Char → Prop
  | last {mode : DoctypeMode} {c : Char} (h : mode.step c = .ok none) : DoctypeText mode [c]
  | more {mode next : DoctypeMode} {c : Char} {rest : List Char} (h : mode.step c = .ok (some next))
      (hrest : DoctypeText next rest) : DoctypeText mode (c :: rest)

namespace Lexeme

def text : Lexeme → List Char
  | character c => [c]
  | reference name => '&' :: (name ++ [';'])
  | tag content => '<' :: (content ++ ['>'])
  | instruction content => '<' :: '?' :: (content ++ ['?', '>'])
  | comment content => '<' :: '!' :: '-' :: '-' :: (content ++ ['-', '-', '>'])
  | data content => '<' :: '!' :: '[' :: ("CDATA[".toList ++ content ++ [']', ']', '>'])
  | doctype letter rest => '<' :: '!' :: letter :: rest

/-- The piece ends with its last character and not before, and is of the kind as which it begins. -/
def WellFormed : Lexeme → Prop
  | character c => c ≠ '<' ∧ c ≠ '&'
  | reference name => ∀ c ∈ name, c ≠ ';' ∧ c ≠ '&' ∧ c ≠ '<'
  | tag content => InTag content none
  | instruction content => Unclosed ['?'] ('?' :: content ++ ['?'])
  | comment content => Unclosed ['-', '-'] (content ++ ['-', '-'])
  | data content => Unclosed [']', ']'] (content ++ [']', ']'])
  | doctype letter rest =>
    (letter = 'D' ∨ letter = 'd') ∧ DoctypeText (.keyword "octype".toList) rest

/-- What the piece holds between `<` and `>` if it is a tag. -/
def tagContent? : Lexeme → Option (List Char)
  | tag content => some content
  | _ => none

/-! ### How pieces begin -/

def rank : Lexeme → Nat
  | character _ => 0
  | reference _ => 1
  | tag _ => 2
  | instruction _ => 3
  | comment _ => 4
  | data _ => 5
  | doctype _ _ => 6

/-- The kind of the piece that a text begins with. -/
def rankOf : List Char → Nat
  | '&' :: _ => 1
  | '<' :: '?' :: _ => 3
  | '<' :: '!' :: '-' :: _ => 4
  | '<' :: '!' :: '[' :: _ => 5
  | '<' :: '!' :: _ => 6
  | '<' :: _ => 2
  | _ => 0

theorem rankOf_text_append {lexeme : Lexeme} (h : lexeme.WellFormed) (rest : List Char) :
    rankOf (lexeme.text ++ rest) = lexeme.rank := by
  cases lexeme with
  | character c =>
    simp only [text, singleton_append]
    unfold rankOf
    split <;> simp_all [WellFormed, rank]
  | tag content =>
    cases content with
    | nil => rfl
    | cons c content =>
      have hc := h.start c rfl
      simp only [text, cons_append]
      unfold rankOf
      split <;> simp_all [rank]
  | doctype letter content => rcases h.1 with rfl | rfl <;> rfl
  | reference name => rfl
  | instruction content => rfl
  | comment content => rfl
  | data content => rfl

end Lexeme

/-! ### Where pieces end -/

theorem eq_of_first_stop {stop : Char} {ends : List Char → Prop}
    (h : one ++ stop :: rest = other ++ stop :: otherRest) (hone : ends one) (hother : ends other)
    (hfirst : ∀ before after, one = before ++ stop :: after → ¬ ends before)
    (hotherFirst : ∀ before after, other = before ++ stop :: after → ¬ ends before) :
    one = other := by
  rcases append_eq_append_iff.mp h with ⟨more, hmore, heq⟩ | ⟨more, hmore, heq⟩
  · cases more with
    | nil => simpa using hmore.symm
    | cons c more =>
      obtain ⟨rfl, -⟩ := cons_eq_cons.mp heq
      exact absurd hone (hotherFirst one more hmore)
  · cases more with
    | nil => simpa using hmore
    | cons c more =>
      obtain ⟨rfl, -⟩ := cons_eq_cons.mp heq
      exact absurd hother (hfirst other more hmore)

theorem Unclosed.not_suffix {lead text : List Char} (h : Unclosed mark (lead ++ text)) :
    ∀ before after, text = before ++ '>' :: after → ¬ mark <:+ lead ++ before := by
  rintro before after rfl ⟨front, hfront⟩
  refine h ⟨front, after, ?_⟩
  rw [← append_assoc, hfront]
  simp

theorem Unclosed.eq (lead : List Char) (hone : Unclosed mark (lead ++ (one ++ mark)))
    (hother : Unclosed mark (lead ++ (other ++ mark)))
    (h : one ++ mark ++ '>' :: rest = other ++ mark ++ '>' :: otherRest) : one = other := by
  have hends (text : List Char) : mark <:+ lead ++ (text ++ mark) := ⟨lead ++ text, by simp⟩
  exact append_cancel_right (eq_of_first_stop h (hends one) (hends other) hone.not_suffix
    hother.not_suffix)

theorem DoctypeText.eq {mode : DoctypeMode} (hone : DoctypeText mode one)
    (hother : DoctypeText mode other) (h : one ++ rest = other ++ otherRest) : one = other := by
  induction hone generalizing other with
  | last hlast =>
    cases hother with
    | last _ =>
      obtain ⟨rfl, -⟩ := cons_eq_cons.mp h
      rfl
    | more hmore _ =>
      obtain ⟨rfl, -⟩ := cons_eq_cons.mp h
      cases hlast.symm.trans hmore
  | more hmore _ ih =>
    cases hother with
    | last hlast =>
      obtain ⟨rfl, -⟩ := cons_eq_cons.mp h
      cases hlast.symm.trans hmore
    | more hotherMore hotherRest =>
      obtain ⟨rfl, htail⟩ := cons_eq_cons.mp h
      cases hmore.symm.trans hotherMore
      rw [ih hotherRest htail]

theorem Lexeme.eq_of_text_append {one other : Lexeme} (hone : one.WellFormed)
    (hother : other.WellFormed) (h : one.text ++ rest = other.text ++ otherRest) : one = other := by
  have hrank : one.rank = other.rank := by
    rw [← rankOf_text_append hone rest, h, rankOf_text_append hother otherRest]
  cases one <;> cases other <;> cases hrank
  case character.character => simpa [text] using (cons_eq_cons.mp h).1
  case reference.reference name otherName =>
    have hname {name : List Char} (h : (reference name).WellFormed) :
        ∀ before after, name = before ++ ';' :: after → ¬ True := by
      rintro before after rfl -
      exact (h ';' (by simp)).1 rfl
    simp only [text, cons_append, append_assoc, nil_append, List.cons.injEq,
      true_and] at h
    rw [eq_of_first_stop h trivial trivial (hname hone) (hname hother)]
  case tag.tag content otherContent =>
    simp only [text, cons_append, append_assoc, nil_append, List.cons.injEq,
      true_and] at h
    rw [eq_of_first_stop h hone.quote hother.quote hone.quoted hother.quoted]
  case instruction.instruction content otherContent =>
    rw [Unclosed.eq ['?'] hone hother (by simpa [text] using h)]
  case comment.comment content otherContent =>
    rw [Unclosed.eq [] hone hother (by simpa [text] using h)]
  case data.data content otherContent =>
    rw [Unclosed.eq [] hone hother (by simpa [text] using h)]
  case doctype.doctype letter content otherLetter otherContent =>
    simp only [text, cons_append, List.cons.injEq, true_and] at h
    rw [h.1, DoctypeText.eq hone.2 hother.2 h.2]

/-- The text falls into the pieces. -/
structure Lexed (text : List Char) (lexemes : List Lexeme) : Prop where
  text_eq : text = lexemes.flatMap Lexeme.text
  wellFormed : ∀ lexeme ∈ lexemes, lexeme.WellFormed

theorem Lexeme.text_ne_nil (lexeme : Lexeme) : lexeme.text ≠ [] := by
  cases lexeme <;> exact cons_ne_nil _ _

/-- A text is divided into lexemes in one way only. -/
theorem Lexed.unique {text : List Char} {one other : List Lexeme} (hone : Lexed text one)
    (hother : Lexed text other) : one = other := by
  induction one generalizing text other with
  | nil =>
    cases other with
    | nil => rfl
    | cons lexeme rest =>
      have hnil := hone.text_eq.symm.trans hother.text_eq
      simp [Lexeme.text_ne_nil] at hnil
  | cons lexeme rest ih =>
    cases other with
    | nil =>
      have hnil := hone.text_eq.symm.trans hother.text_eq
      simp [Lexeme.text_ne_nil] at hnil
    | cons otherLexeme otherRest =>
      obtain ⟨hlexeme, hrest⟩ := forall_mem_cons.mp hone.wellFormed
      obtain ⟨hotherLexeme, hotherRest⟩ := forall_mem_cons.mp hother.wellFormed
      have heq := hone.text_eq.symm.trans hother.text_eq
      rw [flatMap_cons, flatMap_cons] at heq
      obtain rfl := Lexeme.eq_of_text_append hlexeme hotherLexeme heq
      rw [ih ⟨rfl, hrest⟩ ⟨append_cancel_left heq, hotherRest⟩]

end LoopDirectives.Markup
