import LoopDirectives.Proofs.Expression.Reader

/-!
# Terms and their texts

A term is an expression of operators over words, without the attributes of its elements. Its text
shows an expression with parentheses (`Term.grouping`): the text of an element is that of the
grouping of its term (`text_written`), and the reader finds that grouping in the text
(`readGrouping_text`).
-/

namespace LoopDirectives

open List

variable {operator : UnaryOperator}

/-! ### Operators that yield -/

namespace BinaryOperator

variable {operator next inner : BinaryOperator}

theorem precedence_le_power (operator : BinaryOperator) :
    operator.precedence ≤ power.precedence := by
  cases operator <;> decide

theorem yields_iff :
    operator.yields next ↔ next = power ∨ operator.precedence < next.precedence := by
  simp only [yields, Bool.or_eq_true, decide_eq_true_eq, Bool.and_eq_true, beq_iff_eq]
  constructor
  · rintro (h | h)
    · exact .inr h
    · exact .inl h.2
  · rintro (rfl | h)
    · exact (Nat.lt_or_eq_of_le (precedence_le_power operator)).imp id fun h ↦ ⟨h, rfl⟩
    · exact .inl h

theorem yields_eq_false_iff :
    operator.yields next = false ↔ next ≠ power ∧ next.precedence ≤ operator.precedence := by
  rw [← Bool.not_eq_true, yields_iff, not_or, Nat.not_lt]

theorem yields_of_yields (h : operator.yields next) (hinner : inner.yields next = false) :
    operator.yields inner := by
  obtain ⟨hpower, hle⟩ := yields_eq_false_iff.mp hinner
  have hlt := (yields_iff.mp h).resolve_left hpower
  exact yields_iff.mpr (.inr (by omega))

theorem not_yields_of_yields (h : operator.yields next = false)
    (hinner : operator.yields inner) : inner.yields next = false := by
  obtain ⟨hpower, hle⟩ := yields_eq_false_iff.mp h
  refine yields_eq_false_iff.mpr ⟨hpower, ?_⟩
  obtain rfl | hlt := yields_iff.mp hinner
  · exact precedence_le_power next
  · omega

theorem ofSymbol?_eq_none {word : List Char}
    (h : ∀ operator : BinaryOperator, word ≠ operator.symbol.toList) : ofSymbol? word = none := by
  refine find?_eq_none.mpr fun operator _ hsymbol ↦ ?_
  exact h operator (beq_iff_eq.mp hsymbol).symm

end BinaryOperator

theorem UnaryOperator.yields_of_yields {next inner : BinaryOperator}
    (h : operator.yields next) (hinner : inner.yields next = false) :
    operator.yields inner := by
  have hle := (BinaryOperator.yields_eq_false_iff.mp hinner).2
  simp only [yields, decide_eq_true_eq] at h ⊢
  omega

theorem UnaryOperator.eq_symbol_of_ofSymbol? {word : List Char}
    (h : ofSymbol? word = some operator) : word = operator.symbol := by
  have hsymbol := find?_some h
  exact (beq_iff_eq.mp hsymbol).symm

namespace Expression

open Text

variable {rest : List Char} {c : Char} {frames : List Frame}

theorem needsParentheses_left (inner operator : BinaryOperator) :
    needsParentheses (.binary inner) (.binary operator) false = inner.yields operator := by
  cases inner <;> cases operator <;> rfl

theorem needsParentheses_right (inner operator : BinaryOperator) :
    needsParentheses (.binary inner) (.binary operator) true = !operator.yields inner := by
  cases inner <;> cases operator <;> rfl

theorem needsParentheses_sign (inner : BinaryOperator) (operator : UnaryOperator) :
    needsParentheses (.binary inner) (.binary operator.level) false = !operator.yields inner := by
  cases inner <;> cases operator <;> rfl

/-! ### Terms -/

inductive Term where
  | leaf (word : List Char)
  | unary (operator : UnaryOperator) (operand : Term)
  | binary (operator : BinaryOperator) (left right : Term)
  deriving DecidableEq

/-- The element is an expression with this term: binary operators with two operands, unary ones with
one, and variables and constants with nothing below them. -/
inductive Spells : Element → Term → Prop
  | leaf (label : Label) (hkind : label.kind = .var ∨ ∃ type, label.kind = .constant type) :
      Spells (.node label []) (.leaf label.text.toList)
  | unary (label : Label) (operator : UnaryOperator) (hkind : label.kind = operator.kind)
      {element : Element} {term : Term} (h : Spells element term) :
      Spells (.node label [element]) (.unary operator term)
  | binary (label : Label) (operator : BinaryOperator) (hkind : label.kind = .binary operator)
      {left right : Element} {first second : Term} (hleft : Spells left first)
      (hright : Spells right second) :
      Spells (.node label [left, right]) (.binary operator first second)

def Grouping.enclose (enclosed : Bool) (grouping : Grouping) : Grouping :=
  if enclosed then .group grouping else grouping

namespace Term

/-- Whether the term stands in parentheses as an operand. -/
def enclosed (operator : BinaryOperator) (right : Bool) : Term → Bool
  | binary inner _ _ => needsParentheses (.binary inner) (.binary operator) right
  | _ => false

def grouping : Term → Grouping
  | leaf word => .leaf word
  | unary operator operand =>
    .unary operator (.enclose (operand.enclosed operator.level false) operand.grouping)
  | binary operator left right =>
    (Grouping.enclose (left.enclosed operator false) left.grouping).attach operator
      (.enclose (right.enclosed operator true) right.grouping)

def element : Term → Element
  | leaf word => .node { tag := Kind.var.tag, text? := some (String.ofList word) } []
  | unary operator operand => .node { tag := operator.kind.tag } [operand.element]
  | binary operator left right =>
    .node { tag := (Kind.binary operator).tag } [left.element, right.element]

theorem spells_element (term : Term) : Spells term.element term := by
  induction term with
  | leaf word =>
    have h := Spells.leaf { tag := Kind.var.tag, text? := some (String.ofList word) }
      (.inl (Kind.ofTag_tag .var))
    rwa [Label.text, Option.getD_some, String.toList_ofList] at h
  | unary operator operand ih =>
    exact .unary { tag := operator.kind.tag } operator (Kind.ofTag_tag operator.kind) ih
  | binary operator left right ihleft ihright =>
    exact .binary { tag := (Kind.binary operator).tag } operator
      (Kind.ofTag_tag (.binary operator)) ihleft ihright

end Term

/-! ### Printing -/

variable {element : Element} {term : Term}

theorem needsParentheses_written (h : Spells element term) (operator : BinaryOperator)
    (right : Bool) : needsParentheses (written element).kind (.binary operator) right =
      term.enclosed operator right := by
  cases h with
  | leaf label hkind =>
    rw [written]
    dsimp only
    obtain hkind | ⟨type, hkind⟩ := hkind <;> rw [hkind] <;> rfl
  | unary label unaryOperator hkind h =>
    rw [written]
    dsimp only
    rw [hkind]
    cases unaryOperator <;> rfl
  | binary label inner hkind hleft hright =>
    rw [written]
    dsimp only
    rw [hkind]
    rfl

theorem operandText_written (h : Spells element term)
    (htext : (written element).text = term.grouping.text) (operator : BinaryOperator)
    (right : Bool) : operandText (some (written element)) (.binary operator) right =
      (Grouping.enclose (term.enclosed operator right) term.grouping).text := by
  rw [operandText, needsParentheses_written h, Grouping.enclose]
  split
  · rw [htext]; rfl
  · exact htext

/-- What is written for a term is the text of its grouping. -/
theorem text_written (h : Spells element term) : (written element).text = term.grouping.text := by
  induction h with
  | leaf label hkind =>
    rw [written]
    dsimp only [writtenAll, compose]
    obtain hkind | ⟨type, hkind⟩ := hkind <;> simp only [Tree.value, hkind] <;> rfl
  | unary label operator hkind h ih =>
    rw [written]
    dsimp only [writtenAll, compose]
    simp only [Tree.value, hkind]
    cases operator with
    | negation =>
      exact congrArg ('-' :: ·) (operandText_written h ih .times false)
    | complement =>
      exact congrArg (['.', 'n', 'o', 't', '.'] ++ ·) (operandText_written h ih .equal false)
  | binary label operator hkind hleft hright ihleft ihright =>
    rw [written]
    dsimp only [writtenAll, compose]
    simp only [Tree.value, hkind, getElem?_cons_zero, getElem?_cons_succ,
      operandText_written hleft ihleft, operandText_written hright ihright]
    rw [Term.grouping, Grouping.text_attach]
    simp

/-! ### Tokens of a text -/

/-- A text after which a word is complete. -/
def Ends (rest : List Char) : Prop :=
  ∀ c ∈ rest.head?, isBlank c = true ∨ c = '(' ∨ c = ')'

theorem tokensFrom_ends (signed : Bool) (word : List Char) (h : Ends rest) :
    tokensFrom signed word rest = ended word ++ tokensFrom signed [] rest := by
  cases rest with
  | nil => rw [tokensFrom, tokensFrom]; exact (append_nil _).symm
  | cons c rest =>
    have hnil : ended [] = [] := rfl
    rw [tokensFrom, tokensFrom, hnil, nil_append, nil_append, nil_append]
    obtain hblank | rfl | rfl := h c rfl
    · rw [if_pos hblank, if_pos hblank]
    · rfl
    · rfl

/-- A word that is read as an operand: it is not empty and has no blanks and no parentheses, it is
not an operator, and where signs are known it does not begin with one. -/
structure ReadableWord (signed : Bool) (word : List Char) : Prop where
  nonempty : word ≠ []
  plain : ∀ c ∈ word, isBlank c = false ∧ c ≠ '(' ∧ c ≠ ')'
  noOperator : ∀ operator : BinaryOperator, word ≠ operator.symbol.toList
  noSign : signed = true → ∀ operator : UnaryOperator, ¬ operator.symbol <+: word

theorem plain_of_isAlphanum (h : c.isAlphanum ∨ c = '_' ∨ c = '.') :
    isBlank c = false ∧ c ≠ '(' ∧ c ≠ ')' := by
  obtain h | rfl | rfl := h
  · refine ⟨?_, ?_, ?_⟩
    · delta Char.isAlphanum Char.isAlpha Char.isUpper Char.isLower Char.isDigit at h
      simp only [Bool.or_eq_true, Bool.and_eq_true, decide_eq_true_eq, UInt32.le_iff_toNat_le,
        ge_iff_le, Char.toNat_val, Char.reduceToNat] at h
      simp only [isBlank, Bool.or_eq_false_iff, Bool.and_eq_false_iff, decide_eq_false_iff_not,
        beq_eq_false_iff_ne]
      omega
    · rintro rfl
      exact absurd h (by decide)
    · rintro rfl
      exact absurd h (by decide)
  · decide
  · decide

theorem readableWord_of_isAlphanum (signed : Bool) {letters : List Char}
    (hc : c.isAlphanum) (hletters : ∀ d ∈ letters, d.isAlphanum ∨ d = '_' ∨ d = '.') :
    ReadableWord signed (c :: letters) where
  nonempty := cons_ne_nil _ _
  plain := by
    intro d hd
    obtain rfl | hd := mem_cons.mp hd
    · exact plain_of_isAlphanum (.inl hc)
    · exact plain_of_isAlphanum (hletters d hd)
  noOperator operator h := by
    have hhead : operator.symbol.toList.head?.all (fun d ↦ !d.isAlphanum) := by
      cases operator <;> rfl
    rw [← h, head?_cons, Option.all_some, hc] at hhead
    cases hhead
  noSign _ operator h := by
    obtain ⟨rest, h⟩ := h
    cases operator <;> cases h <;> cases hc

theorem tokensFrom_letters {signed : Bool} (word letters rest : List Char)
    (hplain : ∀ c ∈ letters, isBlank c = false ∧ c ≠ '(' ∧ c ≠ ')')
    (hsign : signed → ∀ operator : UnaryOperator, ¬ operator.symbol <+: word ++ letters) :
    tokensFrom signed word (letters ++ rest) = tokensFrom signed (word ++ letters) rest := by
  induction letters generalizing word with
  | nil => rw [nil_append, append_nil]
  | cons c letters ih =>
    obtain ⟨hblank, hopening, hclosing⟩ := hplain c mem_cons_self
    have hnone : signAt? signed (word ++ [c]) (letters ++ rest) = none := by
      rw [signAt?]
      split
      · next hsigned =>
        rw [Bool.and_eq_true] at hsigned
        refine Option.eq_none_iff_forall_ne_some.mpr fun operator hoperator ↦ ?_
        refine hsign hsigned.1 operator ⟨letters, ?_⟩
        rw [← UnaryOperator.eq_symbol_of_ofSymbol? hoperator, append_assoc]
        rfl
      · rfl
    rw [cons_append, tokensFrom, hblank, if_neg Bool.false_ne_true, if_neg hopening,
      if_neg hclosing, hnone]
    dsimp only
    rw [ih (word ++ [c]) (fun d hd ↦ hplain d (mem_cons_of_mem _ hd)), append_assoc]
    · rfl
    · simpa using hsign

theorem tokensFrom_word {signed : Bool} {word : List Char} (h : ReadableWord signed word)
    (hrest : Ends rest) :
    tokensFrom signed [] (word ++ rest) = .word word :: tokensFrom signed [] rest := by
  rw [tokensFrom_letters [] word rest h.plain h.noSign, nil_append, tokensFrom_ends _ _ hrest,
    ended, if_neg (by simpa using h.nonempty)]
  rfl

theorem tokensFrom_operator (signed : Bool) (operator : BinaryOperator) (rest : List Char) :
    tokensFrom signed [] (' ' :: operator.symbol.toList ++ ' ' :: rest) =
      .word operator.symbol.toList :: tokensFrom signed [] rest := by
  cases operator <;> cases signed <;> rfl

theorem tokensFrom_last {signed : Bool} (word : List Char)
    (hplain : isBlank c = false ∧ c ≠ '(' ∧ c ≠ ')')
    (h : signAt? signed (word ++ [c]) rest = some operator) :
    tokensFrom signed word (c :: rest) = .sign operator :: tokensFrom signed [] rest := by
  obtain ⟨hblank, hopening, hclosing⟩ := hplain
  rw [tokensFrom, hblank, if_neg Bool.false_ne_true, if_neg hopening, if_neg hclosing, h]

theorem tokensFrom_sign (operator : UnaryOperator) (h : operandFollows rest) :
    tokensFrom true [] (operator.symbol ++ rest) = .sign operator :: tokensFrom true [] rest := by
  have hsign : signAt? true operator.symbol rest = some operator := by
    rw [signAt?, h]
    cases operator <;> rfl
  cases operator with
  | negation => exact tokensFrom_last [] (by decide) hsign
  | complement => exact tokensFrom_last ['.', 'n', 'o', 't'] (by decide) hsign

/-- A term whose words are read as operands, with signs only where these are known. -/
def Term.Readable (signed : Bool) : Term → Prop
  | leaf word => ReadableWord signed word
  | unary _ operand => signed = true ∧ operand.Readable signed
  | binary _ left right => left.Readable signed ∧ right.Readable signed

variable {signed : Bool}

theorem operandFollows_grouping (h : term.Readable signed) (rest : List Char) :
    operandFollows (term.grouping.text ++ rest) := by
  induction term generalizing rest with
  | leaf word =>
    obtain ⟨c, letters, rfl⟩ := exists_cons_of_ne_nil h.nonempty
    have hblank := (h.plain c mem_cons_self).1
    simp [Term.grouping, Grouping.text, operandFollows, hblank]
  | unary operator operand ih => cases operator <;> rfl
  | binary operator left right ihleft ihright =>
    rw [Term.grouping, Grouping.text_attach, append_assoc]
    cases left.enclosed operator false with
    | true => rfl
    | false => exact ihleft h.1 _

theorem tokensFrom_enclose {grouping : Grouping} (enclosed : Bool)
    (h : ∀ rest, Ends rest → tokensFrom signed [] (grouping.text ++ rest) =
      grouping.tokens ++ tokensFrom signed [] rest) (hrest : Ends rest) :
    tokensFrom signed [] ((grouping.enclose enclosed).text ++ rest) =
      (grouping.enclose enclosed).tokens ++ tokensFrom signed [] rest := by
  cases enclosed with
  | false => exact h rest hrest
  | true =>
    have hclosing : Ends (')' :: rest) := fun c hc ↦ .inr (.inr (Option.some.inj hc).symm)
    have hclosed : tokensFrom signed [] (')' :: rest) = .closing :: tokensFrom signed [] rest := rfl
    change Token.opening :: tokensFrom signed [] ((grouping.text ++ [')']) ++ rest) =
      (.opening :: grouping.tokens ++ [.closing]) ++ tokensFrom signed [] rest
    rw [append_assoc, singleton_append, h _ hclosing, hclosed]
    simp

theorem tokensFrom_grouping (h : term.Readable signed) (hrest : Ends rest) :
    tokensFrom signed [] (term.grouping.text ++ rest) =
      term.grouping.tokens ++ tokensFrom signed [] rest := by
  induction term generalizing rest with
  | leaf word => exact tokensFrom_word h hrest
  | unary operator operand ih =>
    obtain ⟨rfl, hoperand⟩ := h
    rw [Term.grouping, Grouping.text, append_assoc, tokensFrom_sign, Grouping.tokens,
      cons_append, tokensFrom_enclose _ (fun rest hrest ↦ ih hoperand hrest) hrest]
    cases operand.enclosed operator.level false with
    | true => rfl
    | false => exact operandFollows_grouping hoperand rest
  | binary operator left right ihleft ihright =>
    have hblank (more : List Char) : Ends (' ' :: more) :=
      fun c hc ↦ .inl (by rw [← Option.some.inj hc]; rfl)
    rw [Term.grouping, Grouping.text_attach, Grouping.tokens_attach, append_assoc,
      append_assoc, cons_append, cons_append,
      tokensFrom_enclose _ (fun rest hrest ↦ ihleft h.1 hrest) (hblank _),
      ← cons_append, tokensFrom_operator,
      tokensFrom_enclose _ (fun rest hrest ↦ ihright h.2 hrest) hrest]
    simp

/-! ### Reading a term -/

theorem run_enclose {grouping : Grouping} {enclosed : Bool}
    (h : enclosed → (ReaderState.before (.group :: frames)).run grouping.tokens =
      some (.after (grouping.edge ++ .group :: frames) grouping.tip))
    (hbare : enclosed = false → (ReaderState.before frames).run grouping.tokens =
      some (.after (grouping.edge ++ frames) grouping.tip)) :
    (ReaderState.before frames).run (grouping.enclose enclosed).tokens =
      some (.after ((grouping.enclose enclosed).edge ++ frames)
        (grouping.enclose enclosed).tip) := by
  cases enclosed with
  | false => exact hbare rfl
  | true =>
    change (ReaderState.before (.group :: frames)).run (grouping.tokens ++ [.closing]) =
      some (.after frames (.group grouping))
    rw [ReaderState.run_append, h rfl, Option.bind_some, ReaderState.run, ReaderState.step,
      Grouping.close_edge]
    rfl

/-- What is open around a term does not end with the operator at its root. -/
def Term.Held (frames : List Frame) : Term → Prop
  | binary operator _ _ => Grouping.Held operator frames
  | _ => True

namespace Term

variable {frames : List Frame} {operator : BinaryOperator}

theorem held_group (term : Term) (frames : List Frame) : term.Held (.group :: frames) := by
  cases term with
  | binary => exact fun frame hframe ↦ by rw [← Option.some.inj hframe]; rfl
  | leaf | unary => trivial

theorem held_sign {sign : UnaryOperator} (h : term.enclosed sign.level false = false)
    (frames : List Frame) : term.Held (.sign sign :: frames) := by
  cases term with
  | binary inner =>
    rw [enclosed, needsParentheses_sign, Bool.not_eq_false'] at h
    exact fun frame hframe ↦ by rw [← Option.some.inj hframe]; exact h
  | leaf | unary => trivial

theorem held_right (h : term.enclosed operator true = false) (left : Grouping)
    (frames : List Frame) : term.Held (.operand left operator :: frames) := by
  cases term with
  | binary inner =>
    rw [enclosed, needsParentheses_right, Bool.not_eq_false'] at h
    exact fun frame hframe ↦ by rw [← Option.some.inj hframe]; exact h
  | leaf | unary => trivial

theorem held_left (h : term.enclosed operator false = false)
    (hheld : Grouping.Held operator frames) : term.Held frames := by
  cases term with
  | binary inner =>
    rw [enclosed, needsParentheses_left] at h
    intro frame hframe
    have hholds := hheld frame hframe
    cases frame with
    | operand => exact BinaryOperator.yields_of_yields hholds h
    | sign => exact UnaryOperator.yields_of_yields hholds h
    | group => rfl
  | leaf | unary => trivial

end Term

theorem run_grouping (h : term.Readable signed) (hheld : term.Held frames) :
    (ReaderState.before frames).run term.grouping.tokens =
      some (.after (term.grouping.edge ++ frames) term.grouping.tip) := by
  induction term generalizing frames with
  | leaf word =>
    change (if (BinaryOperator.ofSymbol? word).isSome then none
      else some (ReaderState.after frames (.leaf word))).bind _ = _
    rw [BinaryOperator.ofSymbol?_eq_none h.noOperator]
    rfl
  | unary operator operand ih =>
    change (ReaderState.before (.sign operator :: frames)).run (Grouping.enclose _ _).tokens = _
    rw [run_enclose (fun _ ↦ ih h.2 (Term.held_group operand _))
      fun hbare ↦ ih h.2 (Term.held_sign hbare _)]
    rw [Term.grouping, Grouping.edge, Grouping.tip, append_assoc, singleton_append]
  | binary operator left right ihleft ihright =>
    rw [Term.grouping, Grouping.tokens_attach, ReaderState.run_append,
      run_enclose (fun _ ↦ ihleft h.1 (Term.held_group left _))
        fun hbare ↦ ihleft h.1 (Term.held_left hbare hheld), Option.bind_some]
    obtain ⟨opened, first, hcomplete, hattach⟩ :=
      Grouping.complete_edge (Grouping.enclose (left.enclosed operator false) left.grouping) hheld
    rw [ReaderState.run, ReaderState.step, BinaryOperator.ofSymbol?_symbol, Option.map_some,
      hcomplete, Option.bind_some,
      run_enclose (fun _ ↦ ihright h.2 (Term.held_group right _))
        fun hbare ↦ ihright h.2 (Term.held_right hbare first _),
      (hattach _).1, (hattach _).2, append_assoc, cons_append]

/-- Assumes: a readable term. Reading its text gives its grouping back. -/
theorem readGrouping_text (hspells : Spells element term) (h : term.Readable signed) :
    readGrouping signed (Expression.text element) = some term.grouping := by
  have hends : Ends [] := fun c hc ↦ by cases hc
  have htokens := tokensFrom_grouping h hends
  have hheld : term.Held [] := by
    cases term with
    | binary => exact fun frame hframe ↦ by cases hframe
    | leaf | unary => trivial
  have hnothing : tokensFrom signed [] [] = [] := rfl
  rw [append_nil, hnothing, append_nil] at htokens
  rw [readGrouping, Expression.text, String.toList_ofList, text_written hspells, htokens,
    run_grouping h hheld, Option.bind_some, ReaderState.result?, Grouping.finish_edge]
  rfl

end Expression

end LoopDirectives
