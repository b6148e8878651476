import LoopDirectives.Proofs.Expression.Term

/-!
# Expressions read back from their texts

The text of an expression of binary operators holds all of it (`read_text`). With signs it does not:
a sign that is an operand is never put in parentheses, and may take in an operator that comes after
it. `Term.Settled` says that this happens nowhere in a term. The settled terms are those that are
read back from their texts, and two terms have the same text if and only if it shows the same
grouping (`text_eq_iff`).
-/

namespace LoopDirectives.Expression

def Grouping.term : Grouping → Term
  | leaf word => .leaf word
  | unary operator operand => .unary operator operand.term
  | binary operator left right => .binary operator left.term right.term
  | group content => content.term

def read (signed : Bool) (text : String) : Option Term :=
  (readGrouping signed text).map Grouping.term

namespace Grouping

theorem term_enclose (enclosed : Bool) (grouping : Grouping) :
    (grouping.enclose enclosed).term = grouping.term := by
  cases enclosed <;> rfl

theorem reaches_enclose (enclosed : Bool) (grouping : Grouping) (next : BinaryOperator) :
    (grouping.enclose enclosed).reaches next = (!enclosed && grouping.reaches next) := by
  cases enclosed <;> rfl

end Grouping

namespace Term

/-! ### Settled terms -/

/-- Whether an operator that is written after the term belongs to an operand at its end. -/
def reaches (next : BinaryOperator) : Term → Bool
  | leaf _ => false
  | unary operator operand =>
    operator.yields next || (!operand.enclosed operator.level false && operand.reaches next)
  | binary operator _ right =>
    operator.yields next || (!right.enclosed operator true && right.reaches next)

/-- No operator of the term is written where it belongs to an operand on its left. -/
def Settled : Term → Prop
  | leaf _ => True
  | unary _ operand => operand.Settled
  | binary operator left right =>
    (left.enclosed operator false = true ∨ left.reaches operator = false) ∧
      left.Settled ∧ right.Settled

variable {term : Term} {next : BinaryOperator}

theorem reaches_enclose_eq_false (h : term.enclosed next false ∨ term.reaches next = false)
    (hgrouping : term.grouping.reaches next = term.reaches next) :
    (Grouping.enclose (term.enclosed next false) term.grouping).reaches next = false := by
  rw [Grouping.reaches_enclose, hgrouping]
  obtain h | h := h <;> simp [h]

theorem reaches_grouping (h : term.Settled) (next : BinaryOperator) :
    term.grouping.reaches next = term.reaches next := by
  induction term generalizing next with
  | leaf => rfl
  | unary operator operand ih =>
    rw [grouping, Grouping.reaches, Grouping.reaches_enclose, ih h, reaches]
  | binary operator left right ihleft ihright =>
    obtain ⟨hreaches, hleft, hright⟩ := h
    have hnot := reaches_enclose_eq_false hreaches (ihleft hleft operator)
    rw [grouping, Grouping.attach_of_not_reaches hnot, Grouping.reaches,
      Grouping.reaches_enclose, ihright hright, reaches]

def size : Term → Nat
  | leaf _ => 0
  | unary _ operand => operand.size + 1
  | binary _ left right => left.size + right.size + 1

theorem size_attach (grouping : Grouping) (next : BinaryOperator) (last : Grouping) :
    (grouping.attach next last).term.size = grouping.term.size + last.term.size + 1 := by
  induction grouping with
  | leaf | group => rfl
  | unary operator operand ih =>
    rw [Grouping.attach]
    split
    · simp only [Grouping.term, size, ih]
      omega
    · rfl
  | binary operator left right _ ih =>
    rw [Grouping.attach]
    split
    · simp only [Grouping.term, size, ih]
      omega
    · rfl

theorem size_grouping (term : Term) : term.grouping.term.size = term.size := by
  induction term with
  | leaf => rfl
  | unary operator operand ih => rw [grouping, Grouping.term, size, Grouping.term_enclose, ih, size]
  | binary operator left right ihleft ihright =>
    rw [grouping, size_attach, Grouping.term_enclose, Grouping.term_enclose, ihleft, ihright, size]

/-- An operator that is attached below the root of an expression is not at the root with that
expression as its left operand: what is left of the root has become smaller. -/
theorem not_reaches_of_term_attach {grouping last : Grouping} {left right : Term}
    (hsize : grouping.term.size = left.size)
    (h : (grouping.attach next last).term = binary next left right) :
    grouping.reaches next = false := by
  cases grouping with
  | leaf | group => rfl
  | unary operator operand =>
    rw [Grouping.attach] at h
    split at h
    · cases h
    · next hreaches => exact Bool.eq_false_iff.mpr hreaches
  | binary operator first second =>
    rw [Grouping.attach] at h
    split at h
    · simp only [Grouping.term, binary.injEq] at h
      rw [Grouping.term, size, h.2.1] at hsize
      omega
    · next hreaches => exact Bool.eq_false_iff.mpr hreaches

theorem term_grouping_iff : term.grouping.term = term ↔ term.Settled := by
  induction term with
  | leaf => exact iff_of_true rfl trivial
  | unary operator operand ih =>
    rw [grouping, Grouping.term, Grouping.term_enclose, unary.injEq, Settled, ih]
    exact and_iff_right rfl
  | binary operator left right ihleft ihright =>
    constructor
    · intro h
      rw [grouping] at h
      have hnot := not_reaches_of_term_attach
        ((congrArg size (Grouping.term_enclose _ _)).trans (size_grouping left)) h
      rw [Grouping.attach_of_not_reaches hnot, Grouping.term, Grouping.term_enclose,
        Grouping.term_enclose, binary.injEq] at h
      have hleft := ihleft.mp h.2.1
      refine ⟨?_, hleft, ihright.mp h.2.2⟩
      rw [Grouping.reaches_enclose, reaches_grouping hleft] at hnot
      cases henclosed : left.enclosed operator false with
      | true => exact .inl rfl
      | false => exact .inr (by simpa [henclosed] using hnot)
    · rintro ⟨hreaches, hleft, hright⟩
      have hnot := reaches_enclose_eq_false hreaches (reaches_grouping hleft operator)
      rw [grouping, Grouping.attach_of_not_reaches hnot, Grouping.term, Grouping.term_enclose,
        Grouping.term_enclose, ihleft.mpr hleft, ihright.mpr hright]

/-- A term without signs whose operator does not yield to the next one does not reach it: the
operators on its right edge bind tighter and tighter. -/
theorem reaches_eq_false_of_unsigned (h : term.Readable false)
    (hnext : term.enclosed next false = false) : term.reaches next = false := by
  induction term with
  | leaf => rfl
  | unary => exact absurd h.1 Bool.false_ne_true
  | binary operator left right _ ih =>
    rw [enclosed, needsParentheses_left] at hnext
    rw [reaches, hnext, Bool.false_or]
    cases henclosed : right.enclosed operator true with
    | true => rfl
    | false =>
      refine ih h.2 ?_
      cases right with
      | leaf | unary => rfl
      | binary inner =>
        rw [enclosed, needsParentheses_right, Bool.not_eq_false'] at henclosed
        rw [enclosed, needsParentheses_left]
        exact BinaryOperator.not_yields_of_yields hnext henclosed

theorem settled_of_unsigned (h : term.Readable false) : term.Settled := by
  induction term with
  | leaf => trivial
  | unary => exact absurd h.1 Bool.false_ne_true
  | binary operator left right ihleft ihright =>
    refine ⟨?_, ihleft h.1, ihright h.2⟩
    cases henclosed : left.enclosed operator false with
    | true => exact .inl rfl
    | false => exact .inr (reaches_eq_false_of_unsigned h.1 henclosed)

theorem grouping_signed_operand {sign : UnaryOperator} {operator : BinaryOperator}
    (hyields : sign.yields operator) {operand : Term}
    (henclosed : operand.enclosed operator false = operand.enclosed sign.level false)
    (right : Term) : (binary operator (unary sign operand) right).grouping =
      (unary sign (binary operator operand right)).grouping := by
  have hbare : (binary operator operand right).enclosed sign.level false = false := by
    rw [enclosed, needsParentheses_sign, hyields]
    rfl
  change (Grouping.unary sign
      (.enclose (operand.enclosed sign.level false) operand.grouping)).attach
      operator (.enclose (right.enclosed operator true) right.grouping) =
    .unary sign (.enclose ((binary operator operand right).enclosed sign.level false)
      (binary operator operand right).grouping)
  rw [Grouping.attach, hyields, Bool.true_or, if_pos rfl, hbare, grouping, henclosed]
  rfl

end Term

/-! ### Texts and terms -/

variable {element : Element} {term : Term} {signed : Bool}

theorem read_eq (hspells : Spells element term) (h : term.Readable signed) :
    read signed (text element) = some term.grouping.term := by
  rw [read, readGrouping_text hspells h, Option.map_some]

theorem text_eq_iff_grouping {left right : Element} {first second : Term}
    (hleft : Spells left first) (hright : Spells right second) (hfirst : first.Readable signed)
    (hsecond : second.Readable signed) :
    text left = text right ↔ first.grouping = second.grouping := by
  constructor
  · intro h
    have hread := readGrouping_text hleft hfirst
    rw [h, readGrouping_text hright hsecond] at hread
    exact (Option.some.inj hread).symm
  · intro h
    rw [text, text, text_written hleft, text_written hright, h]

/-- The text of an expression of binary operators over words, none of which is empty, has blanks or
parentheses or is an operator, is read back as that expression. So no two such expressions have the
same text. -/
theorem read_text (hspells : Spells element term) (h : term.Readable false) :
    read false (text element) = some term ∧
      ∀ other second, Spells other second → second.Readable false →
        text other = text element → second = term := by
  have hterm (first : Term) (hfirst : first.Readable false) : first.grouping.term = first :=
    Term.term_grouping_iff.mpr (Term.settled_of_unsigned hfirst)
  refine ⟨(read_eq hspells h).trans (congrArg some (hterm term h)), fun other second hother hsecond
    heq ↦ ?_⟩
  have hgrouping := (text_eq_iff_grouping hother hspells hsecond h).mp heq
  rw [← hterm second hsecond, hgrouping, hterm term h]

/-- The term `a - (b - c) ** d ** 10 <= e`. -/
def nestedTerm : Term :=
  .binary .lessEqual
    (.binary .minus (.leaf ['a'])
      (.binary .power (.binary .minus (.leaf ['b']) (.leaf ['c']))
        (.binary .power (.leaf ['d']) (.leaf ['1', '0']))))
    (.leaf ['e'])

theorem read_text_nestedTerm :
    text nestedTerm.element = "a - (b - c) ** d ** 10 <= e" ∧
      read false (text nestedTerm.element) = some nestedTerm ∧
      (text (Term.element (.leaf ['a'])) = text nestedTerm.element → .leaf ['a'] = nestedTerm) := by
  have hword (c : Char) (hc : c.isAlphanum = true) : ReadableWord false [c] :=
    readableWord_of_isAlphanum false hc fun d hd ↦ by cases hd
  have hten : ReadableWord false ['1', '0'] :=
    readableWord_of_isAlphanum false rfl fun d hd ↦ by
      rw [List.mem_singleton.mp hd]
      exact .inl rfl
  obtain ⟨hread, hunique⟩ := read_text nestedTerm.spells_element
    ⟨⟨hword 'a' rfl, ⟨hword 'b' rfl, hword 'c' rfl⟩, hword 'd' rfl, hten⟩, hword 'e' rfl⟩
  exact ⟨by decide +kernel, hread, hunique _ _ (Term.spells_element _) (hword 'a' rfl)⟩

/-- Which expressions of binary operators and signs have the same text. The words are those of
`read_text`, and none begins with a sign. Two such expressions have the same text exactly if that
text shows the same grouping; for instance, the sign of a left operand is shown as the sign of the
whole operation where the sign takes in the operator. An expression is read back from its text
exactly if it is settled, and settled expressions with the same text are the same. -/
theorem text_eq_iff {left right : Element} {first second : Term} (hleft : Spells left first)
    (hright : Spells right second) (hfirst : first.Readable true)
    (hsecond : second.Readable true) :
    (text left = text right ↔ first.grouping = second.grouping) ∧
    (∀ (sign : UnaryOperator) (operator : BinaryOperator) (operand last : Term),
      first = .binary operator (.unary sign operand) last →
      second = .unary sign (.binary operator operand last) →
      sign.yields operator = true →
      operand.enclosed operator false = operand.enclosed sign.level false →
      text left = text right) ∧
    (read true (text left) = some first ↔ first.Settled) ∧
    (first.Settled → second.Settled → text left = text right → first = second) := by
  have hiff := text_eq_iff_grouping hleft hright hfirst hsecond
  refine ⟨hiff, fun sign operator operand last hone hother hyields henclosed ↦ ?_, ?_,
    fun hsettled hother heq ↦ ?_⟩
  · rw [hiff, hone, hother]
    exact Term.grouping_signed_operand hyields henclosed last
  · rw [read_eq hleft hfirst, Option.some.injEq]
    exact Term.term_grouping_iff
  · rw [← Term.term_grouping_iff.mpr hsettled, hiff.mp heq, Term.term_grouping_iff.mpr hother]

/-- The product of `-a` and `b` has the text of the negated product, as which it is read. -/
theorem text_eq_iff_negatedFactor :
    text (Term.element (.binary .times (.unary .negation (.leaf ['a'])) (.leaf ['b']))) =
      "-a * b" ∧
    text (Term.element (.unary .negation (.binary .times (.leaf ['a']) (.leaf ['b'])))) =
      "-a * b" ∧
    ¬ (Term.binary .times (.unary .negation (.leaf ['a'])) (.leaf ['b'])).Settled ∧
    (Term.unary .negation (.binary .times (.leaf ['a']) (.leaf ['b']))).Settled := by
  have hword (c : Char) (hc : c.isAlphanum = true) : ReadableWord true [c] :=
    readableWord_of_isAlphanum true hc fun d hd ↦ by cases hd
  obtain ⟨-, hsame, hsettled, -⟩ := text_eq_iff
    (Term.spells_element (.binary .times (.unary .negation (.leaf ['a'])) (.leaf ['b'])))
    (Term.spells_element (.unary .negation (.binary .times (.leaf ['a']) (.leaf ['b']))))
    ⟨⟨rfl, hword 'a' rfl⟩, hword 'b' rfl⟩ ⟨rfl, hword 'a' rfl, hword 'b' rfl⟩
  have htext : text (Term.element (.unary .negation (.binary .times (.leaf ['a']) (.leaf ['b'])))) =
      "-a * b" := by decide +kernel
  refine ⟨(hsame .negation .times _ _ rfl rfl rfl rfl).trans htext, htext, ?_, ?_⟩
  · rw [← hsettled]
    decide +kernel
  · exact ⟨.inr rfl, trivial, trivial⟩

end LoopDirectives.Expression
