import LoopDirectives.Expression

/-!
# Reading expressions by operator precedence

A reader for the text of expressions. The text is cut into words, parentheses, and the signs that
stand before an operand without a blank between, and a stack holds what is still open. An operator
that comes after an operand completes what binds the operand tighter than it does, and takes the
result as its left operand. Operators of one precedence group to the left, `**` to the right. A sign
takes in the operators that bind at least as tightly as its level: a minus products and powers,
`.not.` also sums and comparisons.

What is read is a `Grouping`, an expression with its parentheses. Reading an operator attaches it,
with its right operand, where it belongs (`Grouping.attach`, `complete_edge`).
-/

namespace LoopDirectives

open List

inductive UnaryOperator where
  | negation | complement
  deriving DecidableEq

namespace UnaryOperator

def kind : UnaryOperator → Kind
  | negation => .negation
  | complement => .complement

def symbol : UnaryOperator → List Char
  | negation => ['-']
  | complement => ['.', 'n', 'o', 't', '.']

/-- The loosest of the operators that the operator takes in. -/
def level : UnaryOperator → BinaryOperator
  | negation => .times
  | complement => .equal

def ofSymbol? (word : List Char) : Option UnaryOperator :=
  [negation, complement].find? fun operator ↦ operator.symbol == word

/-- Whether the operand goes on with the next operator. -/
def yields (operator : UnaryOperator) (next : BinaryOperator) : Bool :=
  operator.level.precedence ≤ next.precedence

end UnaryOperator

namespace BinaryOperator

def ofSymbol? (word : List Char) : Option BinaryOperator :=
  all.find? fun operator ↦ operator.symbol.toList == word

theorem ofSymbol?_symbol (operator : BinaryOperator) :
    ofSymbol? operator.symbol.toList = some operator := by
  cases operator <;> rfl

/-- Whether the right operand goes on with the next operator: the next one binds tighter, or equally
and groups to the right. -/
def yields (operator next : BinaryOperator) : Bool :=
  operator.precedence < next.precedence ||
    (operator.precedence == next.precedence && next == .power)

end BinaryOperator

namespace Expression

open Text

/-! ### Tokens -/

inductive Token where
  | word (letters : List Char)
  | sign (operator : UnaryOperator)
  | opening
  | closing
  deriving DecidableEq

def ended (word : List Char) : List Token :=
  if word.isEmpty then [] else [.word word]

def operandFollows : List Char → Bool
  | [] => false
  | c :: _ => !isBlank c

/-- The sign that is complete with the word, if signs are known and an operand follows. -/
def signAt? (signed : Bool) (word rest : List Char) : Option UnaryOperator :=
  if signed && operandFollows rest then UnaryOperator.ofSymbol? word else none

/-- The tokens of a text whose first characters are in the word already. -/
def tokensFrom (signed : Bool) : (word : List Char) → List Char → List Token
  | word, [] => ended word
  | word, c :: rest =>
    if isBlank c then ended word ++ tokensFrom signed [] rest
    else if c = '(' then ended word ++ .opening :: tokensFrom signed [] rest
    else if c = ')' then ended word ++ .closing :: tokensFrom signed [] rest
    else
      match signAt? signed (word ++ [c]) rest with
      | some operator => .sign operator :: tokensFrom signed [] rest
      | none => tokensFrom signed (word ++ [c]) rest

/-! ### Groupings -/

inductive Grouping where
  | leaf (word : List Char)
  | unary (operator : UnaryOperator) (operand : Grouping)
  | binary (operator : BinaryOperator) (left right : Grouping)
  | group (content : Grouping)
  deriving DecidableEq

namespace Grouping

def text : Grouping → List Char
  | leaf word => word
  | unary operator operand => operator.symbol ++ operand.text
  | binary operator left right =>
    left.text ++ ' ' :: operator.symbol.toList ++ ' ' :: right.text
  | group content => '(' :: content.text ++ [')']

def tokens : Grouping → List Token
  | leaf word => [.word word]
  | unary operator operand => .sign operator :: operand.tokens
  | binary operator left right =>
    left.tokens ++ .word operator.symbol.toList :: right.tokens
  | group content => .opening :: content.tokens ++ [.closing]

/-- Whether an operator that comes after the expression belongs to an operand at its end. -/
def reaches (next : BinaryOperator) : Grouping → Bool
  | leaf _ | group _ => false
  | unary operator operand => operator.yields next || operand.reaches next
  | binary operator _ right => operator.yields next || right.reaches next

/-- The expression with an operator and its right operand after it. -/
def attach : Grouping → BinaryOperator → Grouping → Grouping
  | leaf word, next, last => binary next (leaf word) last
  | group content, next, last => binary next (group content) last
  | unary operator operand, next, last =>
    if operator.yields next || operand.reaches next then
      unary operator (operand.attach next last)
    else binary next (unary operator operand) last
  | binary operator left right, next, last =>
    if operator.yields next || right.reaches next then
      binary operator left (right.attach next last)
    else binary next (binary operator left right) last

end Grouping

/-! ### The reader -/

/-- Something that is open while its last operand is being read. -/
inductive Frame where
  | operand (left : Grouping) (operator : BinaryOperator)
  | sign (operator : UnaryOperator)
  | group
  deriving DecidableEq

namespace Frame

/-- Whether the frame stays open when the operator comes after its operand. -/
def holds (next : BinaryOperator) : Frame → Bool
  | operand _ operator => operator.yields next
  | sign operator => operator.yields next
  | group => true

def fill (last : Grouping) : Frame → Grouping
  | operand left operator => .binary operator left last
  | sign operator => .unary operator last
  | group => .group last

end Frame

/-- What is open, innermost first, and whether an operand or what follows one is expected. -/
inductive ReaderState where
  | before (frames : List Frame)
  | after (frames : List Frame) (operand : Grouping)
  deriving DecidableEq

def complete (next : BinaryOperator) : List Frame → Grouping → List Frame × Grouping
  | [], operand => ([], operand)
  | frame :: frames, operand =>
    if frame.holds next then (frame :: frames, operand)
    else complete next frames (frame.fill operand)

/-- Fills the frames up to the innermost opening parenthesis. -/
def close : List Frame → Grouping → Option ReaderState
  | [], _ => none
  | .group :: frames, operand => some (.after frames (.group operand))
  | frame :: frames, operand => close frames (frame.fill operand)

/-- Fills all frames, none of which may be an opening parenthesis. -/
def finish : List Frame → Grouping → Option Grouping
  | [], operand => some operand
  | .group :: _, _ => none
  | frame :: frames, operand => finish frames (frame.fill operand)

def ReaderState.step : ReaderState → Token → Option ReaderState
  | before frames, .word letters =>
    if (BinaryOperator.ofSymbol? letters).isSome then none else some (after frames (.leaf letters))
  | before frames, .sign operator => some (before (.sign operator :: frames))
  | before frames, .opening => some (before (.group :: frames))
  | before _, .closing => none
  | after frames operand, .word letters =>
    (BinaryOperator.ofSymbol? letters).map fun operator ↦
      let (rest, left) := complete operator frames operand
      before (.operand left operator :: rest)
  | after frames operand, .closing => close frames operand
  | after _ _, .sign _ => none
  | after _ _, .opening => none

def ReaderState.run : ReaderState → List Token → Option ReaderState
  | state, [] => some state
  | state, token :: rest => (state.step token).bind fun next ↦ next.run rest

def ReaderState.result? : ReaderState → Option Grouping
  | before _ => none
  | after frames operand => finish frames operand

def readGrouping (signed : Bool) (text : String) : Option Grouping :=
  ((ReaderState.before []).run (tokensFrom signed [] text.toList)).bind ReaderState.result?

theorem ReaderState.run_append (state : ReaderState) (first second : List Token) :
    state.run (first ++ second) = (state.run first).bind fun next ↦ next.run second := by
  induction first generalizing state with
  | nil => rfl
  | cons token first ih =>
    rw [cons_append, run, run, Option.bind_assoc]
    congr 1
    funext next
    exact ih next

/-! ### The stack of a grouping

After an expression has been read, what is open in it is its right edge, and the operand at hand is
the last one. Apart from leaves and groups an expression is a frame with its last operand, and the
proofs go along the edge (`Grouping.edgeInduction`). -/

namespace Grouping

variable {frames : List Frame}

/-- The frames on the right edge, innermost first. -/
def edge : Grouping → List Frame
  | leaf _ | group _ => []
  | unary operator operand => operand.edge ++ [.sign operator]
  | binary operator left right => right.edge ++ [.operand left operator]

def tip : Grouping → Grouping
  | leaf word => leaf word
  | group content => group content
  | unary _ operand => operand.tip
  | binary _ _ right => right.tip

/-- Induction along the right edge of a grouping, frame by frame. -/
@[elab_as_elim]
theorem edgeInduction {motive : Grouping → Prop} (leaf : ∀ word, motive (leaf word))
    (group : ∀ content, motive (group content))
    (fill : ∀ (frame : Frame) (last : Grouping), frame ≠ .group → motive last →
      motive (frame.fill last))
    (grouping : Grouping) : motive grouping := by
  induction grouping with
  | leaf word => exact leaf word
  | unary operator operand ih => exact fill (.sign operator) operand Frame.noConfusion ih
  | binary operator left right _ ih =>
    exact fill (.operand left operator) right Frame.noConfusion ih
  | group content => exact group content

section Fill

variable {frame : Frame} (hframe : frame ≠ .group) (last : Grouping)

include hframe

theorem edge_fill : (frame.fill last).edge = last.edge ++ [frame] := by
  cases frame with
  | operand | sign => rfl
  | group => exact absurd rfl hframe

theorem tip_fill : (frame.fill last).tip = last.tip := by
  cases frame with
  | operand | sign => rfl
  | group => exact absurd rfl hframe

theorem reaches_fill (next : BinaryOperator) :
    (frame.fill last).reaches next = (frame.holds next || last.reaches next) := by
  cases frame with
  | operand | sign => rfl
  | group => exact absurd rfl hframe

theorem attach_fill (next : BinaryOperator) (right : Grouping) :
    (frame.fill last).attach next right =
      if frame.holds next || last.reaches next then frame.fill (last.attach next right)
      else binary next (frame.fill last) right := by
  cases frame with
  | operand | sign => rfl
  | group => exact absurd rfl hframe

theorem close_cons (frames : List Frame) :
    close (frame :: frames) last = close frames (frame.fill last) := by
  cases frame with
  | operand | sign => rfl
  | group => exact absurd rfl hframe

theorem finish_cons (frames : List Frame) :
    finish (frame :: frames) last = finish frames (frame.fill last) := by
  cases frame with
  | operand | sign => rfl
  | group => exact absurd rfl hframe

end Fill

theorem close_edge (grouping : Grouping) (frames : List Frame) :
    close (grouping.edge ++ frames) grouping.tip = close frames grouping := by
  induction grouping using edgeInduction generalizing frames with
  | leaf | group => rfl
  | fill frame last hframe ih =>
    rw [edge_fill hframe, tip_fill hframe, append_assoc, ih, singleton_append,
      close_cons hframe]

theorem finish_edge (grouping : Grouping) (frames : List Frame) :
    finish (grouping.edge ++ frames) grouping.tip = finish frames grouping := by
  induction grouping using edgeInduction generalizing frames with
  | leaf | group => rfl
  | fill frame last hframe ih =>
    rw [edge_fill hframe, tip_fill hframe, append_assoc, ih, singleton_append,
      finish_cons hframe]

variable {next : BinaryOperator} {grouping : Grouping}

theorem attach_of_not_reaches (h : grouping.reaches next = false) (last : Grouping) :
    grouping.attach next last = binary next grouping last := by
  induction grouping using edgeInduction with
  | leaf | group => rfl
  | fill frame operand hframe =>
    rw [reaches_fill hframe] at h
    rw [attach_fill hframe, h, if_neg Bool.false_ne_true]

theorem complete_edge_of_not_reaches (h : grouping.reaches next = false) (frames : List Frame) :
    complete next (grouping.edge ++ frames) grouping.tip = complete next frames grouping := by
  induction grouping using edgeInduction generalizing frames with
  | leaf | group => rfl
  | fill frame last hframe ih =>
    rw [reaches_fill hframe, Bool.or_eq_false_iff] at h
    rw [edge_fill hframe, tip_fill hframe, append_assoc, ih h.2, singleton_append,
      complete, h.1, if_neg Bool.false_ne_true]

theorem complete_edge_of_reaches (h : grouping.reaches next) :
    ∃ opened left,
      (∀ frames, complete next (grouping.edge ++ frames) grouping.tip = (opened ++ frames, left)) ∧
      ∀ last, (grouping.attach next last).edge = last.edge ++ .operand left next :: opened ∧
        (grouping.attach next last).tip = last.tip := by
  induction grouping using edgeInduction with
  | leaf | group => cases h
  | fill frame operand hframe ih =>
    rw [reaches_fill hframe] at h
    simp only [attach_fill hframe, h, if_true, edge_fill hframe, tip_fill hframe,
      append_assoc, singleton_append]
    cases hoperand : operand.reaches next with
    | true =>
      obtain ⟨opened, left, hcomplete, hattach⟩ := ih hoperand
      refine ⟨opened ++ [frame], left, fun frames ↦ ?_, fun last ↦ ⟨?_, (hattach last).2⟩⟩
      · rw [hcomplete, append_assoc, singleton_append]
      · rw [(hattach last).1, append_assoc, cons_append]
    | false =>
      rw [hoperand, Bool.or_false] at h
      refine ⟨[frame], operand, fun frames ↦ ?_, fun last ↦ ?_⟩
      · rw [complete_edge_of_not_reaches hoperand, complete, if_pos h, singleton_append]
      · rw [attach_of_not_reaches hoperand]
        simp [edge, tip]

/-- What is open stays open when the operator comes. -/
def Held (next : BinaryOperator) (frames : List Frame) : Prop :=
  ∀ frame ∈ frames.head?, frame.holds next = true

theorem complete_of_held (h : Held next frames) (operand : Grouping) :
    complete next frames operand = (frames, operand) := by
  cases frames with
  | nil => rfl
  | cons frame frames => rw [complete, if_pos (h frame rfl)]

/-- Assumes: the frames below hold the next operator. Completing frames attaches it at the edge. -/
theorem complete_edge (grouping : Grouping) (h : Held next frames) :
    ∃ opened left,
      complete next (grouping.edge ++ frames) grouping.tip = (opened ++ frames, left) ∧
      ∀ last, (grouping.attach next last).edge = last.edge ++ .operand left next :: opened ∧
        (grouping.attach next last).tip = last.tip := by
  cases hreaches : grouping.reaches next with
  | true =>
    obtain ⟨opened, left, hcomplete, hattach⟩ := complete_edge_of_reaches hreaches
    exact ⟨opened, left, hcomplete frames, hattach⟩
  | false =>
    refine ⟨[], grouping, ?_, fun last ↦ ?_⟩
    · rw [complete_edge_of_not_reaches hreaches, complete_of_held h]
      rfl
    · rw [attach_of_not_reaches hreaches]
      exact ⟨rfl, rfl⟩

/-! ### What attaching writes -/

theorem text_fill_append (frame : Frame) (hframe : frame ≠ .group) (first last : Grouping)
    (rest : List Char) (h : first.text = last.text ++ rest) :
    (frame.fill first).text = (frame.fill last).text ++ rest := by
  cases frame with
  | operand | sign => simp [Frame.fill, text, h]
  | group => exact absurd rfl hframe

theorem tokens_fill_append (frame : Frame) (hframe : frame ≠ .group) (first last : Grouping)
    (rest : List Token) (h : first.tokens = last.tokens ++ rest) :
    (frame.fill first).tokens = (frame.fill last).tokens ++ rest := by
  cases frame with
  | operand | sign => simp [Frame.fill, tokens, h]
  | group => exact absurd rfl hframe

theorem text_attach (grouping last : Grouping) : (grouping.attach next last).text =
    grouping.text ++ (' ' :: next.symbol.toList ++ ' ' :: last.text) := by
  induction grouping using edgeInduction with
  | leaf | group => simp [attach, text]
  | fill frame operand hframe ih =>
    rw [attach_fill hframe]
    split
    · exact text_fill_append frame hframe _ _ _ ih
    · simp [text]

theorem tokens_attach (grouping last : Grouping) : (grouping.attach next last).tokens =
    grouping.tokens ++ .word next.symbol.toList :: last.tokens := by
  induction grouping using edgeInduction with
  | leaf | group => rfl
  | fill frame operand hframe ih =>
    rw [attach_fill hframe]
    split
    · exact tokens_fill_append frame hframe _ _ _ ih
    · rfl

end Grouping

end Expression

end LoopDirectives
