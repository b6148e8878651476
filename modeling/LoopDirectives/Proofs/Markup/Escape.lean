import Mathlib.Logic.Basic
import LoopDirectives.Markup.Reader

/-!
# Escaped text reads back

A character is written as itself, unless it could be taken for markup: then it is written as a
reference that stands for it (`escapeChar_cases`). Both places that undo this, the reading of an
attribute value and the reading of text between tags, therefore give back what was escaped
(`unescape_escape`, `foldlM_step_escape`).
-/

namespace LoopDirectives.Markup

open List

variable {c : Char}

theorem foldlM_cons_of_ok {State : Type} {step : State → Char → Except Error State}
    {first second : State} (h : step first c = .ok second) (rest : List Char) :
    (c :: rest).foldlM step first = rest.foldlM step second := by
  rw [foldlM_cons, h]
  rfl

theorem foldlM_append_of_ok {State : Type} {step : State → Char → Except Error State}
    {first second : State} {text : List Char} (h : text.foldlM step first = .ok second)
    (rest : List Char) : (text ++ rest).foldlM step first = rest.foldlM step second := by
  rw [foldlM_append, h]
  rfl

theorem foldlM_collect {State : Type} (step : State → Char → Except Error State)
    (mode : List Char → State) {text : List Char}
    (hstep : ∀ c ∈ text, ∀ read, step (mode read) c = .ok (mode (c :: read))) (read : List Char) :
    text.foldlM step (mode read) = .ok (mode (text.reverse ++ read)) := by
  induction text generalizing read with
  | nil => rfl
  | cons first rest ih =>
    obtain ⟨hfirst, hrest⟩ := forall_mem_cons.mp hstep
    rw [foldlM_cons_of_ok (hfirst read), ih hrest]
    simp

/-! ### How a character is written -/

/-- A character that neither ends a reference nor is taken for markup. -/
def isPlain (c : Char) : Bool :=
  c != ';' && c != '&' && c != '<' && c != '>' && c != '"' && c != '\''

theorem ne_of_isPlain (h : isPlain c) :
    c ≠ ';' ∧ c ≠ '&' ∧ c ≠ '<' ∧ c ≠ '>' ∧ c ≠ '"' ∧ c ≠ '\'' := by
  simpa [isPlain, and_assoc] using h

/-- A character is written as a reference that names it, or as itself if it needs none. -/
theorem escapeChar_cases (c : Char) :
    (∃ name : List Char, escapeChar c = '&' :: name ++ [';'] ∧ character? name = some c ∧
      ∀ x ∈ name, isPlain x) ∨
    escapeChar c = [c] ∧ c ≠ '<' ∧ c ≠ '>' ∧ c ≠ '&' ∧ c ≠ '\'' ∧ c ≠ '"' := by
  by_cases hlt : c = '<'
  · exact Or.inl ⟨['l', 't'], by subst hlt; rfl, by subst hlt; rfl, by simp [isPlain]⟩
  by_cases hgt : c = '>'
  · exact Or.inl ⟨['g', 't'], by subst hgt; rfl, by subst hgt; rfl, by simp [isPlain]⟩
  by_cases hamp : c = '&'
  · exact Or.inl ⟨['a', 'm', 'p'], by subst hamp; rfl, by subst hamp; rfl, by simp [isPlain]⟩
  by_cases hapos : c = '\''
  · exact Or.inl ⟨['a', 'p', 'o', 's'], by subst hapos; rfl, by subst hapos; rfl, by simp [isPlain]⟩
  by_cases hquot : c = '"'
  · exact Or.inl ⟨['q', 'u', 'o', 't'], by subst hquot; rfl, by subst hquot; rfl, by simp [isPlain]⟩
  refine Or.inr ⟨?_, hlt, hgt, hamp, hapos, hquot⟩
  unfold escapeChar
  split <;> first | contradiction | rfl

theorem ne_of_mem_escape {text : List Char} {x : Char} (h : x ∈ escape text) :
    x ≠ '<' ∧ x ≠ '>' ∧ x ≠ '"' ∧ x ≠ '\'' := by
  obtain ⟨c, -, hx⟩ := mem_flatMap.mp h
  rcases escapeChar_cases c with ⟨name, hescape, -, hplain⟩ | ⟨hescape, hlt, hgt, -, hapos, hquot⟩
  · rw [hescape, cons_append, mem_cons, mem_append, mem_singleton] at hx
    rcases hx with rfl | hname | rfl
    · decide
    · obtain ⟨-, -, hlt, hgt, hquot, hapos⟩ := ne_of_isPlain (hplain x hname)
      exact ⟨hlt, hgt, hquot, hapos⟩
    · decide
  · rw [hescape, mem_singleton] at hx
    subst hx
    exact ⟨hlt, hgt, hquot, hapos⟩

theorem character_of_character? {name : List Char} (h : character? name = some c) :
    character name = .ok c := by
  simp [character, h]

theorem foldlM_escapeChar {State : Type} {step : State → Char → Except Error State}
    {first last : State} (mode : List Char → State) (hopen : step first '&' = .ok (mode []))
    (hname : ∀ x, isPlain x → ∀ read, step (mode read) x = .ok (mode (x :: read)))
    (hclose : ∀ name, character name = .ok c → step (mode name.reverse) ';' = .ok last)
    (hself : c ≠ '<' → c ≠ '&' → step first c = .ok last) :
    (escapeChar c).foldlM step first = .ok last := by
  rcases escapeChar_cases c with ⟨name, hescape, hcharacter, hplain⟩ | ⟨hescape, hlt, -, hamp, -⟩
  · have hcollected := foldlM_collect step mode (fun x hx ↦ hname x (hplain x hx)) []
    rw [append_nil] at hcollected
    rw [hescape, cons_append, foldlM_cons_of_ok hopen, foldlM_append_of_ok hcollected,
      foldlM_cons_of_ok (hclose name (character_of_character? hcharacter))]
    rfl
  · rw [hescape, foldlM_cons_of_ok (hself hlt hamp)]
    rfl

/-! ### Inside an attribute value -/

theorem foldlM_unescaping_escapeChar (c : Char) (done : List Char) :
    (escapeChar c).foldlM Unescaping.step { done } = .ok { done := c :: done } := by
  refine foldlM_escapeChar (fun read ↦ { done, reference? := some read }) rfl
    (fun x hx read ↦ ?_) (fun name hname ↦ ?_) fun _ hamp ↦ ?_
  · obtain ⟨hsemi, hamp, -⟩ := ne_of_isPlain hx
    simp [Unescaping.step, hsemi, hamp]
  · simp [Unescaping.step, hname, bind, Except.bind, pure, Except.pure]
  · simp [Unescaping.step, hamp]

theorem foldlM_unescaping_escape (text done : List Char) :
    (escape text).foldlM Unescaping.step { done } = .ok { done := text.reverse ++ done } := by
  induction text generalizing done with
  | nil => rfl
  | cons c rest ih =>
    rw [escape, flatMap_cons, foldlM_append_of_ok (foldlM_unescaping_escapeChar c done)]
    rw [← escape, ih]
    simp

/-- Every text comes back from its escaped form. -/
theorem unescape_escape (text : List Char) : unescape (escape text) = .ok text := by
  simp [unescape, foldlM_unescaping_escape, bind, Except.bind, pure, Except.pure]

/-! ### Between tags -/

namespace Reading

variable {assembly : Assembly}

def acceptText (assembly : Assembly) (text : List Char) : Assembly :=
  text.foldl Assembly.acceptChar assembly

theorem acceptText_of_stack (text : List Char) (innermost : OpenElement)
    (outer : List OpenElement) (root? : Option Element) :
    acceptText { stack := innermost :: outer, root? } text =
      { stack := { innermost with characters := text.reverse ++ innermost.characters } :: outer
        root? } := by
  induction text generalizing innermost with
  | nil => rfl
  | cons c rest ih =>
    change acceptText { stack := { innermost with characters := c :: innermost.characters } :: outer
                        root? } rest = _
    rw [ih]
    simp

theorem acceptText_of_no_stack (text : List Char) (root? : Option Element) :
    acceptText { stack := [], root? } text = { stack := [], root? } := by
  induction text with
  | nil => rfl
  | cons c rest ih => exact ih

theorem foldlM_step_text {text : List Char} (htext : ∀ c ∈ text, c ≠ '<' ∧ c ≠ '&')
    (assembly : Assembly) :
    text.foldlM step { assembly } = .ok { assembly := acceptText assembly text } := by
  induction text generalizing assembly with
  | nil => rfl
  | cons c rest ih =>
    obtain ⟨hlt, hamp⟩ := htext c (mem_cons_self ..)
    have hstep : step { assembly } c = .ok { assembly := assembly.acceptChar c } := by
      simp [step, hlt, hamp]
    rw [foldlM_cons_of_ok hstep]
    exact ih (fun x hx ↦ htext x (mem_cons_of_mem _ hx)) _

theorem foldlM_step_escapeChar (c : Char) (hopen : assembly.stack ≠ []) :
    (escapeChar c).foldlM step { assembly } = .ok { assembly := assembly.acceptChar c } := by
  refine foldlM_escapeChar (fun read ↦ { mode := .reference read, assembly }) rfl
    (fun x hx read ↦ ?_) (fun name hname ↦ ?_) fun hlt hamp ↦ ?_
  · obtain ⟨hsemi, hamp, hlt, -⟩ := ne_of_isPlain hx
    simp [step, go, hsemi, hamp, hlt]
  · simp [step, Assembly.acceptReference, hopen, hname, bind, Except.bind, pure, Except.pure]
  · simp [step, hlt, hamp]

theorem stack_acceptChar_ne_nil (hopen : assembly.stack ≠ []) (c : Char) :
    (assembly.acceptChar c).stack ≠ [] := by
  unfold Assembly.acceptChar
  split
  · contradiction
  · exact cons_ne_nil _ _

/-- Within an element, an escaped text is read as the text. -/
theorem foldlM_step_escape (text : List Char) (hopen : assembly.stack ≠ []) :
    (escape text).foldlM step { assembly } = .ok { assembly := acceptText assembly text } := by
  induction text generalizing assembly with
  | nil => rfl
  | cons c rest ih =>
    rw [escape, flatMap_cons, foldlM_append_of_ok (foldlM_step_escapeChar c hopen)]
    exact ih (stack_acceptChar_ne_nil hopen c)

end Reading

end LoopDirectives.Markup
