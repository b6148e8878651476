import LoopDirectives.SourceUnit
import LoopDirectives.Proofs.Document.Planting
import LoopDirectives.Proofs.Markup.WrittenTag

/-!
# Reading undoes writing

The writer puts every element on lines of its own, so that the reader finds white space which is no
part of the element. A canonical element loses nothing by that: it has a text only where there is
nothing below it. So it is read back as it is (`read_write`), and so is the structure of a document
below a node (`sameStructure_of_readDocument_writeDocument`).
-/

namespace LoopDirectives

/-! ### Canonical elements -/

namespace Element

/-- A text that reading leaves as it is: not empty, with no white space at its ends. -/
def isCanonicalText (text : String) : Bool :=
  text != "" && Text.trim text == text

mutual

/-- Whether the names of an element can be written, at every place, and it has a text only where
there is nothing below it, one that reading leaves as it is. -/
def isCanonical : Element → Bool
  | .node label [] => Markup.isWellNamed label && label.text?.all isCanonicalText
  | .node label (first :: rest) =>
    Markup.isWellNamed label && label.text?.isNone && isCanonical first && areCanonical rest

def areCanonical : List Element → Bool
  | [] => true
  | element :: rest => isCanonical element && areCanonical rest

end

mutual

theorem sameStructure_iff (left right : Element) : left.sameStructure right ↔ left = right := by
  cases left with
  | node leftLabel lefts =>
    cases right with
    | node rightLabel rights =>
      rw [sameStructure, Tree.agree, Bool.and_eq_true, beq_iff_eq, agreeAll_iff lefts rights,
        Tree.node.injEq]

theorem agreeAll_iff (lefts rights : List Element) :
    Tree.agreeAll (fun leftLabel rightLabel : Label ↦ leftLabel == rightLabel) lefts rights ↔
      lefts = rights := by
  cases lefts with
  | nil => cases rights <;> simp [Tree.agreeAll]
  | cons left lefts =>
    cases rights with
    | nil => simp [Tree.agreeAll]
    | cons right rights =>
      have hfirst := sameStructure_iff left right
      rw [sameStructure] at hfirst
      rw [Tree.agreeAll, Bool.and_eq_true, hfirst, agreeAll_iff lefts rights, List.cons.injEq]

end

theorem sameStructure_self (element : Element) : element.sameStructure element :=
  (sameStructure_iff element element).mpr rfl

theorem trimBoth_of_isCanonicalText {text : String} (h : isCanonicalText text) :
    Text.trimBoth text.toList = text.toList ∧ text.toList ≠ [] := by
  rw [isCanonicalText, Bool.and_eq_true, bne_iff_ne, beq_iff_eq] at h
  refine ⟨?_, fun hnil ↦ h.1 (String.toList_eq_nil_iff.mp hnil)⟩
  rw [← String.toList_ofList (l := Text.trimBoth text.toList)]
  exact congrArg String.toList h.2

end Element

namespace Markup

namespace Reading

variable {assembly : Assembly}

theorem checkRoot_of_stack (innermost : OpenElement) (outer : List OpenElement)
    (root? : Option Element) :
    Assembly.checkRoot { stack := innermost :: outer, root? } = .ok () :=
  rfl

theorem checkRoot_acceptText (hroot : assembly.checkRoot = .ok ()) (text : List Char) :
    (acceptText assembly text).checkRoot = .ok () := by
  obtain ⟨stack, root?⟩ := assembly
  cases stack with
  | nil =>
    rw [acceptText_of_no_stack]
    exact hroot
  | cons innermost outer =>
    rw [acceptText_of_stack]
    rfl

theorem foldlM_step_newLine (level : Nat) (assembly : Assembly) :
    (newLine level).foldlM step { assembly } =
      .ok { assembly := acceptText assembly (newLine level) } := by
  refine foldlM_step_text (fun c hc ↦ ?_) assembly
  rcases List.mem_cons.mp hc with rfl | hblank
  · decide
  · rw [List.eq_of_mem_replicate hblank]
    decide

theorem foldlM_step_writeLeaf {label : Label} (hlabel : isWellNamed label)
    (htext : label.text?.all Element.isCanonicalText) (hroot : assembly.checkRoot = .ok ()) :
    (writeLeaf label).foldlM step { assembly } =
      .ok { assembly := assembly.add (.node label []) } := by
  obtain ⟨tag, attributes, text?⟩ := label
  cases text? with
  | none => exact foldlM_step_empty hlabel hroot
  | some text =>
    obtain ⟨htrim, hnonempty⟩ :=
      Element.trimBoth_of_isCanonicalText (Option.all_some.symm.trans htext)
    have hwritten : writeLeaf { tag, attributes, text? := some text } =
        ('<' :: writeHead { tag, attributes, text? := some text } ++ ['>']) ++
          (escape text.toList ++ writeEnd { tag, attributes, text? := some text }) := by
      have hsome : text ≠ "" := fun hnil ↦ hnonempty (by simp [hnil])
      simp [writeLeaf, Label.text, hsome]
    rw [hwritten, foldlM_append_of_ok (foldlM_step_start hlabel hroot),
      foldlM_append_of_ok (foldlM_step_escape text.toList (List.cons_ne_nil _ _)),
      acceptText_of_stack, foldlM_step_end hlabel rfl]
    simp [OpenElement.close, htrim, hnonempty, withoutText]

mutual

theorem foldlM_step_writeElement (level : Nat) (element : Element)
    (hcanonical : element.isCanonical) {assembly : Assembly}
    (hroot : assembly.checkRoot = .ok ()) :
    (writeElement level element).foldlM step { assembly } =
      .ok { assembly := (acceptText assembly (newLine level)).add element } := by
  match element with
  | .node label [] =>
    rw [Element.isCanonical, Bool.and_eq_true] at hcanonical
    rw [writeElement, foldlM_append_of_ok (foldlM_step_newLine level assembly),
      foldlM_step_writeLeaf hcanonical.1 hcanonical.2 (checkRoot_acceptText hroot _)]
  | .node label (first :: rest) =>
    simp only [Element.isCanonical, Bool.and_eq_true, Option.isNone_iff_eq_none] at hcanonical
    obtain ⟨⟨⟨hlabel, htext⟩, hfirst⟩, hrest⟩ := hcanonical
    have hwritten : writeElement level (.node label (first :: rest)) =
        newLine level ++ (('<' :: writeHead label ++ ['>']) ++
          (writeElements (level + 1) (first :: rest) ++ (newLine level ++ writeEnd label))) := by
      simp [writeElement, writeElements]
    have hall : Element.areCanonical (first :: rest) := by
      simp [Element.areCanonical, hfirst, hrest]
    obtain ⟨characters, hbelow⟩ := foldlM_step_writeElements (level + 1) (first :: rest) hall
      { label := withoutText label } (acceptText assembly (newLine level)).stack
      (acceptText assembly (newLine level)).root?
    rw [hwritten, foldlM_append_of_ok (foldlM_step_newLine level assembly),
      foldlM_append_of_ok (foldlM_step_start hlabel (checkRoot_acceptText hroot _)),
      foldlM_append_of_ok hbelow, foldlM_append_of_ok (foldlM_step_newLine level _),
      acceptText_of_stack, foldlM_step_end hlabel rfl]
    simp [OpenElement.close, withoutText_of_text?_eq_none htext]

/-- Canonical elements inside an open one become the elements below it. The characters of the open
element are the white space found on the way. -/
theorem foldlM_step_writeElements (level : Nat) (elements : List Element)
    (hcanonical : Element.areCanonical elements) (innermost : OpenElement)
    (outer : List OpenElement) (root? : Option Element) :
    ∃ characters, (writeElements level elements).foldlM step
        { assembly := { stack := innermost :: outer, root? } } =
      .ok { assembly :=
        { stack :=
            { innermost with below := elements.reverse ++ innermost.below, characters } :: outer
          root? } } := by
  match elements with
  | [] => exact ⟨innermost.characters, rfl⟩
  | element :: rest =>
    rw [Element.areCanonical, Bool.and_eq_true] at hcanonical
    have hfirst := foldlM_step_writeElement level element hcanonical.1
      (checkRoot_of_stack innermost outer root?)
    rw [acceptText_of_stack] at hfirst
    obtain ⟨characters, hrest⟩ := foldlM_step_writeElements level rest hcanonical.2
      { innermost with
        below := element :: innermost.below
        characters := (newLine level).reverse ++ innermost.characters } outer root?
    refine ⟨characters, ?_⟩
    rw [writeElements, foldlM_append_of_ok hfirst]
    refine hrest.trans ?_
    simp

end

end Reading

/-- Assumes: a canonical element, whose names and texts survive writing. -/
theorem read_write {element : Element} (hcanonical : element.isCanonical) :
    read (write element) = .ok (some element) := by
  have hmark : Text.dropMark (declaration ++ writeElement 0 element) =
      declaration ++ writeElement 0 element := rfl
  have hdeclaration : declaration.foldlM Reading.step {} = .ok {} := by rfl
  rw [read, write, String.toList_ofList, hmark, foldlM_append_of_ok hdeclaration,
    Reading.foldlM_step_writeElement 0 element hcanonical rfl]
  rfl

end Markup

namespace Document

/-- Reading what was written of a canonical part of a document gives a document of the same
structure. -/
theorem sameStructure_of_readDocument_writeDocument (doc : Document) (root : NodeId)
    (hlive : doc.contains root = true)
    (hcanonical : (doc.element root).isCanonical = true) :
    ∃ copy copyRoot, readDocument (writeDocument doc root) = .ok (copy, copyRoot) ∧
      copy.sameStructure copyRoot doc root = true := by
  have hplanted := forest_empty.planted_plant (doc.element root)
  refine ⟨(ofElement (doc.element root)).1, (ofElement (doc.element root)).2, ?_, ?_⟩
  · rw [readDocument, writeDocument, if_pos hlive, Markup.read_write hcanonical]
  · rw [ofElement, snd_plant, sameStructure, forest_empty.element_plant, hlive,
      Element.sameStructure_self]
    simp [hplanted.contains_root (List.mem_singleton_self _)]

/-- Attribute values and texts of any characters are kept, beside elements of the other two
forms: empty, and with elements below. -/
theorem sameStructure_of_readDocument_writeDocument_sample :
    ∃ copy copyRoot,
      readDocument (writeDocument (ofElement (.node { tag := "a" }
        [.node { tag := "b", attributes := [("c", "<&\"'/>"), ("d", "")],
                 text? := some "1\n< x" } [],
         .node { tag := "e" } []])).1 ⟨0⟩) = .ok (copy, copyRoot) ∧
      copy.sameStructure copyRoot (ofElement (.node { tag := "a" }
        [.node { tag := "b", attributes := [("c", "<&\"'/>"), ("d", "")],
                 text? := some "1\n< x" } [],
         .node { tag := "e" } []])).1 ⟨0⟩ = true :=
  sameStructure_of_readDocument_writeDocument _ _ (by decide) (by decide +kernel)

end Document

end LoopDirectives
