import LoopDirectives.Proofs.Markup.Reading

/-!
# The outline of a text

The tags of a text that is read spell out its elements (`Spells`), whatever text stands between
them. So the nodes of the document, in document order, are the start and empty tags of the text, in
their order, and the parent of each is the innermost element that is open at its tag
(`Document.Follows`).
-/

namespace LoopDirectives

open List

namespace Markup

variable {tags more : List Tag} {assembly : Assembly}

/-- The tags spell out the elements, one after the other. A start tag and its end tag enclose the
tags of what is below the element; the text of an element does not show. -/
inductive Spells : List Tag → List Element → Prop
  | nil : Spells [] []
  | empty {tags : List Tag} {elements : List Element} (label : Label) (h : Spells tags elements) :
      Spells (.empty label :: tags) (.node label [] :: elements)
  | full {inner tags : List Tag} {branches elements : List Element} {label found : Label}
      (htag : found.tag = label.tag) (hattributes : found.attributes = label.attributes)
      (hinner : Spells inner branches) (h : Spells tags elements) :
      Spells (.start label :: (inner ++ .finish label.tag :: tags))
        (.node found branches :: elements)

theorem Spells.append {elements others : List Element} (h : Spells tags elements)
    (hmore : Spells more others) : Spells (tags ++ more) (elements ++ others) := by
  induction h with
  | nil => exact hmore
  | empty label _ ih => exact .empty label ih
  | @full inner tags branches elements label found htag hattributes hinner _ _ ih =>
    rw [cons_append, append_assoc, cons_append]
    exact .full htag hattributes hinner ih

/-- The tags spell out what is found below the open elements, up to the place where the innermost
one is open. -/
inductive Opens : List Tag → List OpenElement → Prop
  | nil : Opens [] []
  | cons {tags inner : List Tag} {outer : List OpenElement} (h : Opens tags outer)
      (innermost : OpenElement) (hinner : Spells inner innermost.below.reverse) :
      Opens (tags ++ .start innermost.label :: inner) (innermost :: outer)

/-- The tags spell out the root, or what is found of it so far. -/
def SpellsOut (tags : List Tag) (assembly : Assembly) : Prop :=
  match assembly.root? with
  | none => Opens tags assembly.stack
  | some root => assembly.stack = [] ∧ Spells tags [root]

theorem OpenElement.spells_close {element : OpenElement} {inner : List Tag}
    (h : Spells inner element.below.reverse) :
    Spells (.start element.label :: (inner ++ [.finish element.label.tag])) [element.close] := by
  unfold OpenElement.close
  dsimp only
  split
  · next htext =>
    rw [Bool.and_eq_true, List.isEmpty_iff] at htext
    rw [htext.1] at h
    exact .full rfl rfl h .nil
  · exact .full rfl rfl h .nil

theorem Opens.spellsOut_add {stack : List OpenElement} {element : Element} (h : Opens tags stack)
    (hmore : Spells more [element]) :
    SpellsOut (tags ++ more) (Assembly.add { stack } element) := by
  cases h with
  | nil => exact ⟨rfl, hmore⟩
  | @cons tags inner outer houter innermost hinner =>
    have hbelow := hinner.append hmore
    rw [← reverse_cons] at hbelow
    rw [append_assoc, cons_append]
    exact houter.cons { innermost with below := element :: innermost.below } hbelow

theorem SpellsOut.acceptTag {next : Assembly} {tag : Tag} (h : SpellsOut tags assembly)
    (htag : assembly.acceptTag tag = .ok next) : SpellsOut (tags ++ [tag]) next := by
  obtain ⟨stack, root?⟩ := assembly
  cases root? with
  | some root =>
    -- Outside of the root that is complete, no tag is accepted.
    obtain ⟨hstack, -⟩ := h
    dsimp only at hstack
    subst hstack
    cases tag <;> cases htag
  | none =>
    have hopens : Opens tags stack := h
    cases tag with
    | start label =>
      obtain ⟨_, -, htag⟩ := exists_of_bind_eq_ok htag
      cases htag
      exact hopens.cons { label } .nil
    | empty label =>
      obtain ⟨_, -, htag⟩ := exists_of_bind_eq_ok htag
      cases htag
      exact hopens.spellsOut_add (.empty label .nil)
    | finish name =>
      cases hopens with
      | nil => cases htag
      | @cons tags inner outer houter innermost hinner =>
        unfold Assembly.acceptTag at htag
        dsimp only at htag
        split at htag
        · next hname =>
          subst hname
          cases htag
          have hclose := houter.spellsOut_add (OpenElement.spells_close hinner)
          simpa using hclose
        · cases htag

theorem SpellsOut.acceptChar (h : SpellsOut tags assembly) (c : Char) :
    SpellsOut tags (assembly.acceptChar c) := by
  obtain ⟨stack, root?⟩ := assembly
  cases stack with
  | nil => exact h
  | cons innermost outer =>
    cases root? with
    | some root => cases h.1
    | none =>
      cases (h : Opens tags (innermost :: outer)) with
      | cons houter _ hinner =>
        exact houter.cons { innermost with characters := c :: innermost.characters } hinner

theorem Assembles.spellsOut (h : Assembles tags assembly) : SpellsOut tags assembly := by
  induction h with
  | nil => exact .nil
  | tag _ htag ih => exact ih.acceptTag htag
  | char _ c ih => exact ih.acceptChar c

end Markup

namespace Document

open Markup

/-- The nodes, in their order, are those of the start and empty tags, in their order: each has the
tag and the attributes that its tag gives, and its parent is the innermost node still open there.
An end tag names the innermost node and closes it. -/
inductive Follows (doc : Document) : (opened : List NodeId) → List Tag → List NodeId → Prop
  | nil : Follows doc [] [] []
  | start {opened nodes : List NodeId} {tags : List Tag} {label : Label} {node : NodeId}
      (htag : doc.tag node = label.tag)
      (hattributes : (doc.label node).attributes = label.attributes)
      (hparent : doc.parent? node = opened.head?)
      (h : Follows doc (node :: opened) tags nodes) :
      Follows doc opened (.start label :: tags) (node :: nodes)
  | empty {opened nodes : List NodeId} {tags : List Tag} {label : Label} {node : NodeId}
      (hlabel : doc.label node = label) (hchildren : doc.children node = [])
      (hparent : doc.parent? node = opened.head?) (h : Follows doc opened tags nodes) :
      Follows doc opened (.empty label :: tags) (node :: nodes)
  | finish {opened nodes : List NodeId} {tags : List Tag} {node : NodeId}
      (h : Follows doc opened tags nodes) :
      Follows doc (node :: opened) (.finish (doc.tag node) :: tags) nodes

variable {doc : Document}

theorem Forest.follows_of_spells (forest : doc.Forest) {tags : List Tag}
    {elements : List Element} (spells : Spells tags elements) {opened nodes below : List NodeId}
    {more : List Tag} (helements : nodes.map doc.element = elements)
    (hparent : ∀ node ∈ nodes, doc.parent? node = opened.head?)
    (hbelow : Follows doc opened more below) :
    Follows doc opened (tags ++ more) (nodes.flatMap doc.subtree ++ below) := by
  induction spells generalizing opened nodes below more with
  | nil =>
    obtain rfl := map_eq_nil_iff.mp helements
    exact hbelow
  | empty label _ ih =>
    obtain ⟨node, rest, rfl, hnode, hrest⟩ := map_eq_cons_iff.mp helements
    obtain ⟨hhead, hparents⟩ := forall_mem_cons.mp hparent
    rw [forest.element_eq, Tree.node.injEq, map_eq_nil_iff] at hnode
    rw [flatMap_cons, forest.subtree_eq, hnode.2]
    exact .empty hnode.1 hnode.2 hhead (ih hrest hparents hbelow)
  | @full inner tags branches elements label found htag hattributes _ _ ihInner ih =>
    obtain ⟨node, rest, rfl, hnode, hrest⟩ := map_eq_cons_iff.mp helements
    obtain ⟨hhead, hparents⟩ := forall_mem_cons.mp hparent
    rw [forest.element_eq, Tree.node.injEq] at hnode
    obtain ⟨rfl, hchildren⟩ := hnode
    have hfinish : Follows doc (node :: opened) (.finish label.tag :: (tags ++ more))
        (rest.flatMap doc.subtree ++ below) := by
      rw [← htag]
      exact .finish (ih hrest hparents hbelow)
    have hbelowNode : ∀ child ∈ doc.children node,
        doc.parent? child = (node :: opened).head? := fun child hchild ↦
      forest.parent?_of_mem hchild
    have hinside := ihInner hchildren hbelowNode hfinish
    rw [flatMap_cons, forest.subtree_eq]
    simpa using Follows.start htag hattributes hhead hinside

theorem follows_of_read {text : String} {root : NodeId}
    (h : readDocument text = .ok (doc, root)) :
    ∃ lexemes tags, Lexed (Text.dropMark text.toList) lexemes ∧
      (lexemes.filterMap Lexeme.tagContent?).map Tag.ofContent = tags.map Except.ok ∧
      Follows doc [] tags (doc.subtree root) := by
  obtain ⟨element, hread, rfl, rfl⟩ := SourceUnit.exists_plant_of_readDocument h
  obtain ⟨lexemes, tags, hlexed, htags, hassembles⟩ := exists_lexed_of_read hread
  have hspells : Spells tags [element] := hassembles.spellsOut.2
  have hparent : ∀ node ∈ [empty.fresh],
      (empty.plant none element).1.parent? node = List.head? [] := fun node hnode ↦
    (forest_empty.planted_plant element).parent?_root node hnode
  have helements : [empty.fresh].map (empty.plant none element).1.element = [element] :=
    congrArg (fun found ↦ [found]) (forest_empty.element_plant element)
  have hfollows := (forest_empty.plant element).follows_of_spells hspells helements hparent .nil
  exact ⟨lexemes, tags, hlexed, htags, by simpa using hfollows⟩

theorem isTrimmed_of_isCanonicalText {value : String} (h : Element.isCanonicalText value) :
    value ≠ "" ∧ Text.IsTrimmed value.toList := by
  rw [Element.isCanonicalText, Bool.and_eq_true, bne_iff_ne, beq_iff_eq] at h
  refine ⟨h.1, ?_⟩
  rw [← h.2, Text.trim, String.toList_ofList]
  exact Text.isTrimmed_trimBoth value.toList

/-- Everything that is read is a clean tree. The document is a forest with the root on top of all
its nodes; the attribute names of a node differ, a node with children has no text, and a text is
neither empty nor has it white space at its ends. The text falls into pieces in one way, and the
nodes, in document order, are those of the start and empty tags among the pieces, each below the
innermost one that is still open. -/
theorem clean_of_readDocument {text : String} {root : NodeId}
    (h : readDocument text = .ok (doc, root)) :
    doc.Forest ∧ doc.parent? root = none ∧
      (∀ x, doc.contains x = true ↔ x = root ∨ doc.Above root x) ∧
      (∀ x, doc.contains x = true →
        ((doc.label x).attributes.map Prod.fst).Nodup ∧
        (doc.children x ≠ [] → (doc.label x).text? = none) ∧
        ∀ value, (doc.label x).text? = some value →
          value ≠ "" ∧ Text.IsTrimmed value.toList) ∧
      (doc.subtree root).Nodup ∧
      ∃ lexemes tags, Lexed (Text.dropMark text.toList) lexemes ∧
        (∀ others, Lexed (Text.dropMark text.toList) others → others = lexemes) ∧
        (lexemes.filterMap Lexeme.tagContent?).map Tag.ofContent = tags.map Except.ok ∧
        Follows doc [] tags (doc.subtree root) := by
  obtain ⟨lexemes, tags, hlexed, htags, hfollows⟩ := follows_of_read h
  obtain ⟨element, hread, rfl, rfl⟩ := SourceUnit.exists_plant_of_readDocument h
  have forest := forest_empty.plant element
  have hplanted := forest_empty.planted_plant element
  have hroot : (empty.plant none element).1.contains empty.fresh = true :=
    hplanted.contains_root (List.mem_singleton_self _)
  have hrooted : (empty.plant none element).1.RootedAt [empty.fresh] :=
    forest_empty.rootedAt_plant (fun x hlive ↦ by simp [contains, node?, empty] at hlive) element
  have hevery : ((empty.plant none element).1.element empty.fresh).Every Label.NeatAt := by
    rw [forest_empty.element_plant]
    exact neat_of_read hread
  refine ⟨forest, hplanted.parent?_root _ (List.mem_singleton_self _), fun x ↦ ⟨?_, ?_⟩,
    fun x hx ↦ ?_, forest.nodup_subtree _, lexemes, tags, hlexed, fun others h ↦ h.unique hlexed,
    htags, hfollows⟩
  · exact forest.eq_or_above_of_rootedAt hrooted
  · rintro (rfl | habove)
    · exact hroot
    · exact habove.contains
  · have hneat : Label.NeatAt _ _ := forest.every_element_iff.mp hevery x
      ((forest.mem_subtree_iff _ _).mpr (forest.eq_or_above_of_rootedAt hrooted hx))
    refine ⟨hneat.neat.names.nodup, fun hchildren ↦ ?_, fun value hvalue ↦
      isTrimmed_of_isCanonicalText (hneat.neat.text value hvalue)⟩
    by_contra htext
    exact hchildren (List.isEmpty_iff.mp (hneat.leaf (Option.isSome_iff_ne_none.mpr htext)))

/-- Tags within quotes, comments and data, text between tags and a document type. -/
def disguisedTags : String :=
  "<?xml version='1.0'?><!DOCTYPE a [<!ENTITY b '<c>'>]><a d='<e>'> f <!-- <g> --><h/>" ++
    "<i> <![CDATA[<j>]]>&lt; </i></a>"

/-- There are three nodes, for three of the seven start and empty tags that seem to stand in the
text. -/
theorem clean_of_readDocument_disguisedTags :
    ∃ doc root, readDocument disguisedTags = .ok (doc, root) ∧
      (doc.subtree root).map doc.tag = ["a", "h", "i"] ∧
      doc.parent? root = none ∧
      ∃ tags, Follows doc [] tags (doc.subtree root) := by
  have heval : (readDocument disguisedTags).toOption.any (fun result ↦
      decide ((result.1.subtree result.2).map result.1.tag = ["a", "h", "i"])) = true := by
    decide +kernel
  obtain ⟨⟨doc, root⟩, hread, hnodes⟩ := exists_of_any_toOption heval
  obtain ⟨-, hparent, -, -, -, lexemes, tags, -, -, -, hfollows⟩ := clean_of_readDocument hread
  exact ⟨doc, root, hread, of_decide_eq_true hnodes, hparent, tags, hfollows⟩

end Document

end LoopDirectives
