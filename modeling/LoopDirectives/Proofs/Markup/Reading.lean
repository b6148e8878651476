import LoopDirectives.Proofs.Library
import LoopDirectives.Proofs.Markup.Lexing
import LoopDirectives.Proofs.Text.Blank

/-!
# What reading gives

The reader keeps the text of an element only if the element has nothing below it, cuts white space
off its ends, and refuses an attribute name that comes twice. So what it gives is neat
(`Label.NeatAt`) at every place, whatever the text is (`Markup.neat_of_read`), and so is every node
of a unit (`SourceUnit.neatAt_of_read`).
-/

namespace LoopDirectives

open List

/-- The attribute names of the label differ, and none of them is empty. -/
structure Label.NamesApart (label : Label) : Prop where
  nodup : (label.attributes.map Prod.fst).Nodup
  nonempty : ∀ entry ∈ label.attributes, entry.1 ≠ ""

/-- The attribute names of the label differ, and a text of it is one that reading leaves as it
is. -/
structure Label.Neat (label : Label) : Prop where
  names : label.NamesApart
  text : ∀ text, label.text? = some text → Element.isCanonicalText text = true

/-- The label is neat, and if it has a text there is nothing below it. -/
structure Label.NeatAt (label : Label) (leaf : Bool) : Prop where
  neat : label.Neat
  leaf : label.text?.isSome = true → leaf = true

theorem Label.NeatAt.of_textless {label : Label} (names : label.NamesApart)
    (htext : label.text? = none) (leaf : Bool) : label.NeatAt leaf :=
  ⟨⟨names, fun text heq ↦ by simp [htext] at heq⟩, fun hsome ↦ by simp [htext] at hsome⟩

namespace Markup

variable {content : List Char}

theorem foldlM_keeps {Cause State Item : Type} {step : State → Item → Except Cause State}
    (invariant : State → Prop)
    (hstep : ∀ state item next, invariant state → step state item = .ok next → invariant next)
    {items : List Item} {first last : State} (hfirst : invariant first)
    (h : items.foldlM step first = .ok last) : invariant last := by
  induction items generalizing first with
  | nil =>
    cases h
    exact hfirst
  | cons item rest ih =>
    rw [foldlM_cons] at h
    obtain ⟨next, hnext, h⟩ := exists_of_bind_eq_ok h
    exact ih (hstep first item next hfirst hnext) h

/-! ### Attributes -/

namespace AttributeReading

def name? (reading : AttributeReading) : Option String :=
  match reading.mode with
  | .between => none
  | .name read => some (String.ofList read.reverse)
  | .named name | .equals name | .value name _ _ => some name

def pending? (reading : AttributeReading) : Option String :=
  match reading.mode with
  | .equals name | .value name _ _ => some name
  | _ => none

/-- The names read so far differ, the one whose value is still to come is another one, and none is
empty. -/
structure Apart (reading : AttributeReading) : Prop where
  nodup : (reading.done.map Prod.fst).Nodup
  pending : ∀ name, reading.pending? = some name → name ∉ reading.done.map Prod.fst
  nonempty : ∀ entry ∈ reading.done, entry.1 ≠ ""
  name : ∀ name, reading.name? = some name → name ≠ ""

variable {reading next : AttributeReading}

theorem Apart.go (apart : reading.Apart) {mode : AttributeMode}
    (hpending : pending? { reading with mode } = none)
    (hname : ∀ name, name? { reading with mode } = some name → name ≠ "") :
    Apart { reading with mode } :=
  ⟨apart.nodup, fun name hname ↦ by simp [hpending] at hname, apart.nonempty, hname⟩

theorem apart_between {done : List (String × String)} (hnodup : (done.map Prod.fst).Nodup)
    (hnonempty : ∀ entry ∈ done, entry.1 ≠ "") : Apart { done } :=
  ⟨hnodup, fun _ hname ↦ (by cases hname), hnonempty, fun _ hname ↦ (by cases hname)⟩

theorem Apart.expectValue (apart : reading.Apart) {name : String} (hname : name ≠ "")
    (h : reading.expectValue name = .ok next) : next.Apart := by
  unfold AttributeReading.expectValue at h
  split at h
  · cases h
  · next hnew =>
    cases h
    refine ⟨apart.nodup, fun other hother hmem ↦ hnew ?_, apart.nonempty, fun other hother ↦ ?_⟩
    · cases hother
      obtain ⟨entry, hentry, heq⟩ := mem_map.mp hmem
      exact any_eq_true.mpr ⟨entry, hentry, beq_iff_eq.mpr heq⟩
    · cases hother
      exact hname

theorem ofList_reverse_cons_ne (c : Char) (read : List Char) :
    String.ofList (c :: read).reverse ≠ "" := by
  simp

theorem Apart.step (apart : reading.Apart) (c : Char) (h : reading.step c = .ok next) :
    next.Apart := by
  obtain ⟨done, mode⟩ := reading
  cases mode with
  | between =>
    simp only [AttributeReading.step] at h
    split at h
    · cases h
      exact apart
    · cases h
      exact apart.go rfl fun name hname ↦ Option.some.inj hname ▸ ofList_reverse_cons_ne c []
  | name read =>
    have hread := apart.name _ rfl
    simp only [AttributeReading.step] at h
    split at h
    · exact apart.expectValue hread h
    · split at h
      · cases h
        exact apart.go rfl fun name hname ↦ Option.some.inj hname ▸ hread
      · cases h
        exact apart.go rfl fun name hname ↦ Option.some.inj hname ▸ ofList_reverse_cons_ne c read
  | named name =>
    simp only [AttributeReading.step] at h
    split at h
    · cases h
      exact apart
    · split at h
      · exact apart.expectValue (apart.name name rfl) h
      · cases h
  | equals name =>
    simp only [AttributeReading.step] at h
    split at h
    · cases h
      exact apart
    · split at h
      · cases h
        exact ⟨apart.nodup, apart.pending, apart.nonempty, apart.name⟩
      · cases h
  | value name quote read =>
    simp only [AttributeReading.step] at h
    split at h
    · obtain ⟨value, -, h⟩ := exists_of_bind_eq_ok h
      cases h
      exact apart_between (nodup_cons.mpr ⟨apart.pending name rfl, apart.nodup⟩)
        (forall_mem_cons.mpr ⟨apart.name name rfl, apart.nonempty⟩)
    · cases h
      exact ⟨apart.nodup, apart.pending, apart.nonempty, apart.name⟩

end AttributeReading

theorem labelOf_neat {label : Label} (h : labelOf content = .ok label) :
    label.NamesApart ∧ label.text? = none := by
  obtain ⟨entries, hentries, h⟩ := exists_of_bind_eq_ok h
  cases h
  refine ⟨?_, rfl⟩
  obtain ⟨reading, hreading, hfinish⟩ := exists_of_bind_eq_ok hentries
  have hstart : AttributeReading.Apart { done := [] } :=
    AttributeReading.apart_between nodup_nil (forall_mem_nil _)
  have apart : reading.Apart :=
    foldlM_keeps AttributeReading.Apart (fun _ c _ apart hnext ↦ apart.step c hnext) hstart hreading
  unfold AttributeReading.finish at hfinish
  split at hfinish
  · cases hfinish
    refine ⟨?_, fun entry hentry ↦ apart.nonempty entry (mem_reverse.mp hentry)⟩
    rw [map_reverse]
    exact nodup_reverse.mpr apart.nodup
  all_goals cases hfinish

theorem Tag.ofContent_neat {label : Label}
    (h : Tag.ofContent content = .ok (.start label) ∨ Tag.ofContent content = .ok (.empty label)) :
    label.NamesApart ∧ label.text? = none := by
  unfold Tag.ofContent at h
  split at h
  · rcases h with h | h <;> cases h
  · split at h
    · rcases h with h | h
      · obtain ⟨found, -, h⟩ := exists_of_bind_eq_ok h
        cases h
      · obtain ⟨found, hfound, h⟩ := exists_of_bind_eq_ok h
        cases h
        exact labelOf_neat hfound
    · rcases h with h | h
      · obtain ⟨found, hfound, h⟩ := exists_of_bind_eq_ok h
        cases h
        exact labelOf_neat hfound
      · obtain ⟨found, -, h⟩ := exists_of_bind_eq_ok h
        cases h

/-! ### Elements -/

/-- An element that is still open has no text yet, and what is below it is neat. -/
structure OpenElement.Neat (element : OpenElement) : Prop where
  names : element.label.NamesApart
  text?_eq : element.label.text? = none
  below : ∀ branch ∈ element.below, Element.Every Label.NeatAt branch

theorem OpenElement.Neat.close {element : OpenElement} (neat : element.Neat) :
    Element.Every Label.NeatAt element.close := by
  unfold OpenElement.close
  dsimp only
  split
  · next htext =>
    rw [Bool.and_eq_true, List.isEmpty_iff, Bool.not_eq_true', isEmpty_eq_false_iff] at htext
    refine .node _ [] ⟨⟨⟨neat.names.nodup, neat.names.nonempty⟩, fun text heq ↦ ?_⟩, fun _ ↦ rfl⟩
      (forall_mem_nil _)
    cases heq
    rw [Element.isCanonicalText, Bool.and_eq_true, bne_iff_ne, beq_iff_eq, Text.trim,
      String.toList_ofList, Text.trimBoth_trimBoth]
    refine ⟨fun hnil ↦ htext.2 ?_, rfl⟩
    rw [← String.toList_ofList (l := Text.trimBoth element.characters.reverse), hnil]
    rfl
  · exact .node _ _ (.of_textless neat.names neat.text?_eq _) fun branch hbranch ↦
      neat.below branch (mem_reverse.mp hbranch)

namespace Assembly

structure Neat (assembly : Assembly) : Prop where
  stack : ∀ element ∈ assembly.stack, element.Neat
  root : ∀ element, assembly.root? = some element → Element.Every Label.NeatAt element

variable {assembly next : Assembly}

theorem Neat.add (neat : assembly.Neat) {element : Element}
    (helement : Element.Every Label.NeatAt element) : (assembly.add element).Neat := by
  obtain ⟨stack, root?⟩ := assembly
  cases stack with
  | nil =>
    refine ⟨forall_mem_nil _, fun other hother ↦ ?_⟩
    cases hother
    exact helement
  | cons innermost outer =>
    obtain ⟨hinnermost, houter⟩ := forall_mem_cons.mp neat.stack
    refine ⟨forall_mem_cons.mpr ⟨⟨hinnermost.names, hinnermost.text?_eq, ?_⟩, houter⟩,
      neat.root⟩
    exact forall_mem_cons.mpr ⟨helement, hinnermost.below⟩

theorem Neat.acceptChar (neat : assembly.Neat) (c : Char) : (assembly.acceptChar c).Neat := by
  obtain ⟨stack, root?⟩ := assembly
  cases stack with
  | nil => exact neat
  | cons innermost outer =>
    obtain ⟨hinnermost, houter⟩ := forall_mem_cons.mp neat.stack
    exact ⟨forall_mem_cons.mpr
      ⟨⟨hinnermost.names, hinnermost.text?_eq, hinnermost.below⟩, houter⟩, neat.root⟩

theorem Neat.acceptTag (neat : assembly.Neat) {tag : Tag} (htag : Tag.ofContent content = .ok tag)
    (h : assembly.acceptTag tag = .ok next) : next.Neat := by
  cases tag with
  | start label =>
    obtain ⟨hnames, htext⟩ := Tag.ofContent_neat (Or.inl htag)
    obtain ⟨_, -, h⟩ := exists_of_bind_eq_ok h
    cases h
    exact ⟨forall_mem_cons.mpr ⟨⟨hnames, htext, forall_mem_nil _⟩, neat.stack⟩, neat.root⟩
  | empty label =>
    obtain ⟨hnames, htext⟩ := Tag.ofContent_neat (Or.inr htag)
    obtain ⟨_, -, h⟩ := exists_of_bind_eq_ok h
    cases h
    exact neat.add (.node label [] (.of_textless hnames htext _) (forall_mem_nil _))
  | finish name =>
    unfold Assembly.acceptTag at h
    dsimp only at h
    split at h
    · cases h
    · next innermost outer hstack =>
      split at h
      · cases h
        obtain ⟨hinnermost, houter⟩ := forall_mem_cons.mp (hstack ▸ neat.stack)
        have hrest : Assembly.Neat { assembly with stack := outer } := ⟨houter, neat.root⟩
        exact hrest.add hinnermost.close
      · cases h

theorem neat_of_assembles {tags : List Tag} (h : Assembles tags assembly)
    (htags : ∀ tag ∈ tags, ∃ content, Tag.ofContent content = .ok tag) : assembly.Neat := by
  induction h with
  | nil => exact ⟨forall_mem_nil _, fun _ hroot ↦ by cases hroot⟩
  | tag _ htag ih =>
    obtain ⟨hbefore, hlast⟩ := forall_mem_append.mp htags
    obtain ⟨content, hcontent⟩ := hlast _ (mem_singleton_self _)
    exact (ih hbefore).acceptTag hcontent htag
  | char _ c ih => exact (ih htags).acceptChar c

end Assembly

/-- What is read has trimmed texts, beside no elements, and names without repetition. -/
theorem neat_of_read {text : String} {element : Element} (h : read text = .ok (some element)) :
    Element.Every Label.NeatAt element := by
  obtain ⟨lexemes, tags, -, hmap, hassembles⟩ := exists_lexed_of_read h
  have hneat := Assembly.neat_of_assembles hassembles fun tag htag ↦ by
    have hmem : .ok tag ∈ (lexemes.filterMap Lexeme.tagContent?).map Tag.ofContent :=
      hmap ▸ mem_map_of_mem htag
    obtain ⟨content, -, hcontent⟩ := mem_map.mp hmem
    exact ⟨content, hcontent⟩
  exact hneat.root element rfl

end Markup

namespace SourceUnit

variable {role : UnitRole} {text : String} {unit : SourceUnit}

theorem exists_element_of_read (h : SourceUnit.read role text = .ok unit) :
    ∃ element, Markup.read text = .ok (some element) ∧
      unit.document.element unit.root = element := by
  obtain ⟨⟨doc, root⟩, hdocument, h⟩ := exists_of_bind_eq_ok h
  obtain ⟨tables, -, h⟩ := exists_of_bind_eq_ok h
  cases h
  obtain ⟨element, hread, rfl, rfl⟩ := exists_plant_of_readDocument hdocument
  exact ⟨element, hread, Document.forest_empty.element_plant element⟩

/-- The same at every node of a unit that was read. -/
theorem neatAt_of_read (h : SourceUnit.read role text = .ok unit) {x : NodeId}
    (hx : unit.document.contains x) : unit.document.Holds Label.NeatAt x := by
  have fromText := (fromText_of_read h).1
  obtain ⟨element, hread, helement⟩ := exists_element_of_read h
  have hevery : (unit.document.element unit.root).Every Label.NeatAt := by
    rw [helement]
    exact Markup.neat_of_read hread
  exact fromText.forest.every_element_iff.mp hevery x ((fromText.forest.mem_subtree_iff _ _).mpr
    (fromText.forest.eq_or_above_of_rootedAt fromText.rooted hx))

end SourceUnit

end LoopDirectives
