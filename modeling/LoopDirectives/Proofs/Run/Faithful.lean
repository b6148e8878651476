import LoopDirectives.Proofs.Markup.Reading
import LoopDirectives.Proofs.Pragma.Chunks
import LoopDirectives.Proofs.Run.Integrity
import LoopDirectives.Proofs.Run.Upkeep

/-!
# What is written is what was transformed

The writer drops a text beside elements, and reading cuts white space off a text. A program in which
this makes no difference is one that the policy `Markup.writable` allows at every place. A run keeps
to this policy, and so does wrapping (`Pragma.tidy_wrap`), so that reading what was written after a
run gives the transformed program again (`Run.sameStructure_of_transform`).
-/

namespace LoopDirectives

open Document List

/-! ### Labels that can be written -/

namespace Markup

theorem assign_names (name value : String) (attributes : List (String × String)) :
    (Label.assign name value attributes).map Prod.fst =
      if name ∈ attributes.map Prod.fst then attributes.map Prod.fst
      else attributes.map Prod.fst ++ [name] := by
  induction attributes with
  | nil => rfl
  | cons entry rest ih =>
    rw [Label.assign]
    split
    · next heq => simp [heq]
    · next hne =>
      rw [map_cons, ih, map_cons]
      by_cases hmem : name ∈ rest.map Prod.fst
      · simp [hmem]
      · simp [hmem, Ne.symm hne]

theorem isWellNamed_setAttribute {label : Label} {name : String} (value : String)
    (hname : isName name) (h : isWellNamed label) :
    isWellNamed (label.setAttribute name value) := by
  obtain ⟨htag, hnames, hnodup⟩ := (isWellNamed_iff label).mp h
  have hall : ∀ other ∈ label.attributes.map Prod.fst, isName other :=
    forall_mem_map.mpr hnames
  have hassigned := assign_names name value label.attributes
  have hnames' : ∀ other ∈ (label.setAttribute name value).attributes.map Prod.fst,
      isName other := by
    rw [Label.setAttribute, hassigned]
    split
    · exact hall
    · exact forall_mem_append.mpr ⟨hall, forall_mem_singleton.mpr hname⟩
  refine (isWellNamed_iff _).mpr ⟨htag, forall_mem_map.mp hnames', ?_⟩
  rw [Label.setAttribute, hassigned]
  split
  · exact hnodup
  · next hnew =>
    rw [← concat_eq_append]
    exact hnodup.concat hnew

/-- The policy under which an element is written without loss: the names can be written, a text is
one that reading leaves as it is, and it stands where there is nothing below. -/
def writable : Policy where
  good label := isWellNamed label = true ∧ label.text?.all Element.isCanonicalText = true
  roomy label := label.text? = none
  good_setAttribute value hname h := by
    refine ⟨isWellNamed_setAttribute value ?_ h.1, h.2⟩
    rcases mem_pair.mp hname with rfl | rfl <;> decide
  roomy_setAttribute _ _ h := h
  good_new kind hkind := by
    simp only [mem_cons, not_mem_nil, or_false] at hkind
    rcases hkind with rfl | rfl | rfl <;> decide
  roomy_new _ _ := rfl

theorem isCanonical_of_every {element : Element} (h : element.Every writable.Allows) :
    element.isCanonical := by
  induction h with
  | node label branches hlabel hbranches ih =>
    obtain ⟨hnamed, htext⟩ := hlabel.good
    cases branches with
    | nil => simp [Element.isCanonical, hnamed, htext]
    | cons first rest =>
      obtain ⟨hfirst, hrest⟩ := forall_mem_cons.mp ih
      have hnone : label.text? = none := hlabel.roomy (Or.inl rfl)
      have hall : Element.areCanonical rest := by
        clear ih hbranches hlabel
        induction rest with
        | nil => rfl
        | cons second others ihOthers =>
          obtain ⟨hsecond, hothers⟩ := forall_mem_cons.mp hrest
          simp [Element.areCanonical, hsecond, ihOthers hothers]
      simp [Element.isCanonical, hnamed, hnone, hfirst, hall]

end Markup

/-! ### Wrapping -/

namespace Pragma

open Markup Policy

variable {origin doc : Document} {pragma : NodeId} {sentinel : String}

theorem allows_continuation {chunk : String} (line? : Option String) (last : Bool)
    (htext : Element.isCanonicalText (sentinel ++ " " ++ chunk)) :
    Element.Every writable.Allows (.node (continuation sentinel line? chunk last) []) := by
  refine .node _ _ ⟨⟨?_, htext⟩, fun h ↦ ?_⟩ (forall_mem_nil _)
  · rw [isWellNamed_iff]
    cases line? <;> cases last <;> simp [continuation] <;> decide
  · rcases h with h | h
    · cases h
    · rw [Label.kind, continuation, Kind.ofTag_tag] at h
      cases h

theorem tidy_insertLinks (tidy : writable.Tidy origin doc) (anchor : NodeId)
    (line? : Option String) {chunks : List String}
    (hchunks : ∀ chunk ∈ chunks, Element.isCanonicalText (sentinel ++ " " ++ chunk)) :
    writable.Tidy origin (insertLinks sentinel line? doc anchor chunks) := by
  induction chunks generalizing doc anchor with
  | nil => exact tidy
  | cons chunk rest ih =>
    obtain ⟨hchunk, hrest⟩ := forall_mem_cons.mp hchunks
    have helement := allows_continuation line? rest.isEmpty hchunk
    have hcreated := careful_plant tidy helement
    have hlink := sound_of_new tidy helement (x := doc.fresh) (Nat.le_refl _)
    rw [← push_eq_plant] at hcreated hlink
    exact ih (hcreated.tidy.careful_insertBeside anchor 1 hlink).tidy _ hrest

section Wrap

variable (tidy : writable.Tidy origin doc)
  (horigin : ∀ x, origin.contains x → writable.good (origin.label x))

include tidy horigin

theorem canonical_of_text_ne {x : NodeId} (htext : doc.text x ≠ "") :
    Element.isCanonicalText (doc.text x) ∧ doc.children x = [] := by
  have hsome : (doc.label x).text? = some (doc.text x) := by
    cases hlabel : (doc.label x).text? with
    | none => exact absurd (by rw [Document.text, Label.text, hlabel]; rfl) htext
    | some text => rw [Document.text, Label.text, hlabel]; rfl
  have hlive : doc.contains x := by
    by_contra hstale
    rw [Bool.not_eq_true, contains_eq_false_iff] at hstale
    simp [label, hstale, Label.blank] at hsome
  constructor
  · have hgood := (tidy.good horigin hlive).2
    rwa [hsome] at hgood
  · by_contra hchildren
    have hroomy : (doc.label x).text? = none := tidy.roomy x hlive (Or.inl hchildren)
    rw [hroomy] at hsome
    cases hsome

theorem tidy_shorten (hkind : doc.kind pragma = .pragma)
    (hleaf : doc.children pragma = []) {text : String}
    (htext : Element.isCanonicalText text) :
    writable.Tidy origin ((doc.setText pragma text).setAttribute pragma "is_continued"
      "true") := by
  have hnone : ¬ (doc.children pragma ≠ [] ∨ doc.kind pragma = .body) := by
    simp [hleaf, hkind]
  have hgood : doc.contains pragma →
      writable.good ((doc.label pragma).setText text) := fun hlive ↦
    ⟨(tidy.good horigin hlive).1, htext⟩
  have htexted : writable.Tidy origin (doc.setText pragma text) :=
    tidy.relabel hgood (fun _ ↦ rfl) fun _ h ↦ absurd h hnone
  have hlabel : doc.contains pragma → (doc.setText pragma text).label pragma =
      (doc.label pragma).setText text := label_relabel_self _ _ _
  refine htexted.relabel (fun hlive ↦ ?_) (fun _ ↦ rfl) fun _ h ↦ absurd h ?_
  · rw [setText, contains_relabel] at hlive
    rw [hlabel hlive]
    exact ⟨isWellNamed_setAttribute _ (by decide) (hgood hlive).1, htext⟩
  · have hsame : (doc.setText pragma text).kind pragma = doc.kind pragma :=
      reading_label_relabel doc pragma (·.setText text) Label.kind (fun _ ↦ rfl) pragma
    rw [hsame, setText, children_relabel]
    exact hnone

theorem tidy_wrapAt (hkind : doc.kind pragma = .pragma) (columns : Nat) (marker : String) :
    writable.Tidy origin (wrapAt columns marker doc pragma) := by
  unfold wrapAt wrapAt?
  dsimp only
  split
  · exact tidy
  · next hsentinel =>
    split
    · next first second rest hchunks =>
      have hnonempty : doc.text pragma ≠ "" := by
        intro hempty
        simp [hempty, sentinel] at hsentinel
      obtain ⟨hcanonical, hleaf⟩ := canonical_of_text_ne tidy horigin hnonempty
      have hall : ∀ chunk ∈ first :: second :: rest, Text.Trimmed chunk.toList := by
        rw [← hchunks]
        exact fun chunk ↦ trimmed_of_mem_chunks
      have hfirst : Element.isCanonicalText first :=
        isCanonicalText_of_mem_chunks (hchunks ▸ mem_cons_self ..)
      refine tidy_insertLinks (tidy_shorten tidy horigin hkind hleaf hfirst) pragma _ ?_
      intro chunk hchunk
      exact isCanonicalText_link hcanonical (hall chunk (mem_cons_of_mem _ hchunk))
    · exact tidy

/-- Wrapped pragmas can be written as the policy asks. -/
theorem tidy_wrap (columns : Nat) (marker : String) (root : NodeId) :
    writable.Tidy origin (wrap columns marker doc root) := by
  have hfold (pragmas : List NodeId) (hnodup : pragmas.Nodup)
      (hpragmas : ∀ pragma ∈ pragmas, doc.kind pragma = .pragma ∧
        ∃ parent, doc.parent? pragma = some parent) :
      writable.Tidy origin (pragmas.foldl (wrapAt columns marker) doc) := by
    induction pragmas using List.reverseRecOn with
    | nil => exact tidy
    | append_singleton earlier pragma ih =>
      obtain ⟨hearlier, hpragma⟩ := forall_mem_append.mp hpragmas
      obtain ⟨hkind, parent, hparent⟩ := hpragma pragma (mem_singleton_self _)
      have hnodup := (nodup_append.mp hnodup).1
      have hwrapped := wrapped_foldl tidy.forest columns marker hnodup fun other hother ↦
        (hearlier other hother).2
      rw [foldl_append]
      exact tidy_wrapAt (ih hnodup hearlier) horigin
        ((hwrapped.kind pragma (contains_of_parent? hparent)).trans hkind) columns marker
  rw [wrap_eq_foldl]
  exact hfold _ (pragmas_below tidy.forest root).1 (pragmas_below tidy.forest root).2

end Wrap

end Pragma

/-! ### Programs that can be written -/

namespace Markup

/-- The kinds of the elements that a run puts something into, whether or not they hold anything. -/
def holderKinds : List Kind := [.body, .typeTable, .globalSymbols, .globalDeclarations]

/-- No name of the label holds a blank or a character of markup, and a body or a table holds no
text. -/
def isUnmarked (label : Label) : Bool :=
  label.tag.toList.all isNameChar &&
    label.attributes.all (fun entry ↦ entry.1.toList.all isNameChar) &&
    (!holderKinds.contains label.kind || label.text?.isNone)

def isProper (label : Label) : Bool :=
  label.tag != "" && isUnmarked label

theorem isProper_iff (label : Label) : isProper label ↔
    label.tag ≠ "" ∧ (∀ c ∈ label.tag.toList, isNameChar c) ∧
      (∀ entry ∈ label.attributes, ∀ c ∈ entry.1.toList, isNameChar c) ∧
      (label.kind ∈ holderKinds → label.text? = none) := by
  simp [isProper, isUnmarked, and_assoc, or_iff_not_imp_left]

theorem allows_of_neatAt {label : Label} {leaf : Bool} (neat : label.NeatAt leaf)
    (proper : isProper label) : writable.Allows label leaf := by
  obtain ⟨hnonempty, htag, hnames, hholder⟩ := (isProper_iff label).mp proper
  have hname {name : String} (hne : name ≠ "") (hall : ∀ c ∈ name.toList, isNameChar c) :
      isName name :=
    (isName_iff name).mpr ⟨fun hnil ↦ hne (String.toList_eq_nil_iff.mp hnil), hall⟩
  refine ⟨⟨(isWellNamed_iff label).mpr ⟨hname hnonempty htag, fun entry hentry ↦ ?_,
    neat.neat.names.nodup⟩, ?_⟩, fun h ↦ ?_⟩
  · exact hname (neat.neat.names.nonempty entry hentry) (hnames entry hentry)
  · cases htext : label.text? with
    | none => rfl
    | some text => exact neat.neat.text text htext
  · rcases h with hleaf | hbody
    · refine Option.not_isSome_iff_eq_none.mp fun hsome ↦ ?_
      rw [neat.leaf hsome] at hleaf
      cases hleaf
    · exact hholder (hbody ▸ mem_cons_self ..)

end Markup

namespace SourceUnit

open Markup

variable {role : UnitRole} {text : String} {unit : SourceUnit}

section

variable (h : SourceUnit.read role text = .ok unit) (proper : unit.document.AllLabels isProper)

include h proper

theorem allows_of_read {x : NodeId} (hx : unit.document.contains x) :
    unit.document.Holds writable.Allows x :=
  allows_of_neatAt (neatAt_of_read h hx) (proper x hx)

theorem supplies_of_read : writable.Supplies unit.document :=
  Policy.supplies_of_holds (fromText_of_read h).1.forest fun _ hx ↦ allows_of_read h proper hx

end

theorem tended_of_read (h : SourceUnit.read .program text = .ok unit)
    (proper : unit.document.AllLabels isProper) : Import.Tended writable unit.document unit := by
  obtain ⟨fromText, hrole⟩ := fromText_of_read h
  have hallows {x : NodeId} (hx : unit.document.contains x) :=
    allows_of_read h proper hx
  refine ⟨⟨fromText.forest, fun x hx hbad ↦ absurd (hallows hx).good hbad,
    fun x _ y _ hy ↦ (hallows hy).good, fun x hx hroomy ↦ (hallows hx).roomy ?_⟩,
    fun table htable ↦ ?_⟩
  · exact hroomy.imp_left isEmpty_eq_false_iff.mpr
  · obtain ⟨kind, hkind, hchild⟩ := fromText.childOf?_of_mem_tableNodes htable
    refine ⟨index_lt_size (fromText.contains_of_mem_tableNodes htable),
      fun hlive ↦ ((isProper_iff _).mp (proper table hlive)).2.2.2 ?_⟩
    rw [hrole] at hkind
    have hsame : (unit.document.label table).kind = kind := kind_of_childOf? hchild
    rw [hsame]
    exact mem_cons_of_mem _ hkind

end SourceUnit

namespace Run

open Markup

variable {program : SourceUnit}

theorem tidy_wrapPragmas {origin : Document} (settings : Settings)
    (tidy : writable.Tidy origin program.document)
    (horigin : ∀ x, origin.contains x → writable.good (origin.label x)) :
    writable.Tidy origin (wrapPragmas settings program).document := by
  unfold wrapPragmas
  split
  · exact tidy
  · exact Pragma.tidy_wrap tidy horigin _ _ _

/-- Whatever is written after a run on a proper program, with proper modules at hand and to be
loaded, can be read again, and what is read is the transformed program. -/
theorem sameStructure_of_transform (context : Context) {text : String} {library : Library}
    (hprogram : SourceUnit.read .program text = .ok program)
    (hproper : program.document.AllLabels isProper)
    (hlibrary : ∀ entry ∈ library.modules, ∃ role text,
      SourceUnit.read role text = .ok entry.2 ∧ entry.2.document.AllLabels isProper)
    (hfiles : ∀ unit, CanLoad context program library unit → unit.document.AllLabels isProper) :
    ∃ after report, transform context { program, library } = .ok (after, report) ∧
      ∃ copy copyRoot, readDocument after.program.write = .ok (copy, copyRoot) ∧
        copy.sameStructure copyRoot after.program.document after.program.root = true := by
  obtain ⟨fromText, -⟩ := SourceUnit.fromText_of_read hprogram
  have hreadable : library.Readable := by
    intro entry hentry
    obtain ⟨_, _, hread, -⟩ := hlibrary entry hentry
    exact (SourceUnit.fromText_of_read hread).1.readable
  have hgroups := forall₂_found fromText.forest context.marker
  let start : Progress :=
    { workspace := { program, library }, report := (discover context.marker program).2 }
  let done := applyGroups context (discover context.marker program).1 start
  have hstart : writable.Kept program.document library start.workspace := by
    refine ⟨SourceUnit.tended_of_read hprogram hproper, fun entry hentry ↦ ?_, rfl⟩
    obtain ⟨_, _, hread, hentry⟩ := hlibrary entry hentry
    exact SourceUnit.supplies_of_read hread hentry
  have hdone : writable.Kept program.document library done.workspace := by
    refine kept_applyGroups (fun unit hload ↦ ?_) hstart
    obtain ⟨_, _, _, -, hread⟩ := hload.exists_read
    exact SourceUnit.supplies_of_read hread (hfiles unit hload)
  have horigin : ∀ x, program.document.contains x = true →
      writable.good (program.document.label x) := fun x hx ↦
    (SourceUnit.allows_of_read hprogram hproper hx).good
  obtain ⟨hsame, forest, hroot, -⟩ :=
    rootedAt_applyGroups start context fromText rfl hreadable hgroups
  have hwrapped := wrapped_wrapPragmas context.settings forest
  have htidy := tidy_wrapPragmas context.settings hdone.program.tidy horigin
  refine ⟨_, _, transform_of_validate context fromText.validate_eq_ok, ?_⟩
  have hplaces := hsame.trans (samePlaces_wrapPragmas context.settings done.workspace.program)
  let after := wrapPragmas context.settings done.workspace.program
  have hlive : after.document.contains after.root = true := by
    rw [hplaces.root]
    exact hwrapped.contains _ hroot
  have hcanonical : (after.document.element after.root).isCanonical = true :=
    isCanonical_of_every (htidy.every_element (fun _ _ hx ↦ htidy.good horigin hx) hlive)
  have hplanted := forest_empty.planted_plant (after.document.element after.root)
  refine ⟨(ofElement (after.document.element after.root)).1,
    (ofElement (after.document.element after.root)).2, ?_, ?_⟩
  · change readDocument (writeDocument after.document after.root) = _
    rw [readDocument, writeDocument, if_pos hlive, read_write hcanonical]
  · change Document.sameStructure _ _ after.document after.root = true
    rw [ofElement, snd_plant, Document.sameStructure, forest_empty.element_plant, hlive,
      Element.sameStructure_self]
    simp [hplanted.contains_root (List.mem_singleton_self _)]

def latticeModule : Element :=
  .moduleFile
    [.basicType "K" "Fint" [],
     .basicType "A" "Freal" [.range (.typed "FintConstant" "Fint" "0") (.typed "Var" "K" "n")]]
    [.symbol "n" "K", .symbol "field" "A"] [.declaration "n" "K"]

/-- A program that takes the bounds of that array and has another type under the name of the type,
with a pragma that is too long for its lines. -/
def longPragmas : Element :=
  .program [.basicType "K" "Freal" []]
    [.pragma "lsm import-bounds module(lattice) array(field)", .loop "i" [],
     .pragma "acc parallel loop gang vector private(work)", .loop "i" []]

def shortLines : Context where
  settings := { columns? := some 24, directories := ["/modules"] }
  files := { origin := "/", home := "/", entries := [(["modules"], .directory),
    (["modules", "lattice.xmod"], .text (write latticeModule))] }

theorem sameStructure_of_transform_longPragmas :
    ∃ program, SourceUnit.read .program (write longPragmas) = .ok program ∧
      ∃ after report, transform shortLines { program, library := shortLines.settings.library } =
          .ok (after, report) ∧
        ∃ copy copyRoot, readDocument after.program.write = .ok (copy, copyRoot) ∧
          copy.sameStructure copyRoot after.program.document after.program.root = true := by
  obtain ⟨program, hprogram, hdocument, -⟩ := SourceUnit.exists_read_write (by decide +kernel)
    (SourceUnit.tableElements_eq_ok_iff.mpr (by decide +kernel) :
      SourceUnit.tableElements .program (Document.ofElement longPragmas).1
        (Document.ofElement longPragmas).2 =
          .ok { types := ⟨1⟩, symbols := ⟨3⟩, declarations := ⟨4⟩ })
  refine ⟨program, hprogram, sameStructure_of_transform shortLines hprogram ?_
    (List.forall_mem_nil _) fun unit hload ↦ ?_⟩
  · rw [hdocument]
    decide +kernel
  · obtain ⟨path, text, name, hfile, hread⟩ := hload.exists_read
    obtain ⟨location, hmem⟩ := Files.exists_mem_of_read hfile
    obtain ⟨-, rfl⟩ : location = ["modules", "lattice.xmod"] ∧ text = write latticeModule := by
      simpa [shortLines] using hmem
    rw [SourceUnit.document_of_read_write (by decide +kernel) hread]
    decide +kernel

def namelessElement : String :=
  "<XcodeProgram><typeTable/><globalSymbols/>" ++
    "<globalDeclarations><></></globalDeclarations></XcodeProgram>"

/-- An empty element without a tag is read, but what is written for it is no element. -/
theorem not_readDocument_namelessElement :
    ∃ program after report, SourceUnit.read .program namelessElement = .ok program ∧
      program.document.AllLabels isUnmarked ∧
      transform plainContext { program, library := {} } =
        .ok (after, report) ∧
      ¬ ∃ copy, readDocument after.program.write = .ok copy := by
  have heval : ((SourceUnit.read .program namelessElement).toOption.any fun program ↦
      decide (program.document.AllLabels isUnmarked) &&
        ((transform plainContext
          { program, library := {} }).toOption.any fun result ↦
            !(readDocument result.1.program.write).toBool)) = true := by
    decide +kernel
  obtain ⟨program, hread, heval⟩ := exists_of_any_toOption heval
  obtain ⟨hlabels, heval⟩ := Bool.and_eq_true_iff.mp heval
  obtain ⟨⟨after, report⟩, hrun, heval⟩ := exists_of_any_toOption heval
  refine ⟨program, after, report, hread, of_decide_eq_true hlabels, hrun, ?_⟩
  rintro ⟨copy, hcopy⟩
  simp [hcopy, Except.toBool] at heval

end Run

end LoopDirectives
