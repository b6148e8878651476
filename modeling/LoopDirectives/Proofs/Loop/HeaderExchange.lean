import LoopDirectives.Proofs.Import.TypeLayer
import LoopDirectives.Proofs.Loop.Swap

/-!
# Exchanging the headers of two loops

The header of a loop is read from the document part by part (`headerSlots`), whether it is complete
or not. Exchanging the headers of two loops that are complete and separate, with no more than one
step each, succeeds and exchanges exactly the two headers (`HeadersExchanged`); for other loops it
fails and nothing has happened (`exchangeHeaders_exact`).
-/

namespace LoopDirectives.Loop

open Document List

variable {doc before after : Document} {loop left right x : NodeId} {header : Header}

/-! ### Reading a header part by part -/

/-- The nodes of the header of a loop: the variable, what stands first in the two bounds, and the
step, each of which may be missing. -/
def headerSlots (doc : Document) (loop : NodeId) : List (Option NodeId) :=
  [doc.childOf? loop .var,
   (doc.path? loop [.indexRange, .lowerBound]).bind doc.firstChild?,
   (doc.path? loop [.indexRange, .upperBound]).bind doc.firstChild?,
   doc.path? loop [.indexRange, .step]]

def headerNodes (doc : Document) (loop : NodeId) : List NodeId :=
  (headerSlots doc loop).filterMap id

def headerContent (doc : Document) (loop : NodeId) : List (Option Element) :=
  (headerSlots doc loop).map (Option.map doc.element)

def headerRanges (doc : Document) (loops : List NodeId) : List NodeId :=
  loops.filterMap (doc.childOf? · .indexRange)

/-- The node is a loop with a variable and a range, and there is something in both bounds. -/
def Complete (doc : Document) (loop : NodeId) : Prop :=
  doc.isKind loop .doLoop = true ∧ (doc.childOf? loop .var).isSome = true ∧
    ∀ kind ∈ [Kind.lowerBound, Kind.upperBound],
      ∃ bound ∈ doc.path? loop [.indexRange, kind], doc.children bound ≠ []

instance : Decidable (Complete doc loop) :=
  inferInstanceAs (Decidable (_ ∧ _))

theorem header_of_parts (parts : Parts doc loop header) :
    Loop.header doc loop = .ok header := by
  obtain ⟨lower, hlower, hlowerFirst⟩ := parts.lower
  obtain ⟨upper, hupper, hupperFirst⟩ := parts.upper
  have hbound {kind : Kind} {bound content : NodeId}
      (h : doc.childOf? header.range kind = some bound)
      (hfirst : doc.firstChild? bound = some content) :
      boundContent doc header.range kind = .ok content := by
    rw [boundContent, h, Option.bind_some, hfirst]
  rw [Loop.header, if_pos parts.isKind, varNode?, parts.varNode, parts.range]
  simp only [hbound hlower hlowerFirst, hbound hupper hupperFirst, parts.step?]
  rfl

theorem complete_iff_exists_parts :
    Complete doc loop ↔ ∃ header, Parts doc loop header := by
  constructor
  · rintro ⟨hkind, hvar, hbounds⟩
    obtain ⟨varNode, hvarNode⟩ := Option.isSome_iff_exists.mp hvar
    obtain ⟨lower, hlower, hlowerFirst⟩ := hbounds .lowerBound (by simp)
    obtain ⟨upper, hupper, hupperFirst⟩ := hbounds .upperBound (by simp)
    rw [Option.mem_def, path?_pair] at hlower hupper
    obtain ⟨range, hrange, hlower⟩ := Option.bind_eq_some_iff.mp hlower
    rw [hrange, Option.bind_some] at hupper
    have hfirst {bound : NodeId} (h : doc.children bound ≠ []) :
        doc.firstChild? bound = some ((doc.children bound).head h) :=
      head?_eq_some_head h
    exact ⟨⟨varNode, range, _, _, doc.childOf? range .step⟩, hkind, hvarNode, hrange,
      ⟨lower, hlower, hfirst hlowerFirst⟩, ⟨upper, hupper, hfirst hupperFirst⟩, rfl⟩
  · rintro ⟨header, parts⟩
    have hbound {kind : Kind} {content : NodeId}
        (h : ∃ bound, doc.childOf? header.range kind = some bound ∧
          doc.firstChild? bound = some content) :
        ∃ bound ∈ doc.path? loop [.indexRange, kind], doc.children bound ≠ [] := by
      obtain ⟨bound, hbound, hfirst⟩ := h
      refine ⟨bound, ?_, ne_nil_of_mem (mem_children_of_firstChild? hfirst)⟩
      rw [path?_pair, parts.range, Option.bind_some]
      exact hbound
    refine ⟨parts.isKind, by rw [parts.varNode]; rfl, fun kind hkind ↦ ?_⟩
    rcases mem_pair.mp hkind with rfl | rfl
    · exact hbound parts.lower
    · exact hbound parts.upper

section

variable (parts : Parts doc loop header)

include parts

theorem headerSlots_of_parts :
    headerSlots doc loop =
      [some header.varNode, some header.lower, some header.upper, header.step?] := by
  obtain ⟨lower, hlower, hlowerFirst⟩ := parts.lower
  obtain ⟨upper, hupper, hupperFirst⟩ := parts.upper
  simp only [headerSlots, path?_pair, parts.varNode, parts.range, Option.bind_some, hlower, hupper,
    hlowerFirst, hupperFirst, parts.step?]

theorem headerNodes_of_parts : headerNodes doc loop = header.nodes := by
  rw [headerNodes, headerSlots_of_parts parts]
  cases hstep : header.step? <;> simp [Header.nodes, hstep]

theorem headerContent_of_parts :
    headerContent doc loop =
      header.core.map (fun node ↦ some (doc.element node)) ++
        [header.step?.map doc.element] := by
  rw [headerContent, headerSlots_of_parts parts]
  rfl

end

theorem headerContent_congr {other : NodeId} {theirs : Header}
    (parts : Parts after loop header) (hother : Parts before other theirs)
    (hcore : header.core.map after.element = theirs.core.map before.element)
    (hstep : header.step?.map after.element = theirs.step?.map before.element) :
    headerContent after loop = headerContent before other := by
  have hsome (ids : List NodeId) (doc : Document) :
      ids.map (fun node ↦ some (doc.element node)) = (ids.map doc.element).map some := by
    rw [map_map]
    rfl
  rw [headerContent_of_parts parts, headerContent_of_parts hother, hsome, hsome, hcore, hstep]

/-! ### Exchanging two headers -/

/-- What it takes to exchange the headers of two loops exactly. -/
structure Exchangeable (doc : Document) (left right : NodeId) : Prop where
  complete_left : Complete doc left
  complete_right : Complete doc right
  separate : Separate doc left right
  single : ∀ range ∈ headerRanges doc [left, right], SingleStep doc range

/-- Two loops have exchanged their headers, every other node stays as and where it was, and nothing
but the new headers has come. A step that only one of the two has moves over, so that in the two
ranges it is the order that stays. -/
structure HeadersExchanged (before after : Document) (left right : NodeId) : Prop where
  content_left : headerContent after left = headerContent before right
  content_right : headerContent after right = headerContent before left
  keeps : KeepsPlaces before after (headerNodes before left ++ headerNodes before right)
    (headerRanges before [left, right])
  fixed : (before.path? left [.indexRange, .step]).isSome =
      (before.path? right [.indexRange, .step]).isSome →
    KeepsPlaces before after (headerNodes before left ++ headerNodes before right) []
  cover : ∀ x, after.contains x = true →
    before.Clear (headerNodes before left ++ headerNodes before right) x ∨
      ∃ node ∈ headerNodes after left ++ headerNodes after right, x ∈ after.subtree node

/-- Both loops have a step or none has, or the step of the one that has it is the last child of its
range. -/
def Restorable (doc : Document) (left right : NodeId) : Prop :=
  (doc.path? left [.indexRange, .step]).isSome =
      (doc.path? right [.indexRange, .step]).isSome ∨
    ∀ loop ∈ [left, right], ∀ range ∈ doc.childOf? loop .indexRange,
      ∀ step ∈ doc.childOf? range .step, doc.lastChild? range = some step

instance : Decidable (Restorable doc left right) :=
  inferInstanceAs (Decidable (_ ∨ _))

theorem headerRanges_of_parts {first second : Header} (hfirst : Parts doc left first)
    (hsecond : Parts doc right second) :
    headerRanges doc [left, right] = [first.range, second.range] := by
  simp [headerRanges, hfirst.range, hsecond.range]

theorem Exchangeable.exists_parts (exchangeable : Exchangeable doc left right) :
    ∃ first second, Parts doc left first ∧ Parts doc right second ∧
      SingleStep doc first.range ∧ SingleStep doc second.range := by
  obtain ⟨first, hfirst⟩ := complete_iff_exists_parts.mp exchangeable.complete_left
  obtain ⟨second, hsecond⟩ := complete_iff_exists_parts.mp exchangeable.complete_right
  have hsingle := exchangeable.single
  rw [headerRanges_of_parts hfirst hsecond] at hsingle
  exact ⟨first, second, hfirst, hsecond, hsingle _ (by simp), hsingle _ (by simp)⟩

theorem Exchangeable.hung (exchangeable : Exchangeable doc left right)
    (forest : doc.Forest) :
    doc.Hung (headerNodes doc left ++ headerNodes doc right) := by
  obtain ⟨first, second, hfirst, hsecond, -⟩ := exchangeable.exists_parts
  rw [headerNodes_of_parts hfirst, headerNodes_of_parts hsecond]
  exact exchangeable.separate.hung forest hfirst hsecond

theorem clear_of_root {parts : List NodeId} (forest : doc.Forest)
    (hung : doc.Hung parts) (hlive : doc.contains x)
    (hroot : doc.parent? x = none) : doc.Clear parts x := by
  refine ⟨hlive, fun part hpart hmem ↦ ?_⟩
  rcases (forest.mem_subtree_iff part x).mp hmem with rfl | habove
  · obtain ⟨parent, hparent⟩ := hung.exists_parent? x hpart
    rw [hroot] at hparent
    cases hparent
  · exact not_above_of_parent?_eq_none hroot habove

theorem Exchangeable.exists_exchanged (exchangeable : Exchangeable doc left right)
    (forest : doc.Forest) :
    ∃ after, exchangeHeaders doc left right = .ok after ∧
      HeadersExchanged doc after left right ∧ Exchangeable after left right ∧
      (∀ node ∈ headerNodes after left ++ headerNodes after right,
        ¬ doc.Clear (headerNodes doc left ++ headerNodes doc right) node) ∧
      (Restorable doc left right →
        ∀ twice, exchangeHeaders after left right = .ok twice →
          ∀ x, doc.Clear (headerNodes doc left ++ headerNodes doc right) x →
            twice.element x = doc.element x) := by
  obtain ⟨first, second, hfirst, hsecond, hsingleLeft, hsingleRight⟩ := exchangeable.exists_parts
  obtain ⟨first', second', swapped, traded, hback⟩ := exists_traded exchangeable.separate forest
    hfirst hsecond hsingleLeft hsingleRight
  have hranges := headerRanges_of_parts swapped.parts_left swapped.parts_right
  rw [swapped.range_left, swapped.range_right] at hranges
  refine ⟨_, exchangeHeaders_eq (header_of_parts hfirst) (header_of_parts hsecond),
    ⟨headerContent_congr swapped.parts_left hsecond swapped.core_left traded.step?_left,
      headerContent_congr swapped.parts_right hfirst swapped.core_right traded.step?_right,
      ?_, ?_, ?_⟩,
    ⟨complete_iff_exists_parts.mpr ⟨_, swapped.parts_left⟩,
      complete_iff_exists_parts.mpr ⟨_, swapped.parts_right⟩,
      swapped.separate traded forest hfirst hsecond exchangeable.separate, ?_⟩, ?_, ?_⟩
  · rw [headerNodes_of_parts hfirst, headerNodes_of_parts hsecond,
      headerRanges_of_parts hfirst hsecond]
    exact swapped.keeps
  · rw [headerNodes_of_parts hfirst, headerNodes_of_parts hsecond, path?_pair, path?_pair,
      hfirst.range, hsecond.range, Option.bind_some, Option.bind_some, hfirst.step?, hsecond.step?]
    exact swapped.fixed
  · rw [headerNodes_of_parts hfirst, headerNodes_of_parts hsecond,
      headerNodes_of_parts swapped.parts_left, headerNodes_of_parts swapped.parts_right]
    exact traded.cover
  · rw [hranges]
    intro range hrange
    rcases mem_pair.mp hrange with rfl | rfl
    · exact traded.single_left
    · exact traded.single_right
  · rw [headerNodes_of_parts hfirst, headerNodes_of_parts hsecond,
      headerNodes_of_parts swapped.parts_left, headerNodes_of_parts swapped.parts_right]
    exact traded.notClear
  · intro hrestorable twice htwice x hx
    rw [headerNodes_of_parts hfirst, headerNodes_of_parts hsecond] at hx
    rw [exchangeHeaders_eq (header_of_parts swapped.parts_left)
      (header_of_parts swapped.parts_right)] at htwice
    cases htwice
    refine hback ?_ x hx
    simp only [Restorable, path?_pair, hfirst.range, hsecond.range, Option.bind_some, hfirst.step?,
      hsecond.step?] at hrestorable
    refine hrestorable.imp_right fun hlast header hheader step hstep ↦ ?_
    rcases mem_pair.mp hheader with rfl | rfl
    · exact hlast left (by simp) _ hfirst.range step (hfirst.step?.trans hstep)
    · exact hlast right (by simp) _ hsecond.range step (hsecond.step?.trans hstep)

theorem complete_of_exchangeHeaders (h : exchangeHeaders doc left right = .ok after) :
    Complete doc left ∧ Complete doc right := by
  obtain ⟨first, second, hfirst, hsecond, -⟩ := exchangeHeaders_eq_ok h
  exact ⟨complete_iff_exists_parts.mpr ⟨first, hfirst⟩,
    complete_iff_exists_parts.mpr ⟨second, hsecond⟩⟩

theorem exists_exchangeHeaders_eq_ok (hleft : Complete doc left)
    (hright : Complete doc right) :
    ∃ after, exchangeHeaders doc left right = .ok after := by
  obtain ⟨first, hfirst⟩ := complete_iff_exists_parts.mp hleft
  obtain ⟨second, hsecond⟩ := complete_iff_exists_parts.mp hright
  exact ⟨_, exchangeHeaders_eq (header_of_parts hfirst) (header_of_parts hsecond)⟩

/-- Exchanging the headers of two loops exchanges exactly these, and exchanging them again brings
both back; and where one of the headers is not complete it fails and changes nothing. -/
theorem exchangeHeaders_exact (forest : doc.Forest) (left right : NodeId) :
    (Exchangeable doc left right →
      ∃ after twice, exchangeHeaders doc left right = .ok after ∧
        HeadersExchanged doc after left right ∧
        exchangeHeaders after left right = .ok twice ∧
        headerContent twice left = headerContent doc left ∧
        headerContent twice right = headerContent doc right ∧
        (Restorable doc left right → ∀ root, doc.contains root = true →
          doc.parent? root = none → twice.sameStructure root doc root = true)) ∧
    (¬ (Complete doc left ∧ Complete doc right) →
      ∃ cause, Outcome.ofExcept doc (exchangeHeaders doc left right) =
        { state := doc, result := .error cause }) := by
  refine ⟨fun exchangeable ↦ ?_, fun hincomplete ↦ ?_⟩
  · obtain ⟨after, hafter, exchanged, hagain, -, hback⟩ := exchangeable.exists_exchanged forest
    obtain ⟨twice, htwice, restored, -⟩ := hagain.exists_exchanged exchanged.keeps.forest
    refine ⟨after, twice, hafter, exchanged, htwice,
      restored.content_left.trans exchanged.content_right,
      restored.content_right.trans exchanged.content_left, fun hrestorable root hlive hroot ↦ ?_⟩
    have hclear := clear_of_root forest (exchangeable.hung forest) hlive hroot
    have hafterRoot := clear_of_root exchanged.keeps.forest (hagain.hung exchanged.keeps.forest)
      (exchanged.keeps.contains root hclear) ((exchanged.keeps.parent? root hclear).trans hroot)
    rw [sameStructure, restored.keeps.contains root hafterRoot, hlive, Bool.true_and,
      Bool.true_and, Element.sameStructure_iff]
    exact hback hrestorable twice htwice root hclear
  · cases h : exchangeHeaders doc left right with
    | ok after => exact absurd (complete_of_exchangeHeaders h) hincomplete
    | error cause => exact ⟨cause, rfl⟩

def nestedLoops : Element :=
  .branch "FdoStatement"
    [.var "i",
     .branch "indexRange"
      [.branch "lowerBound" [.int "1"], .branch "upperBound" [.int "9"], .branch "step" [.int "2"]],
     .branch "body" [.loop "j" []]]

theorem exchangeHeaders_exact_nestedLoops :
    (∃ after twice, exchangeHeaders (ofElement nestedLoops).1 ⟨0⟩ ⟨10⟩ = .ok after ∧
      HeadersExchanged (ofElement nestedLoops).1 after ⟨0⟩ ⟨10⟩ ∧
      exchangeHeaders after ⟨0⟩ ⟨10⟩ = .ok twice ∧
      headerContent twice ⟨0⟩ = headerContent (ofElement nestedLoops).1 ⟨0⟩ ∧
      headerContent twice ⟨10⟩ = headerContent (ofElement nestedLoops).1 ⟨10⟩ ∧
      twice.sameStructure ⟨0⟩ (ofElement nestedLoops).1 ⟨0⟩ = true) ∧
    ∃ cause, Outcome.ofExcept (ofElement nestedLoops).1
        (exchangeHeaders (ofElement nestedLoops).1 ⟨0⟩ ⟨9⟩) =
      { state := (ofElement nestedLoops).1, result := .error cause } := by
  have forest := forest_ofElement nestedLoops
  have hexchangeable : Exchangeable (ofElement nestedLoops).1 ⟨0⟩ ⟨10⟩ :=
    ⟨by decide +kernel, by decide +kernel,
      ⟨by decide +kernel, by decide +kernel, by decide +kernel⟩, by decide +kernel⟩
  obtain ⟨after, twice, hafter, exchanged, htwice, hleft, hright, hback⟩ :=
    (exchangeHeaders_exact forest ⟨0⟩ ⟨10⟩).1 hexchangeable
  exact ⟨⟨after, twice, hafter, exchanged, htwice, hleft, hright,
    hback (by decide +kernel) ⟨0⟩ (by decide +kernel) (by decide +kernel)⟩,
    (exchangeHeaders_exact forest ⟨0⟩ ⟨9⟩).2 (by decide +kernel)⟩

end LoopDirectives.Loop
