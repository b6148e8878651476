import LoopDirectives.Loop.Header
import LoopDirectives.Proofs.Document.Scope
import LoopDirectives.Proofs.Except

/-!
# Exchanging headers

`Parts` says where the parts of a header are found below its loop; no node of a header is below
another one (`Parts.pairwise_apart`). Exchanging two nodes, and so exchanging the headers of two
loops, keeps to every scope that has the nodes, or the loops, inside.
-/

namespace LoopDirectives.Loop

open Document List

variable {scope : Scope} {doc after : Document} {loop left right content : NodeId}

/-! ### The parts of a header -/

/-- Where the parts of the header of a loop are. -/
structure Parts (doc : Document) (loop : NodeId) (header : Header) : Prop where
  isKind : doc.isKind loop .doLoop = true
  varNode : doc.childOf? loop .var = some header.varNode
  range : doc.childOf? loop .indexRange = some header.range
  lower : ∃ bound, doc.childOf? header.range .lowerBound = some bound ∧
    doc.firstChild? bound = some header.lower
  upper : ∃ bound, doc.childOf? header.range .upperBound = some bound ∧
    doc.firstChild? bound = some header.upper
  step? : doc.childOf? header.range .step = header.step?

theorem boundContent_eq_ok {range : NodeId} {kind : Kind}
    (h : boundContent doc range kind = .ok content) :
    ∃ bound, doc.childOf? range kind = some bound ∧
      doc.firstChild? bound = some content := by
  unfold boundContent at h
  split at h
  · cases h
  · next found hfound =>
    cases h
    exact Option.bind_eq_some_iff.mp hfound

theorem parts_of_header {header : Header} (h : Loop.header doc loop = .ok header) :
    Parts doc loop header := by
  unfold Loop.header at h
  split at h
  · next hkind =>
    split at h
    · next varNode range hvar hrange =>
      obtain ⟨lower, hlower, h⟩ := exists_of_bind_eq_ok h
      obtain ⟨upper, hupper, h⟩ := exists_of_bind_eq_ok h
      cases h
      exact ⟨hkind, hvar, hrange, boundContent_eq_ok hlower, boundContent_eq_ok hupper, rfl⟩
    · cases h
  · cases h

theorem mem_children_of_firstChild? {bound : NodeId}
    (h : doc.firstChild? bound = some content) : content ∈ doc.children bound :=
  mem_of_mem_head? h

/-- The nodes of a header that are exchanged, the step last. -/
def Header.nodes (header : Header) : List NodeId :=
  [header.varNode, header.lower, header.upper] ++ header.step?.toList

namespace Parts

variable {header : Header} {node : NodeId} (parts : Parts doc loop header)
  (forest : doc.Forest)

include parts forest

theorem mem_subtree_part (hnode : node ∈ header.nodes) :
    node = header.varNode ∨ node ∈ doc.subtree header.range := by
  have hbelow {bound : NodeId} {kind : Kind}
      (hbound : doc.childOf? header.range kind = some bound)
      (hmem : node ∈ doc.subtree bound) : node ∈ doc.subtree header.range :=
    forest.mem_subtree_trans hmem
      (forest.mem_subtree_of_mem_children (mem_children_of_childOf? hbound))
  have hcontent {bound : NodeId} (hfirst : doc.firstChild? bound = some node) :
      node ∈ doc.subtree bound :=
    forest.mem_subtree_of_mem_children (mem_children_of_firstChild? hfirst)
  obtain ⟨lowerBound, hlowerBound, hlower⟩ := parts.lower
  obtain ⟨upperBound, hupperBound, hupper⟩ := parts.upper
  simp only [Header.nodes, cons_append, nil_append, mem_cons,
    Option.mem_toList] at hnode
  rcases hnode with rfl | rfl | rfl | hstep
  · exact Or.inl rfl
  · exact Or.inr (hbelow hlowerBound (hcontent hlower))
  · exact Or.inr (hbelow hupperBound (hcontent hupper))
  · exact Or.inr (hbelow (parts.step?.trans hstep) (forest.self_mem_subtree node))

theorem exists_child (hnode : node ∈ header.nodes) :
    ∃ child, doc.parent? child = some loop ∧ doc.kind child ≠ .body ∧
      node ∈ doc.subtree child := by
  rcases parts.mem_subtree_part forest hnode with rfl | hnode
  · exact ⟨header.varNode, forest.parent?_of_childOf? parts.varNode,
      by rw [kind_of_childOf? parts.varNode]; decide, forest.self_mem_subtree _⟩
  · exact ⟨header.range, forest.parent?_of_childOf? parts.range,
      by rw [kind_of_childOf? parts.range]; decide, hnode⟩

theorem exists_parent? (hnode : node ∈ header.nodes) :
    ∃ parent, doc.parent? node = some parent := by
  obtain ⟨child, hchild, -, hmem⟩ := parts.exists_child forest hnode
  rcases (forest.mem_subtree_iff child node).mp hmem with rfl | habove
  · exact ⟨loop, hchild⟩
  · exact habove.exists_parent?

/-- The parts of one header are apart. -/
theorem pairwise_apart : header.nodes.Pairwise doc.Apart := by
  have hrange := forest.parent?_of_childOf? parts.range
  obtain ⟨lowerBound, hlowerBound, hlower⟩ := parts.lower
  obtain ⟨upperBound, hupperBound, hupper⟩ := parts.upper
  have hlowerMem := forest.mem_subtree_of_mem_children (mem_children_of_firstChild? hlower)
  have hupperMem := forest.mem_subtree_of_mem_children (mem_children_of_firstChild? hupper)
  have hpart {bound node : NodeId} {kind : Kind}
      (hbound : doc.childOf? header.range kind = some bound)
      (hmem : node ∈ doc.subtree bound) : doc.Apart header.varNode node := by
    refine forest.apart_of_siblings (forest.parent?_of_childOf? parts.varNode) hrange ?_
      (forest.self_mem_subtree _) (forest.mem_subtree_trans hmem
        (forest.mem_subtree_of_mem_children (mem_children_of_childOf? hbound)))
    rw [kind_of_childOf? parts.varNode, kind_of_childOf? parts.range]
    decide
  have hbounds {left right x y : NodeId} {leftKind rightKind : Kind} (hne : leftKind ≠ rightKind)
      (hleft : doc.childOf? header.range leftKind = some left)
      (hright : doc.childOf? header.range rightKind = some right)
      (hx : x ∈ doc.subtree left) (hy : y ∈ doc.subtree right) : doc.Apart x y := by
    refine forest.apart_of_siblings (forest.parent?_of_childOf? hleft)
      (forest.parent?_of_childOf? hright) ?_ hx hy
    rwa [kind_of_childOf? hleft, kind_of_childOf? hright]
  have hlowerUpper := hbounds (by decide) hlowerBound hupperBound hlowerMem hupperMem
  cases hstep : header.step? with
  | none =>
    simp [Header.nodes, hstep, hpart hlowerBound hlowerMem, hpart hupperBound hupperMem,
      hlowerUpper]
  | some step =>
    have hstepBound := parts.step?.trans hstep
    have hstepMem := forest.self_mem_subtree step
    simp [Header.nodes, hstep, hpart hlowerBound hlowerMem, hpart hupperBound hupperMem,
      hlowerUpper, hpart hstepBound hstepMem,
      hbounds (by decide) hlowerBound hstepBound hlowerMem hstepMem,
      hbounds (by decide) hupperBound hstepBound hupperMem hstepMem]

end Parts

/-! ### Exchanging two nodes -/

def withCopies (doc : Document) (left right : NodeId) : Document :=
  let withLeft := (doc.plant none (doc.element left)).1
  (withLeft.plant none (withLeft.element right)).1

def secondCopy (doc : Document) (left : NodeId) : NodeId :=
  (doc.plant none (doc.element left)).1.fresh

theorem copyOf_of_contains (forest : doc.Forest) (h : doc.contains left) :
    copyOf doc left =
      ((doc.plant none (doc.element left)).1, some doc.fresh) := by
  have hcopy : doc.copy? left = some (doc.plant none (doc.element left)) := by
    rw [forest.copy?_eq, copyFrom?_eq_plant, if_pos h]
  rw [copyOf, hcopy]
  exact Prod.ext rfl (congrArg some (snd_plant doc none _))

theorem copyOf_of_stale (h : doc.contains left = false) :
    copyOf doc left = (doc, none) := by
  have hcopy : doc.copy? left = none := by simp [copy?, h]
  rw [copyOf, hcopy]

theorem contains_right_of_plant (forest : doc.Forest) (element : Element)
    (h : doc.contains right) : (doc.plant none element).1.contains right :=
  ((forest.planted_plant element).readings_old (index_lt_size h)).1.trans h

theorem exchange_of_contains (forest : doc.Forest) (hleft : doc.contains left)
    (hright : doc.contains right) :
    exchange doc left right =
      ((((withCopies doc left right).insertAfter right doc.fresh).insertAfter left
        (secondCopy doc left)).delete left).delete right := by
  simp only [exchange, copyOf_of_contains forest hleft,
    copyOf_of_contains (forest.plant _) (contains_right_of_plant forest _ hright)]
  rfl

theorem steps_copyOf (forest : doc.Forest) (node : NodeId) :
    scope.Steps doc (copyOf doc node).1 := by
  cases h : doc.contains node with
  | false =>
    rw [copyOf_of_stale h]
  | true =>
    rw [copyOf_of_contains forest h]
    exact .single (.plant doc _)

theorem eq_fresh_of_copyOf (forest : doc.Forest) {node copy : NodeId}
    (h : (copyOf doc node).2 = some copy) :
    copy = doc.fresh := by
  cases hcontains : doc.contains node with
  | false => simp [copyOf_of_stale hcontains] at h
  | true =>
    rw [copyOf_of_contains forest hcontains] at h
    exact (Option.some.inj h).symm

theorem steps_exchange (guards : scope.Guards doc) (hleft : scope.inside left)
    (hright : scope.inside right) : scope.Steps doc (exchange doc left right) := by
  have hfirst : scope.Steps doc (copyOf doc left).1 := steps_copyOf guards.forest left
  have hguards := Scope.Steps.guards guards hfirst
  have hboth : scope.Steps doc (copyOf (copyOf doc left).1 right).1 :=
    hfirst.trans (steps_copyOf hguards.forest right)
  unfold exchange
  dsimp only
  split
  · next leftCopy rightCopy hleftCopy hrightCopy =>
    have hnewLeft : scope.size ≤ leftCopy.index := by
      rw [eq_fresh_of_copyOf guards.forest hleftCopy]
      exact guards.size_le
    have hnewRight : scope.size ≤ rightCopy.index := by
      rw [eq_fresh_of_copyOf hguards.forest hrightCopy]
      exact hguards.size_le
    exact (((hboth.tail (.insertBeside _ right leftCopy 1 hright hnewLeft)).tail
      (.insertBeside _ left rightCopy 1 hleft hnewRight)).tail (.delete _ left hleft)).tail
      (.delete _ right hright)
  · exact hboth

/-! ### Exchanging two headers -/

def exchangeAll (doc : Document) (pairs : List (NodeId × NodeId)) : Document :=
  pairs.foldl (fun doc pair ↦ exchange doc pair.1 pair.2) doc

/-- What an exchange of headers that succeeds has done: the nodes of the headers are exchanged, and
a step without a counterpart is moved to the other range. -/
theorem exchangeHeaders_eq_ok (h : exchangeHeaders doc left right = .ok after) :
    ∃ first second, Parts doc left first ∧ Parts doc right second ∧
      (after = exchangeAll doc (first.nodes.zip second.nodes) ∨
        ∃ range ∈ [first.range, second.range], ∃ step ∈ first.nodes ++ second.nodes,
          after = (exchangeAll doc (first.nodes.zip second.nodes)).append range step) := by
  obtain ⟨first, hfirst, h⟩ := exists_of_bind_eq_ok h
  obtain ⟨second, hsecond, h⟩ := exists_of_bind_eq_ok h
  cases h
  refine ⟨first, second, parts_of_header hfirst, parts_of_header hsecond, ?_⟩
  cases hleft : first.step? with
  | none =>
    cases hright : second.step? with
    | none => exact Or.inl (by simp [exchangeSteps, Header.nodes, exchangeAll, hleft, hright])
    | some step =>
      exact Or.inr ⟨first.range, by simp, step, by simp [Header.nodes, hright],
        by simp [exchangeSteps, Header.nodes, exchangeAll, hleft, hright]⟩
  | some step =>
    cases hright : second.step? with
    | none =>
      exact Or.inr ⟨second.range, by simp, step, by simp [Header.nodes, hleft],
        by simp [exchangeSteps, Header.nodes, exchangeAll, hleft, hright]⟩
    | some other => exact Or.inl (by simp [exchangeSteps, Header.nodes, exchangeAll, hleft, hright])

theorem steps_exchangeAll (guards : scope.Guards doc) {pairs : List (NodeId × NodeId)}
    (hpairs : ∀ pair ∈ pairs, scope.inside pair.1 ∧ scope.inside pair.2) :
    scope.Steps doc (exchangeAll doc pairs) := by
  induction pairs generalizing doc with
  | nil => exact .refl
  | cons pair rest ih =>
    obtain ⟨hfirst, hsecond⟩ := hpairs pair (mem_cons_self ..)
    have hstep := steps_exchange guards hfirst hsecond
    exact hstep.trans (ih (Scope.Steps.guards guards hstep) fun later hlater ↦
      hpairs later (mem_cons_of_mem _ hlater))

theorem steps_exchangeNodes (guards : scope.Guards doc) {first second : Header}
    (hnodes : ∀ node ∈ first.nodes ++ second.nodes, scope.inside node)
    (hranges : ∀ range ∈ [first.range, second.range], scope.inside range ∨ scope.holder range)
    (h : after = exchangeAll doc (first.nodes.zip second.nodes) ∨
      ∃ range ∈ [first.range, second.range], ∃ step ∈ first.nodes ++ second.nodes,
        after = (exchangeAll doc (first.nodes.zip second.nodes)).append range step) :
    scope.Steps doc after := by
  have hexchange : scope.Steps doc (exchangeAll doc (first.nodes.zip second.nodes)) := by
    refine steps_exchangeAll guards fun pair hpair ↦ ?_
    obtain ⟨hleft, hright⟩ := of_mem_zip hpair
    exact ⟨hnodes _ (mem_append_left _ hleft), hnodes _ (mem_append_right _ hright)⟩
  rcases h with rfl | ⟨range, hrange, step, hstep, rfl⟩
  · exact hexchange
  · exact hexchange.tail (.append _ range step (hnodes step hstep)
      ((hranges range hrange).imp_right Or.inl))

theorem steps_exchangeHeaders (guards : scope.Guards doc) (hleft : scope.inside left)
    (hright : scope.inside right) (h : exchangeHeaders doc left right = .ok after) :
    scope.Steps doc after := by
  obtain ⟨first, second, hfirst, hsecond, h⟩ := exchangeHeaders_eq_ok h
  have hbelow {loop node : NodeId} {header : Header} (parts : Parts doc loop header)
      (hloop : scope.inside loop) (hnode : node ∈ header.nodes) : scope.inside node := by
    obtain ⟨child, hchild, -, hmem⟩ := parts.exists_child guards.forest hnode
    exact guards.inside_of_mem_subtree hmem (guards.below hchild hloop)
  have hrange {loop : NodeId} {header : Header} (parts : Parts doc loop header)
      (hloop : scope.inside loop) : scope.inside header.range :=
    guards.inside_of_mem_children (mem_children_of_childOf? parts.range) hloop
  refine steps_exchangeNodes guards (fun node hnode ↦ ?_) (fun range hmem ↦ Or.inl ?_) h
  · rcases mem_append.mp hnode with hnode | hnode
    · exact hbelow hfirst hleft hnode
    · exact hbelow hsecond hright hnode
  · rcases mem_pair.mp hmem with rfl | rfl
    · exact hrange hfirst hleft
    · exact hrange hsecond hright

end LoopDirectives.Loop
