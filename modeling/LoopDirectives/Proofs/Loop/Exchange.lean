import LoopDirectives.Proofs.Document.Grafting
import LoopDirectives.Proofs.Loop.Header

/-!
# What an exchange of nodes does

Exchanging two nodes that are apart replaces each by a copy of the other and changes nothing else
(`substituted_exchange`). So does exchanging one pair after the other (`exchanged_exchangeAll`).
-/

namespace LoopDirectives.Loop

open Document List

variable {doc : Document} {left right x : NodeId} {pairs : List (NodeId × NodeId)}

/-! ### Exchanging two nodes -/

section Copies

variable (forest : doc.Forest) (left right : NodeId)

include forest

theorem planted_withCopies : Planted doc (withCopies doc left right)
    [doc.fresh, secondCopy doc left] none :=
  (forest.planted_plant _).append (by simp) ((forest.plant _).planted_plant _)

theorem element_copies (hright : doc.contains right) :
    (withCopies doc left right).element doc.fresh = doc.element left ∧
      (withCopies doc left right).element (secondCopy doc left) =
        doc.element right := by
  have hfirst := forest.planted_plant (doc.element left)
  have hplanted := forest.plant (doc.element left)
  have hsecond := hplanted.planted_plant
    ((doc.plant none (doc.element left)).1.element right)
  constructor
  · exact (hsecond.element_old hplanted (hfirst.contains_root (by simp))).trans
      (forest.element_plant _)
  · exact (hplanted.element_plant _).trans (hfirst.element_old forest hright)

end Copies

/-- What stands in the place of a node after an exchange. -/
def exchangeName (doc : Document) (left right : NodeId) : NodeId → NodeId :=
  putFor left (secondCopy doc left) ∘ putFor right doc.fresh

section Exchange

variable (forest : doc.Forest) (hung : doc.Hung [left, right])

include forest hung

theorem ne_of_hung : left ≠ right := by
  rintro rfl
  exact (rel_of_pairwise_cons hung.pairwise_apart (mem_singleton_self _)).1
    (forest.self_mem_subtree left)

theorem exchangeName_eq : exchangeName doc left right left = secondCopy doc left ∧
    exchangeName doc left right right = doc.fresh := by
  have hfresh : doc.fresh ≠ left := by
    rintro rfl
    exact Nat.lt_irrefl _ (index_lt_size (hung.contains (mem_cons_self ..)))
  simp [exchangeName, putFor, ne_of_hung forest hung, hfresh]

theorem exists_placed_exchange : ∃ placed,
    exchange doc left right = placed.deleteAll [left, right] ∧
      Placed doc (withCopies doc left right) placed
        [doc.fresh, secondCopy doc left] [left, right]
        (exchangeName doc left right) := by
  have planted := planted_withCopies forest left right
  have hne : doc.fresh ≠ secondCopy doc left := by simpa using planted.nodup_roots
  obtain ⟨leftParent, hleft⟩ := hung.exists_parent? left (by simp)
  obtain ⟨rightParent, hright⟩ := hung.exists_parent? right (by simp)
  have once := (planted.placed_nil forest).insertAfter forest hright (by simp)
    (mem_cons_self ..) (by simp)
  have hroot : secondCopy doc left ∈ [doc.fresh, secondCopy doc left] := by simp
  have twice := once.insertAfter forest hleft (by simpa using ne_of_hung forest hung) hroot
    (by simpa [putFor] using hne)
  refine ⟨_, ?_, twice⟩
  rw [exchange_of_contains forest (contains_of_parent? hleft) (contains_of_parent? hright),
    deleteAll, foldl_cons, foldl_cons, foldl_nil]

/-- An exchange puts a copy of each of the two nodes in the place of the other. -/
theorem substituted_exchange : Substituted doc (exchange doc left right)
    [(left, right), (right, left)] (exchangeName doc left right) := by
  obtain ⟨placed, heq, place⟩ := exists_placed_exchange forest hung
  obtain ⟨hleftName, hrightName⟩ := exchangeName_eq forest hung
  obtain ⟨hfresh, hsecond⟩ := element_copies forest left right (hung.contains (by simp))
  rw [heq]
  refine ⟨place.recast forest ?_, fun x hx ↦ (place.contains_iff forest hx).mp, ?_⟩
  · simp [hleftName, hrightName]
  · intro pair hpair
    rcases mem_pair.mp hpair with rfl | rfl
    · rw [place.element_rename forest hung (by simp), hleftName, hsecond]
    · rw [place.element_rename forest hung (by simp), hrightName, hfresh]

end Exchange

/-! ### Exchanging pairs of nodes -/

def pairNodes (pairs : List (NodeId × NodeId)) : List NodeId :=
  pairs.flatMap fun pair ↦ [pair.1, pair.2]

/-- What a document shows when each node of a pair has been replaced by what the other one was. -/
structure Exchanged (before after : Document) (pairs : List (NodeId × NodeId))
    (rename : NodeId → NodeId) : Prop extends Recast before after (pairNodes pairs) rename where
  element_fst : ∀ pair ∈ pairs, after.element (rename pair.1) = before.element pair.2
  element_snd : ∀ pair ∈ pairs, after.element (rename pair.2) = before.element pair.1

theorem mem_pairNodes_swap : x ∈ pairNodes (pairs.map Prod.swap) ↔ x ∈ pairNodes pairs := by
  simp only [pairNodes, mem_flatMap, mem_map, mem_cons, not_mem_nil, or_false]
  constructor
  · rintro ⟨_, ⟨pair, hpair, rfl⟩, hx⟩
    exact ⟨pair, hpair, hx.symm⟩
  · rintro ⟨pair, hpair, hx⟩
    exact ⟨pair.swap, ⟨pair, hpair, rfl⟩, hx.symm⟩

theorem Exchanged.symm {before after : Document} {rename : NodeId → NodeId}
    (exchanged : Exchanged before after pairs rename) :
    Exchanged before after (pairs.map Prod.swap) rename where
  toRecast := exchanged.toRecast.congr fun _ ↦ mem_pairNodes_swap.symm
  element_fst pair hpair := by
    obtain ⟨other, hother, rfl⟩ := mem_map.mp hpair
    exact exchanged.element_snd other hother
  element_snd pair hpair := by
    obtain ⟨other, hother, rfl⟩ := mem_map.mp hpair
    exact exchanged.element_fst other hother

/-- Assumes: nodes that hang apart from each other. Pair after pair, they are exchanged. -/
theorem exchanged_exchangeAll (forest : doc.Forest) (hung : doc.Hung (pairNodes pairs)) :
    ∃ rename, Exchanged doc (exchangeAll doc pairs) pairs rename := by
  have hparts (pairs : List (NodeId × NodeId)) :
      (pairs.flatMap fun pair ↦ [pair, pair.swap]).map Prod.fst = pairNodes pairs := by
    simp [pairNodes, map_flatMap]
  suffices h : ∃ rename, Substituted doc (exchangeAll doc pairs)
      (pairs.flatMap fun pair ↦ [pair, pair.swap]) rename by
    obtain ⟨rename, substituted⟩ := h
    refine ⟨rename, hparts pairs ▸ substituted.toRecast, fun pair hpair ↦ ?_, fun pair hpair ↦ ?_⟩
    · exact substituted.element pair (mem_flatMap.mpr ⟨pair, hpair, by simp⟩)
    · exact substituted.element pair.swap (mem_flatMap.mpr ⟨pair, hpair, by simp⟩)
  induction pairs generalizing doc with
  | nil => exact ⟨id, forest.recast_nil, fun x _ hx ↦ ⟨hx, by simp⟩, by simp⟩
  | cons pair rest ih =>
    change doc.Hung ([pair.1, pair.2] ++ pairNodes rest) at hung
    obtain ⟨hpair, hrest, hapart⟩ := hung_append_iff.mp hung
    have first := substituted_exchange forest hpair
    obtain ⟨again, second⟩ := ih first.forest (first.toRecast.hung_of_apart forest hrest hapart)
    have hsources : ∀ other ∈ rest.flatMap fun pair ↦ [pair, pair.swap],
        doc.contains other.2 ∧
          ∀ part ∈ [pair.1, pair.2], doc.Apart other.2 part := by
      intro other hother
      obtain ⟨source, hsource, hother⟩ := mem_flatMap.mp hother
      have hmem : other.2 ∈ pairNodes rest := by
        refine mem_flatMap.mpr ⟨source, hsource, ?_⟩
        rcases mem_pair.mp hother with rfl | rfl <;> simp
      exact ⟨hrest.contains hmem, hapart other.2 hmem⟩
    rw [← hparts] at hrest hapart
    exact ⟨_, first.trans second forest hpair hrest hapart hsources⟩

end LoopDirectives.Loop
