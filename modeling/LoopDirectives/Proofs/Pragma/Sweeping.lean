import LoopDirectives.Pragma.Neighbours
import LoopDirectives.Proofs.Document.Batch

/-!
# Sweeping pragmas away

A sweep deletes from the list of siblings that it walks along. The node that it goes on with was
next to the deleted one before, and a deletion leaves the siblings beyond as they are, so a sweep
deletes what can be read off the document before the first deletion (`Pragma.sweep_eq_deleteAll`).
The two sweeps around a loop do not disturb each other (`Pragma.cleanAround_eq`).
-/

namespace LoopDirectives.Pragma

open Document List

variable {doc after : Document} {marker : String} {keywords : List String} {onwards : Bool}
  {siblings front rest : List NodeId} {loop parent x : NodeId} {bound : Nat}

/-- The pragmas at the front of a list of siblings, up to the first that is reserved. -/
def foreignRun (doc : Document) (marker : String) (siblings : List NodeId) : List NodeId :=
  siblings.takeWhile fun sibling ↦
    doc.isKind sibling .pragma && !isReserved marker (doc.text sibling)

theorem mem_of_mem_foreignRun (h : x ∈ foreignRun doc marker siblings) :
    x ∈ siblings ∧ doc.isKind x .pragma ∧ isReserved marker (doc.text x) = false := by
  have htest := all_eq_true.mp all_takeWhile x h
  rw [Bool.and_eq_true, Bool.not_eq_true'] at htest
  exact ⟨takeWhile_subset _ h, htest⟩

theorem foreignRun_congr (marker : String) (h : ∀ x ∈ siblings, after.label x = doc.label x) :
    foreignRun after marker siblings = foreignRun doc marker siblings := by
  induction siblings with
  | nil => rfl
  | cons first rest ih =>
    have hfirst := h first (mem_cons_self ..)
    have hrest := ih fun x hx ↦ h x (mem_cons_of_mem _ hx)
    unfold foreignRun at hrest ⊢
    simp only [takeWhile_cons, isKind, kind, text, hfirst] at hrest ⊢
    rw [hrest]

/-- The pragmas of the run that mention a keyword. -/
def doomedOf (doc : Document) (marker : String) (keywords : List String)
    (siblings : List NodeId) : List NodeId :=
  (foreignRun doc marker siblings).filter fun pragma ↦
    mentions keywords (doc.text pragma)

theorem doomedOf_congr (marker : String) (keywords : List String)
    (h : ∀ x ∈ siblings, after.label x = doc.label x) :
    doomedOf after marker keywords siblings = doomedOf doc marker keywords siblings := by
  unfold doomedOf
  rw [foreignRun_congr marker h]
  refine filter_congr fun pragma hpragma ↦ ?_
  rw [text, text, h pragma (mem_of_mem_foreignRun hpragma).1]

theorem doomedOf_cons (doc : Document) (marker : String) (keywords : List String)
    (first : NodeId) (rest : List NodeId) : doomedOf doc marker keywords (first :: rest) =
      if doc.isKind first .pragma && !isReserved marker (doc.text first) then
        if mentions keywords (doc.text first) then
          first :: doomedOf doc marker keywords rest
        else doomedOf doc marker keywords rest
      else [] := by
  unfold doomedOf foreignRun
  rw [takeWhile_cons]
  split
  · exact filter_cons
  · rfl

/-- The children in the order in which a walk meets them. -/
def inWalk (onwards : Bool) (children : List NodeId) : List NodeId :=
  if onwards then children else children.reverse

theorem inWalk_filter (keep : NodeId → Bool) (children : List NodeId) :
    inWalk onwards (children.filter keep) = (inWalk onwards children).filter keep := by
  cases onwards
  · exact filter_reverse.symm
  · rfl

/-- The siblings of a node on one side of it, nearest first. -/
def ahead (doc : Document) (onwards : Bool) (node : NodeId) : List NodeId :=
  if onwards then doc.followingSiblings node else (doc.precedingSiblings node).reverse

theorem beside?_eq_head? : beside? doc onwards x = (ahead doc onwards x).head? := by
  cases onwards
  · exact head?_reverse.symm
  · rfl

theorem inWalk_children (onwards : Bool) (forest : doc.Forest)
    (hparent : doc.parent? x = some parent) :
    ∃ front, inWalk onwards (doc.children parent) = front ++ x :: ahead doc onwards x := by
  rw [forest.children_eq_siblings hparent]
  cases onwards
  · exact ⟨(doc.followingSiblings x).reverse, by simp [inWalk, ahead]⟩
  · exact ⟨doc.precedingSiblings x, rfl⟩

theorem nodup_inWalk (forest : doc.Forest) (onwards : Bool) (parent : NodeId) :
    (inWalk onwards (doc.children parent)).Nodup := by
  cases onwards
  · exact nodup_reverse.mpr (forest.nodup_children parent)
  · exact forest.nodup_children parent

theorem mem_inWalk {children : List NodeId} : x ∈ inWalk onwards children ↔ x ∈ children := by
  cases onwards
  · exact mem_reverse
  · rfl

theorem ahead_eq (forest : doc.Forest)
    (hsplit : inWalk onwards (doc.children parent) = front ++ x :: rest) :
    doc.parent? x = some parent ∧ ahead doc onwards x = rest := by
  have hparent := forest.parent?_of_mem
    (mem_inWalk.mp (hsplit ▸ mem_append_right _ (mem_cons_self ..)))
  refine ⟨hparent, ?_⟩
  cases onwards with
  | true => exact (forest.siblings_of_children_eq hparent hsplit).2
  | false =>
    have hchildren : doc.children parent = rest.reverse ++ x :: front.reverse := by
      simpa [inWalk] using congrArg List.reverse hsplit
    rw [ahead, if_neg Bool.false_ne_true, (forest.siblings_of_children_eq hparent hchildren).1,
      reverse_reverse]

/-- The induction follows the siblings still ahead. Where the walk passes a node without deleting
it, the node joins those behind; where it deletes one, the siblings ahead are the same in the
document that is left. -/
theorem sweep_eq_deleteAll (forest : doc.Forest)
    (hsplit : inWalk onwards (doc.children parent) = front ++ siblings)
    (hbound : siblings.length ≤ bound) :
    sweep marker keywords onwards bound siblings.head? doc =
      doc.deleteAll (doomedOf doc marker keywords siblings) := by
  induction siblings generalizing doc front bound with
  | nil => cases bound <;> rfl
  | cons pragma later ih =>
    obtain ⟨bound, rfl⟩ := Nat.exists_eq_add_one_of_ne_zero (Nat.ne_zero_of_lt hbound)
    replace hbound := Nat.le_of_succ_le_succ hbound
    obtain ⟨hparent, hahead⟩ := ahead_eq forest hsplit
    rw [head?_cons, sweep, beside?_eq_head?, hahead, doomedOf_cons]
    dsimp only
    split
    · split
      · have hleft : inWalk onwards ((doc.delete pragma).children parent) = front ++ later := by
          rw [forest.children_delete (forest.not_mem_subtree_of_parent? hparent), inWalk_filter,
            hsplit]
          exact filter_ne_of_nodup (hsplit ▸ nodup_inWalk forest onwards parent)
        have hlabel : ∀ x ∈ later, (doc.delete pragma).label x = doc.label x := by
          intro x hx
          have hmem : x ∈ (doc.delete pragma).children parent :=
            mem_inWalk.mp (hleft ▸ mem_append_right _ hx)
          exact forest.label_delete
            (forest.contains_delete_iff.mp ((forest.delete _).contains_child hmem)).2
        rw [ih (forest.delete _) hleft hbound, doomedOf_congr marker keywords hlabel]
        rfl
      · exact ih forest (hsplit.trans (append_cons ..)) hbound
    · rfl

/-- A sweep from a node takes the doomed siblings ahead of it. -/
theorem sweep_eq_deleteAll_ahead (forest : doc.Forest) (x : NodeId) :
    sweep marker keywords onwards doc.slots.size (beside? doc onwards x) doc =
      doc.deleteAll (doomedOf doc marker keywords (ahead doc onwards x)) := by
  rw [beside?_eq_head?]
  cases hparent : doc.parent? x with
  | none =>
    have hnone : ahead doc onwards x = [] := by
      simp [ahead, followingSiblings_of_parent?_eq_none, precedingSiblings_of_parent?_eq_none,
        hparent]
    rw [hnone]
    cases doc.slots.size <;> rfl
  | some parent =>
    obtain ⟨front, hsplit⟩ := inWalk_children onwards forest hparent
    rw [append_cons] at hsplit
    refine sweep_eq_deleteAll forest hsplit (length_le_size ?_ fun y hy ↦ ?_)
    · exact (hsplit ▸ nodup_inWalk forest onwards parent).of_append_right
    · exact forest.contains_child (mem_inWalk.mp (hsplit ▸ mem_append_right _ hy))

theorem followingSiblings_deleteAll (forest : doc.Forest) {ids : List NodeId}
    (h : ∀ id ∈ ids, id ∈ doc.precedingSiblings x) :
    (doc.deleteAll ids).followingSiblings x = doc.followingSiblings x ∧
      ∀ y ∈ doc.followingSiblings x,
        (doc.deleteAll ids).label y = doc.label y := by
  cases hparent : doc.parent? x with
  | none =>
    rw [precedingSiblings_of_parent?_eq_none hparent] at h
    obtain rfl : ids = [] := eq_nil_iff_forall_not_mem.mpr fun id hid ↦ not_mem_nil (h id hid)
    exact ⟨rfl, fun y _ ↦ rfl⟩
  | some parent =>
    have pruned := forest.pruned_deleteAll ids
    have hnodup := forest.nodup_children parent
    rw [forest.children_eq_siblings hparent, nodup_append] at hnodup
    have hlive : ∀ y ∈ x :: doc.followingSiblings x, (doc.deleteAll ids).contains y := by
      intro y hy
      have hsibling := forest.parent?_of_mem_siblings hparent (mem_append_right _ hy)
      refine (pruned.contains_iff y).mpr ⟨contains_of_parent? hsibling, fun id hid ↦ ?_⟩
      have hother := forest.parent?_of_mem_siblings hparent (mem_append_left _ (h id hid))
      exact (forest.apart_of_parent? hsibling hother (hnodup.2.2 id (h id hid) y hy).symm).1
    refine ⟨(pruned.siblings_eq forest (hlive x (mem_cons_self ..))).2.trans ?_, fun y hy ↦
      pruned.label_eq y (hlive y (mem_cons_of_mem _ hy))⟩
    refine filter_eq_self.mpr fun y hy ↦ decide_eq_true fun hid ↦ ?_
    exact hnodup.2.2 y (h y hid) y (mem_cons_of_mem _ hy) rfl

/-- What is deleted around a loop stands beside it before the first deletion: the sweep back leaves
the siblings after the loop as they are. -/
theorem cleanAround_eq (forest : doc.Forest) (hloop : doc.isKind loop .doLoop)
    (before after : List String) :
    cleanAround doc marker loop before after = doc.deleteAll
      (doomedOf doc marker before (doc.precedingSiblings loop).reverse ++
        doomedOf doc marker after (doc.followingSiblings loop)) := by
  obtain ⟨hfollowing, hlabel⟩ := followingSiblings_deleteAll forest fun id
      (hid : id ∈ doomedOf doc marker before (doc.precedingSiblings loop).reverse) ↦
    mem_reverse.mp (mem_of_mem_foreignRun (mem_filter.mp hid).1).1
  rw [cleanAround, if_pos hloop]
  dsimp only
  rw [sweep_eq_deleteAll_ahead forest, sweep_eq_deleteAll_ahead (forest.deleteAll _),
    deleteAll_append]
  simp only [ahead, if_neg Bool.false_ne_true, if_true]
  rw [hfollowing, doomedOf_congr marker after hlabel]

end LoopDirectives.Pragma
