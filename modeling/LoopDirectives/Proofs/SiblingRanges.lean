import LoopDirectives.Proofs.Document.Batch
import LoopDirectives.Proofs.Document.Effects
import LoopDirectives.Proofs.Siblings

/-!
# Deleting and moving ranges of siblings

A range goes from `start` up to `finish`. Where `finish` follows `start`, just what is between them
is deleted, and just that is moved, with the two themselves if they are included. Nothing asks
whether `finish` was found: where it does not follow `start` the range goes on to the last sibling
(`ranges_exact`).
-/

namespace LoopDirectives.Siblings

open Document List

variable {doc : Document} {start finish parent body head : NodeId}
  {first middle rest ids : List NodeId} {included : Bool}

theorem between_of_notMem (h : finish ∉ doc.followingSiblings start) :
    between doc start finish = doc.followingSiblings start :=
  takeWhile_eq_self_iff.mpr fun _ hx ↦ decide_eq_true fun heq ↦ h (heq ▸ hx)

theorem moved_of_notMem (h : finish ∉ doc.followingSiblings start) :
    moved doc start finish included =
      (if included then [start] else []) ++ doc.followingSiblings start := by
  simp [moved, between_of_notMem h, h]

section

variable (forest : doc.Forest)
  (hchildren : doc.children parent = first ++ start :: (middle ++ finish :: rest))

include forest hchildren

theorem followingSiblings_of_split :
    doc.followingSiblings start = middle ++ finish :: rest :=
  (forest.siblings_of_children_eq (forest.parent?_of_mem (by simp [hchildren])) hchildren).2

theorem between_of_split : between doc start finish = middle := by
  have hfollowing := followingSiblings_of_split forest hchildren
  have hnodup := nodup_append.mp (hfollowing ▸ forest.nodup_followingSiblings start)
  have hmiddle : ∀ x ∈ middle, decide (x ≠ finish) := fun x hx ↦
    decide_eq_true (hnodup.2.2 x hx finish mem_cons_self)
  rw [between, hfollowing, takeWhile_append_of_pos hmiddle]
  simp

theorem moved_of_split : moved doc start finish included =
    if included then start :: (middle ++ [finish]) else middle := by
  rw [moved, between_of_split forest hchildren, followingSiblings_of_split forest hchildren]
  cases included <;> simp

end

/-! ### Deleting a range -/

theorem deleteBetween_eq_self_iff (forest : doc.Forest)
    (h : finish ∉ doc.followingSiblings start) :
    deleteBetween doc start finish = doc ↔
      doc.followingSiblings start = [] := by
  rw [deleteBetween, between_of_notMem h]
  constructor
  · intro heq
    refine eq_nil_iff_forall_not_mem.mpr fun x hx ↦ ?_
    have hgone := (forest.pruned_deleteAll _).not_contains forest hx
    obtain ⟨parent, -, hparent⟩ := forest.exists_parent?_of_mem_siblings (Or.inr hx)
    rw [heq, contains_of_parent? hparent] at hgone
    exact Bool.noConfusion hgone
  · intro hnil
    rw [hnil]
    rfl

/-! ### Moving a range -/

/-- What a document shows after nodes have come to hang below `body`, whose children are now the
given ones, and nothing else has changed. -/
structure Rehung (before after : Document) (ids : List NodeId) (body : NodeId)
    (children : List NodeId) : Prop where
  contains_eq : ∀ x, after.contains x = before.contains x
  label_eq : ∀ x, after.label x = before.label x
  parent?_eq : ∀ x, after.parent? x = if x ∈ ids then some body else before.parent? x
  children_of_ne : ∀ x, x ≠ body → after.children x = (before.children x).filter (· ∉ ids)
  children_body : after.children body = children

/-- The nodes can hang below `body`, and none of them does yet. -/
def CanEnter (doc : Document) (ids : List NodeId) (body : NodeId) : Prop :=
  ∀ id ∈ ids, doc.CanHang id body ∧ doc.parent? id ≠ some body

/-- Nodes that go one after the other in front of `head` end up in order: `head` stays where it is,
and each of them comes between those before it and `head`. -/
theorem rehung_foldl_insertBefore (forest : doc.Forest) (hnodup : ids.Nodup)
    (henter : CanEnter doc ids body)
    (hchildren : doc.children body = first ++ head :: rest) :
    Rehung doc (ids.foldl (fun doc id ↦ doc.insertBefore head id) doc) ids body
      (first ++ (ids ++ head :: rest)) := by
  induction ids generalizing doc first with
  | nil => exact ⟨fun _ ↦ rfl, fun _ ↦ rfl, by simp, by simp, hchildren⟩
  | cons id later ih =>
    obtain ⟨hid, hlater⟩ := nodup_cons.mp hnodup
    obtain ⟨⟨hhang, hparent⟩, henterLater⟩ := forall_mem_cons.mp henter
    have hhead : doc.parent? head = some body := forest.parent?_of_mem (by simp [hchildren])
    have hne : head ≠ id := fun heq ↦ hparent (heq ▸ hhead)
    have hattach := forest.canAttach_iff_canHang.mpr hhang
    obtain ⟨position, -, moved⟩ : ∃ position, _ ∧
        Moved doc (doc.insertBefore head id) id body (position + 0) :=
      forest.moved_insertBeside hhead hne hattach
    have hput : PutBelow doc (doc.insertBefore head id) id body
        (first ++ id :: head :: rest) :=
      forest.putBelow_insertBeside ((hasRoom_iff_canAttach forest hhead).mpr ⟨hne, hattach⟩) hhead
        (by rw [forest.filter_ne_eq_self hparent, hchildren])
    have hrehung := @ih (doc.insertBefore head id) (first ++ [id]) (moved.forest forest)
      hlater (fun x hx ↦ by
        obtain ⟨⟨hlive, hbody, hxne, habove⟩, hxparent⟩ := henterLater x hx
        refine ⟨⟨(moved.contains_eq x).trans hlive, (moved.contains_eq body).trans hbody, hxne,
          moved.not_above_parent hhang.2.2.2 habove⟩, ?_⟩
        rwa [moved.parent?_of_ne fun heq ↦ hid (heq ▸ hx)])
      (by rw [hput.children_parent, append_assoc, singleton_append])
    refine ⟨fun x ↦ (hrehung.contains_eq x).trans (moved.contains_eq x),
      fun x ↦ (hrehung.label_eq x).trans (moved.label_eq x), fun x ↦ ?_, fun x hx ↦ ?_, ?_⟩
    · refine (hrehung.parent?_eq x).trans ?_
      rw [moved.parent?_eq]
      by_cases hx : x = id <;> simp [hx]
    · refine (hrehung.children_of_ne x hx).trans ?_
      rw [moved.children_of_ne x hx, filter_ne_filter_notMem]
    · refine hrehung.children_body.trans ?_
      rw [append_assoc, singleton_append, cons_append]

/-- The body is alive, and it is neither the parent of `start` nor inside one of the nodes. -/
def IsElsewhere (doc : Document) (body start : NodeId) (ids : List NodeId) : Prop :=
  doc.contains body = true ∧ doc.parent? start ≠ some body ∧
    ∀ id ∈ ids, body ∉ doc.subtree id

section

variable (forest : doc.Forest) (hstart : doc.contains start)
  (hids : ids.Sublist (start :: doc.followingSiblings start))
  (helsewhere : IsElsewhere doc body start ids)

include forest hids

theorem nodup_of_sublist : ids.Nodup := by
  refine hids.nodup ?_
  cases hparent : doc.parent? start with
  | none =>
    rw [followingSiblings_of_parent?_eq_none hparent]
    exact nodup_singleton start
  | some parent =>
    exact (nodup_append.mp
      (forest.children_eq_siblings hparent ▸ forest.nodup_children parent)).2.1

include hstart helsewhere

theorem canEnter_of_isElsewhere : CanEnter doc ids body := by
  obtain ⟨hbody, hparent, houtside⟩ := helsewhere
  intro x hx
  obtain ⟨hne, habove⟩ := not_or.mp (mt (forest.mem_subtree_iff x body).mpr (houtside x hx))
  suffices h : doc.contains x = true ∧ doc.parent? x ≠ some body from
    ⟨⟨h.1, hbody, Ne.symm hne, habove⟩, h.2⟩
  rcases mem_cons.mp (hids.subset hx) with rfl | hfollowing
  · exact ⟨hstart, hparent⟩
  · obtain ⟨parent, hholder, hsame⟩ := forest.exists_parent?_of_mem_siblings (Or.inr hfollowing)
    exact ⟨contains_of_parent? hsame, by rwa [hsame, ← hholder]⟩

/-- Assumes: the body is elsewhere. The siblings come first in it, in their order. -/
theorem rehung_shift (hmoved : moved doc start finish included = ids) :
    Rehung doc (shift doc start finish body included) ids body
      (ids ++ doc.children body) := by
  have henter := canEnter_of_isElsewhere forest hstart hids helsewhere
  have hnodup := nodup_of_sublist forest hids
  rw [shift, hmoved, firstChild?]
  cases hchildren : doc.children body with
  | nil =>
    have gathered := forest.gathered_appendAll helsewhere.1 hnodup fun id hid ↦
      have hhang := (henter id hid).1
      ⟨hhang.1, hhang.2.2⟩
    refine ⟨gathered.contains_eq, gathered.label_eq, gathered.parent?_eq,
      gathered.children_of_ne, ?_⟩
    rw [append_nil, head?_nil, gathered.children_parent, hchildren]
    rfl
  | cons head rest =>
    exact rehung_foldl_insertBefore forest hnodup henter (hchildren.trans (nil_append _).symm)

theorem shift_eq_self_iff (hmoved : moved doc start finish included = ids) :
    shift doc start finish body included = doc ↔ ids = [] := by
  constructor
  · intro heq
    have hrehung := rehung_shift forest hstart hids helsewhere hmoved
    refine eq_nil_iff_forall_not_mem.mpr fun x hx ↦ ?_
    have hparent := hrehung.parent?_eq x
    rw [heq, if_pos hx] at hparent
    exact (canEnter_of_isElsewhere forest hstart hids helsewhere x hx).2 hparent
  · rintro rfl
    rw [shift, hmoved]
    cases doc.firstChild? body <;> rfl

end

/-- Where `finish` follows `start` just the range between them is deleted or moved. Where it does
not, everything after `start` is, so that nothing changes only if nothing comes after it. -/
theorem ranges_exact (forest : doc.Forest) (start finish : NodeId) :
    (∀ parent first middle rest,
      doc.children parent = first ++ start :: (middle ++ finish :: rest) →
      Pruned doc (deleteBetween doc start finish) middle ∧
      ∀ body included ids, ids = (if included then start :: (middle ++ [finish]) else middle) →
        IsElsewhere doc body start ids →
        Rehung doc (shift doc start finish body included) ids body
          (ids ++ doc.children body)) ∧
    (finish ∉ doc.followingSiblings start →
      Pruned doc (deleteBetween doc start finish) (doc.followingSiblings start) ∧
      (deleteBetween doc start finish = doc ↔ doc.followingSiblings start = []) ∧
      ∀ body included ids,
        ids = (if included then [start] else []) ++ doc.followingSiblings start →
        doc.contains start = true → IsElsewhere doc body start ids →
        Rehung doc (shift doc start finish body included) ids body
          (ids ++ doc.children body) ∧
        (shift doc start finish body included = doc ↔ ids = [])) := by
  refine ⟨fun parent first middle rest hchildren ↦ ⟨?_, ?_⟩, fun h ↦
    ⟨?_, deleteBetween_eq_self_iff forest h, ?_⟩⟩
  · rw [deleteBetween, between_of_split forest hchildren]
    exact forest.pruned_deleteAll middle
  · rintro body included ids rfl helsewhere
    have hstart : doc.parent? start = some parent :=
      forest.parent?_of_mem (by simp [hchildren])
    refine rehung_shift forest (contains_of_parent? hstart) ?_ helsewhere
      (moved_of_split forest hchildren)
    rw [followingSiblings_of_split forest hchildren]
    cases included <;> simp
  · rw [deleteBetween, between_of_notMem h]
    exact forest.pruned_deleteAll _
  · rintro body included ids rfl hstart helsewhere
    have hids : ((if included then [start] else []) ++ doc.followingSiblings start).Sublist
        (start :: doc.followingSiblings start) := by
      cases included <;> simp
    exact ⟨rehung_shift forest hstart hids helsewhere (moved_of_notMem h),
      shift_eq_self_iff forest hstart hids helsewhere (moved_of_notMem h)⟩

/-- From the first pragma to the second just the assignment between them is taken, and the three go
in order in front of the children of the other assignment; back from the second pragma to the first
everything after the second is taken. -/
theorem ranges_exact_twoEnds :
    Pruned twoEnds (deleteBetween twoEnds ⟨1⟩ ⟨6⟩) [⟨2⟩] ∧
      (shift twoEnds ⟨1⟩ ⟨6⟩ ⟨7⟩ true).children ⟨7⟩ = [⟨1⟩, ⟨2⟩, ⟨6⟩, ⟨8⟩] ∧
      deleteBetween twoEnds ⟨6⟩ ⟨1⟩ ≠ twoEnds ∧ shift twoEnds ⟨6⟩ ⟨1⟩ ⟨2⟩ false ≠ twoEnds := by
  have forest : twoEnds.Forest := forest_ofElement _
  have hchildren : twoEnds.children ⟨0⟩ = [] ++ ⟨1⟩ :: ([⟨2⟩] ++ ⟨6⟩ :: [⟨7⟩, ⟨11⟩]) := by
    decide +kernel
  have hfollowing : twoEnds.followingSiblings ⟨6⟩ = [⟨7⟩, ⟨11⟩] := by decide +kernel
  obtain ⟨hdelete, hshift⟩ := (ranges_exact forest ⟨1⟩ ⟨6⟩).1 ⟨0⟩ [] [⟨2⟩] [⟨7⟩, ⟨11⟩] hchildren
  obtain ⟨-, hdeleteBack, hshiftBack⟩ := (ranges_exact forest ⟨6⟩ ⟨1⟩).2 (by simp [hfollowing])
  rw [hfollowing] at hdeleteBack hshiftBack
  have hahead : IsElsewhere twoEnds ⟨7⟩ ⟨1⟩ [⟨1⟩, ⟨2⟩, ⟨6⟩] :=
    ⟨by decide +kernel, by decide +kernel, by decide +kernel⟩
  have hback : IsElsewhere twoEnds ⟨2⟩ ⟨6⟩ [⟨7⟩, ⟨11⟩] :=
    ⟨by decide +kernel, by decide +kernel, by decide +kernel⟩
  refine ⟨hdelete, ?_, fun heq ↦ List.cons_ne_nil _ _ (hdeleteBack.mp heq), fun heq ↦ ?_⟩
  · refine (hshift ⟨7⟩ true _ rfl hahead).children_body.trans ?_
    decide +kernel
  · exact List.cons_ne_nil _ _ ((hshiftBack ⟨2⟩ false _ rfl (by decide +kernel) hback).2.mp heq)

end LoopDirectives.Siblings
