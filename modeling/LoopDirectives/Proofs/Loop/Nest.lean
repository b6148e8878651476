import Mathlib.Data.List.Pairwise
import LoopDirectives.Proofs.Loop.Header

/-!
# Nests of loops

`Nested doc outer inner` says that a loop stands in the body of another one, at whatever depth.
An exchange of headers keeps the nest (`pairwise_nested_exchangeHeaders`), so the next one can
follow.
-/

namespace LoopDirectives.Loop

open Document List

variable {doc after : Document} {loop left right outer inner x y : NodeId}
  {nest : List NodeId}

/-! ### Nests -/

/-- The second loop stands in a body of the first, at whatever depth. -/
def Nested (doc : Document) (outer inner : NodeId) : Prop :=
  ∃ body, doc.parent? body = some outer ∧ doc.kind body = .body ∧
    inner ∈ doc.subtree body

section

variable (nested : Nested doc outer inner) (forest : doc.Forest)

include nested forest

theorem Nested.mem_subtree : inner ∈ doc.subtree outer := by
  obtain ⟨body, hbody, -, hinner⟩ := nested
  exact forest.mem_subtree_trans hinner
    (forest.mem_subtree_of_mem_children (forest.mem_children hbody))

theorem Nested.of_mem_subtree (hloop : loop ∈ doc.subtree inner) :
    Nested doc outer loop := by
  obtain ⟨body, hbody, hkind, hinner⟩ := nested
  exact ⟨body, hbody, hkind, forest.mem_subtree_trans hloop hinner⟩

theorem Nested.contains_inner : doc.contains inner := by
  obtain ⟨body, hbody, -, hinner⟩ := nested
  exact forest.contains_of_mem_subtree (contains_of_parent? hbody) hinner

end

theorem Nested.of_spares {scope : Scope} (nested : Nested doc outer inner)
    (hbefore : scope.Guards doc) (hafter : scope.Guards after)
    (hspares : scope.Spares doc after)
    (hbodies : ∀ body, doc.parent? body = some outer → doc.kind body = .body →
      ¬ scope.inside body) (hout : ¬ scope.inside inner) : Nested after outer inner := by
  have hlive := nested.contains_inner hbefore.forest
  obtain ⟨body, hbody, hkind, hinner⟩ := nested
  have hbodyLive := contains_of_parent? hbody
  have hbodyOut := hbodies body hbody hkind
  refine ⟨body, (hspares.parent? body hbodyLive hbodyOut).trans hbody, ?_,
    (hspares.mem_subtree_iff hbefore hafter hlive hout).mpr hinner⟩
  rw [kind, hspares.label body hbodyLive hbodyOut]
  exact hkind

theorem related_of_pairwise_nested (hnest : nest.Pairwise (Nested doc)) (hx : x ∈ nest)
    (hy : y ∈ nest) : x = y ∨ Nested doc x y ∨ Nested doc y x := by
  have hforward : nest.Pairwise fun x y ↦
      x = y ∨ Nested doc x y ∨ Nested doc y x :=
    hnest.imp fun hnested ↦ Or.inr (Or.inl hnested)
  refine hforward.forall_of_forall_of_flip ?_ ?_ hx hy
  · exact fun _ _ ↦ Or.inl rfl
  · exact hnest.imp fun hnested ↦ Or.inr (Or.inr hnested)

theorem pairwise_nested_levels (forest : doc.Forest) (depth : Nat) (outer : NodeId) :
    (levels doc depth outer).Pairwise (Nested doc) := by
  induction depth generalizing outer with
  | zero => exact List.Pairwise.nil
  | succ depth ih =>
    rw [levels]
    refine pairwise_cons.mpr ⟨fun loop hloop ↦ ?_, ?_⟩
    · split at hloop
      · cases hloop
      · next inner hinner =>
        rw [path?_pair] at hinner
        obtain ⟨body, hbody, hinner⟩ := Option.bind_eq_some_iff.mp hinner
        have hnested : Nested doc outer inner :=
          ⟨body, forest.parent?_of_childOf? hbody, kind_of_childOf? hbody,
            forest.mem_subtree_of_mem_children (mem_children_of_childOf? hinner)⟩
        have hlevels := ih inner
        cases depth with
        | zero => cases hloop
        | succ depth =>
          rw [levels] at hloop hlevels
          rcases mem_cons.mp hloop with rfl | hloop
          · exact hnested
          · exact hnested.of_mem_subtree forest
              ((rel_of_pairwise_cons hlevels hloop).mem_subtree forest)
    · split
      · exact List.Pairwise.nil
      · exact ih _

/-! ### Exchanges keep a nest -/

theorem Parts.not_mem_subtree_of_nested {header : Header} {node : NodeId}
    (parts : Parts doc loop header) (forest : doc.Forest) (hnode : node ∈ header.nodes)
    (hx : x = loop ∨ Nested doc x loop ∨ Nested doc loop x) :
    x ∉ doc.subtree node ∧ ∀ body, doc.parent? body = some x →
      doc.kind body = .body → body ∉ doc.subtree node := by
  obtain ⟨child, hchild, hne, hbelow⟩ := parts.exists_child forest hnode
  have hout : x ∉ doc.subtree child := by
    rcases hx with rfl | houter | ⟨outerBody, houterBody, houterKind, hmem⟩
    · exact forest.not_mem_subtree_of_parent? hchild
    · exact fun h ↦ forest.not_mem_subtree_of_parent? hchild
        (forest.mem_subtree_trans (houter.mem_subtree forest) h)
    · exact fun h ↦ (forest.apart_of_siblings hchild houterBody (houterKind ▸ hne) h hmem).1
        (forest.self_mem_subtree x)
  refine ⟨fun h ↦ hout (forest.mem_subtree_trans h hbelow), fun body hbody hkind h ↦ ?_⟩
  rcases (forest.mem_subtree_of_parent? hbody).mp (forest.mem_subtree_trans h hbelow) with rfl | h
  · exact hne hkind
  · exact hout h

/-- Exchanging the headers of two loops of a nest leaves the nest one. -/
theorem pairwise_nested_exchangeHeaders (forest : doc.Forest)
    (hnest : nest.Pairwise (Nested doc)) (hleft : left ∈ nest) (hright : right ∈ nest)
    (h : exchangeHeaders doc left right = .ok after) : nest.Pairwise (Nested after) := by
  obtain ⟨first, second, hfirst, hsecond, h⟩ := exchangeHeaders_eq_ok h
  have hlive : ∀ node ∈ first.nodes ++ second.nodes, doc.contains node := by
    intro node hnode
    rcases mem_append.mp hnode with hnode | hnode
    · obtain ⟨_, hparent⟩ := hfirst.exists_parent? forest hnode
      exact contains_of_parent? hparent
    · obtain ⟨_, hparent⟩ := hsecond.exists_parent? forest hnode
      exact contains_of_parent? hparent
  have guards := Scope.guards_subtrees forest (first.nodes ++ second.nodes)
    [first.range, second.range]
  obtain ⟨hguards, hspares⟩ := Scope.Steps.guards_and_spares guards (steps_exchangeNodes guards
    (fun node hnode ↦ Scope.inside_subtrees forest hnode (hlive node hnode))
    (fun range hrange ↦ Or.inr (mem_append_left _ hrange)) h)
  have hclear : ∀ x ∈ nest, ∀ node ∈ first.nodes ++ second.nodes, x ∉ doc.subtree node ∧
      ∀ body, doc.parent? body = some x → doc.kind body = .body →
        body ∉ doc.subtree node := by
    intro x hx node hnode
    rcases mem_append.mp hnode with hnode | hnode
    · exact hfirst.not_mem_subtree_of_nested forest hnode
        (related_of_pairwise_nested hnest hx hleft)
    · exact hsecond.not_mem_subtree_of_nested forest hnode
        (related_of_pairwise_nested hnest hx hright)
  -- What makes up the nest is outside the scope of the exchanged nodes.
  refine hnest.imp_of_mem fun {outer inner} houter hinner hnested ↦ ?_
  refine hnested.of_spares guards hguards hspares (fun body hbody hkind hin ↦ ?_) fun hin ↦ ?_
  · obtain ⟨node, hnode, hbelow⟩ :=
      (Scope.inside_subtrees_iff (contains_of_parent? hbody)).mp hin
    exact (hclear outer houter node hnode).2 body hbody hkind hbelow
  · obtain ⟨node, hnode, hbelow⟩ :=
      (Scope.inside_subtrees_iff (hnested.contains_inner forest)).mp hin
    exact (hclear inner hinner node hnode).1 hbelow

end LoopDirectives.Loop
