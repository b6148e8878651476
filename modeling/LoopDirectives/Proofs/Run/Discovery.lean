import LoopDirectives.Proofs.Run.Integrity

/-!
# The directives that a run takes up

The pragmas below the root are looked at in document order. One that holds a directive with a known
keyword is a request (`Run.requests`), and a faulty one gets a warning (`Run.faults`,
`Run.warns_discover`). The members of the groups are the requests, each in one group
(`Run.perm_discover`) and in document order there (`Run.forall₂_gathers_discover`).
-/

namespace LoopDirectives

open Document List

namespace Run

/-! ### Requests and faults -/

variable {marker : String} {doc : Document} {pragma : NodeId} {program : SourceUnit}

theorem pragma_of_requestAt? {request : PlacedDirective × TransformationKind}
    (h : requestAt? marker doc pragma = some request) : request.1.pragma = pragma :=
  pragma_of_find? (find?_of_requestAt? h).1

theorem sublist_map_filterMap {α β γ : Type} {f : α → Option β} {name : α → γ} {name' : β → γ}
    (h : ∀ a b, f a = some b → name' b = name a) (items : List α) :
    ((items.filterMap f).map name').Sublist (items.map name) := by
  induction items with
  | nil => exact .slnil
  | cons item rest ih =>
    cases hitem : f item with
    | none =>
      rw [filterMap_cons_none hitem]
      exact ih.cons _
    | some kept =>
      rw [filterMap_cons_some hitem, map_cons, map_cons, h item kept hitem]
      exact ih.cons_cons _

theorem nodup_requests (forest : program.document.Forest) :
    ((requests marker program).map fun request ↦ request.1.pragma).Nodup := by
  have hdescendants : (program.document.descendants program.root).Nodup :=
    (forest.nodup_subtree program.root).sublist (forest.descendants_sublist _)
  have hsublist : ((requests marker program).map fun request ↦ request.1.pragma).Sublist
      ((program.document.descendantsOf program.root .pragma).map id) :=
    sublist_map_filterMap (fun _ _ h ↦ pragma_of_requestAt? h) _
  rw [map_id] at hsublist
  exact (hdescendants.sublist filter_sublist).sublist hsublist

/-- The second report says what the first one does, and then gives a number of warnings. -/
def Warns (number : Nat) (before after : Report) : Prop :=
  ∃ warnings : List Diagnostic, warnings.length = number ∧
    (∀ warning ∈ warnings, warning.severity = .warning) ∧
    after = { before with diagnostics := before.diagnostics ++ warnings }

theorem Warns.refl (report : Report) : Warns 0 report report :=
  ⟨[], rfl, forall_mem_nil _, by rw [append_nil]⟩

theorem Warns.head {number : Nat} {before after : Report} {line : Nat} {message : String}
    (h : Warns number (before.add line .warning message) after) :
    Warns (number + 1) before after := by
  obtain ⟨warnings, rfl, hwarnings, rfl⟩ := h
  refine ⟨{ file := before.file, line, severity := .warning, message } :: warnings, rfl,
    forall_mem_cons.mpr ⟨rfl, hwarnings⟩, ?_⟩
  rw [Report.add, append_assoc]
  rfl

theorem mem_all (kind : TransformationKind) : kind ∈ TransformationKind.all := by
  cases kind <;> decide

theorem perm_flatMap_filter {kinds : List TransformationKind} (hnodup : kinds.Nodup)
    (requests : List (PlacedDirective × TransformationKind)) :
    (kinds.flatMap fun kind ↦ requests.filter (·.2 = kind)).Perm
      (requests.filter (·.2 ∈ kinds)) := by
  induction kinds with
  | nil => simp
  | cons kind rest ih =>
    obtain ⟨hkind, hrest⟩ := nodup_cons.mp hnodup
    have hsplit := filter_append_perm (·.2 = kind) (requests.filter (·.2 ∈ kind :: rest))
    rw [filter_filter, filter_filter] at hsplit
    refine ((ih hrest).append_left _).trans (.trans (.of_eq ?_) hsplit)
    congr 1 <;> refine filter_congr fun request _ ↦ ?_
    · by_cases heq : request.2 = kind <;> simp [heq]
    · by_cases heq : request.2 = kind <;> simp [heq, hkind]

/-- The groups hold every request once. -/
theorem perm_discover (marker : String) (program : SourceUnit) :
    (((discover marker program).1.flatMap Group.members).map Transformation.request).Perm
      (requests marker program) := by
  have hmembers : (discover marker program).1.map Group.members =
      TransformationKind.all.map (membersOf · (requests marker program)) := by
    rw [← forall₂_eq_eq_eq, forall₂_map_left_iff, forall₂_map_right_iff]
    exact (forall₂_gathers_discover marker program).flip.imp fun _ _ hgroup ↦ hgroup.members
  have hsame (kind : TransformationKind) :
      (membersOf kind (requests marker program)).map Transformation.request =
        (requests marker program).filter (·.2 = kind) := by
    rw [membersOf, List.map_map]
    exact map_id _
  have hnodup : TransformationKind.all.Nodup := by decide
  have hall : (requests marker program).filter (·.2 ∈ TransformationKind.all) =
      requests marker program :=
    filter_eq_self.mpr fun request _ ↦ decide_eq_true (mem_all request.2)
  rw [flatMap_def, hmembers, ← flatMap_def, map_flatMap]
  simp only [hsame]
  exact (perm_flatMap_filter hnodup _).trans (.of_eq hall)

theorem warns_foldl_discoverAt (marker : String) (doc : Document) (pragmas : List NodeId)
    (state : List Group × Report) :
    Warns (pragmas.countP (isFaulty marker doc)) state.2
      (pragmas.foldl (discoverAt marker doc) state).2 := by
  induction pragmas generalizing state with
  | nil => exact .refl _
  | cons pragma rest ih =>
    have hrest := ih (discoverAt marker doc state pragma)
    rw [foldl_cons]
    rcases discoverAt_cases marker doc state pragma with
      ⟨_, _, -, hfaulty, hstate⟩ | ⟨-, hfaulty, _, _, hstate⟩ | ⟨-, hfaulty, hstate⟩
    · rw [hstate] at hrest ⊢
      rwa [countP_cons_of_neg (by simp [hfaulty])]
    · rw [hstate] at hrest ⊢
      rw [countP_cons_of_pos hfaulty]
      exact hrest.head
    · rw [hstate] at hrest ⊢
      rwa [countP_cons_of_neg (by simp [hfaulty])]

/-- Every faulty pragma gets one warning, and nothing else does. -/
theorem warns_discover (marker : String) (program : SourceUnit) :
    Warns (faults marker program) { file := program.name } (discover marker program).2 :=
  warns_foldl_discoverAt _ _ _ (emptyGroups, { file := program.name })

theorem gathers_of_mem_discover {group : Group} {kind : TransformationKind}
    (hgroup : group ∈ (discover marker program).1) (hkeyword : group.keyword = kind.keyword) :
    Gathers (requests marker program) kind group := by
  obtain ⟨position, hlt, rfl⟩ := getElem_of_mem hgroup
  have hgathers := forall₂_gathers_discover marker program
  have hget := (forall₂_iff_get.mp hgathers).2 position
    (hgathers.length_eq.symm ▸ hlt) hlt
  have hkind := TransformationKind.keyword_injective (hget.keyword.symm.trans hkeyword)
  exact hkind ▸ hget

end Run

end LoopDirectives
