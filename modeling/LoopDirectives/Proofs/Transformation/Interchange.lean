import LoopDirectives.Proofs.Loop.NestExchange
import LoopDirectives.Proofs.Text.Blank

/-!
# What an interchange does

An interchange goes through the levels of the nest from the outermost one on, as selection sort
does: it looks for the loop that runs over the wanted variable and exchanges headers with it. The
invariant is `SortedTo`: every wanted variable is in the nest, and the levels so far have theirs.
The order names every variable of the nest once (`Planned.unique`), so complete headers end up in
that order and nothing else moves (`perform_realises_order`). The plan has not looked at the ranges:
in a nest of three loops the first exchange can have been made when the second one fails
(`perform_of_error`).
-/

namespace LoopDirectives

open Document List

variable {doc after : Document} {loop x y : NodeId} {nest : List NodeId} {name : String}

/-! ### The variables of a nest -/

namespace Loop

def RunsOver (doc : Document) (loop : NodeId) (name : String) : Prop :=
  ∃ own ∈ varName? doc loop, Text.sameLetters own name = true

instance : Decidable (RunsOver doc loop name) :=
  inferInstanceAs (Decidable (∃ own ∈ varName? doc loop, _))

theorem runsOver_iff :
    RunsOver doc loop name ↔
      (varName? doc loop).map Text.lower = some (Text.lower name) := by
  rw [Option.map_eq_some_iff]
  exact exists_congr fun own ↦ and_congr_right fun _ ↦ Text.sameLetters_iff

theorem runsOver_lower :
    RunsOver doc loop (Text.lower name) ↔ RunsOver doc loop name := by
  rw [runsOver_iff, runsOver_iff, Text.lower_lower]

theorem runsOver_congr (h : varName? after x = varName? doc y) :
    RunsOver after x name ↔ RunsOver doc y name := by
  rw [RunsOver, RunsOver, h]

theorem findIdx?_varNames (hnamed : ∀ loop ∈ nest, (varName? doc loop).isSome) :
    (varNames doc nest).findIdx? (Text.sameLetters · name) =
      nest.findIdx? (RunsOver doc · name) := by
  induction nest with
  | nil => rfl
  | cons loop rest ih =>
    obtain ⟨own, hown⟩ := Option.isSome_iff_exists.mp (hnamed loop (mem_cons_self ..))
    have hsame : decide (RunsOver doc loop name) = Text.sameLetters own name := by
      simp [RunsOver, hown]
    rw [varNames, filterMap_cons_some hown, findIdx?_cons, findIdx?_cons, hsame,
      ← ih fun loop hloop ↦ hnamed loop (mem_cons_of_mem _ hloop)]
    rfl

end Loop

namespace Interchange

open Loop

variable {directive : PlacedDirective} {interchange : Interchange} {order : List String}
  {level : Nat} {wanted : String} {cause : TransformError}

/-! ### Plans -/

/-- What an analysis has made sure of. -/
structure Planned (doc : Document) (directive : PlacedDirective)
    (interchange : Interchange) : Prop where
  order : interchange.order = (directive.arguments "order").map Text.lower
  depth : depth? interchange.order.length = some interchange.nest.length
  nested : interchange.nest.Pairwise (Nested doc)
  named : ∀ loop ∈ interchange.nest, (varName? doc loop).isSome = true
  found : ∀ name ∈ interchange.order, ∃ loop ∈ interchange.nest, RunsOver doc loop name
  distinct : (interchange.order.map Text.lower).Nodup

theorem planned_of_plan? (forest : doc.Forest)
    (h : plan? doc directive = some interchange) :
    Planned doc directive interchange := by
  obtain ⟨outer, levels, -, hlevels⟩ := nest_of_plan? h
  obtain ⟨depth, hdepth, h⟩ := Option.bind_eq_some_iff.mp h
  obtain ⟨_, -, h⟩ := Option.bind_eq_some_iff.mp h
  obtain ⟨nest, hnest, h⟩ := Option.bind_eq_some_iff.mp h
  have hlength : nest.length = depth := by simpa using (Option.filter_eq_some_iff.mp hnest).2
  dsimp only at h
  split at h
  · next hfits =>
    cases h
    simp only [Bool.and_eq_true, decide_eq_true_eq, length_map, all_eq_true,
      contains_iff_mem] at hfits
    obtain ⟨⟨hnamed, hfound⟩, hnodup⟩ := hfits
    refine ⟨rfl, hlength ▸ hdepth, hlevels ▸ pairwise_nested_levels forest levels outer,
      ?_, fun name hname ↦ ?_, ?_⟩
    · exact filterMap_length_eq_length.mp (hnamed.trans hlength.symm)
    · obtain ⟨own, hown, heq⟩ := mem_map.mp (hfound name hname)
      obtain ⟨loop, hloop, hown⟩ := mem_filterMap.mp hown
      obtain ⟨argument, -, rfl⟩ := mem_map.mp hname
      exact ⟨loop, hloop, own, hown, Text.sameLetters_iff.mpr (by rw [heq, Text.lower_lower])⟩
    · rw [map_map]
      have hlower : Text.lower ∘ Text.lower = Text.lower := funext Text.lower_lower
      rw [hlower]
      exact hnodup
  · cases h

theorem depth?_cases {length depth : Nat} (h : depth? length = some depth) :
    length = 0 ∧ depth = 2 ∨ length = 2 ∧ depth = 2 ∨ length = 3 ∧ depth = 3 := by
  unfold depth? at h
  split at h <;> simp_all

section

variable (planned : Planned doc directive interchange) (hne : interchange.order ≠ [])

include planned hne

theorem Planned.length_eq : interchange.order.length = interchange.nest.length := by
  have hpos := length_pos_iff.mpr hne
  rcases depth?_cases planned.depth with h | h | h <;> omega

/-- No two loops of a planned nest run over one variable. -/
theorem Planned.unique (hx : x ∈ interchange.nest) (hy : y ∈ interchange.nest)
    (hxName : RunsOver doc x name) (hyName : RunsOver doc y name) : x = y := by
  have hsubset : (interchange.order.map Text.lower).map some ⊆
      interchange.nest.map fun loop ↦ (varName? doc loop).map Text.lower := by
    intro wanted hwanted
    obtain ⟨_, hlower, rfl⟩ := mem_map.mp hwanted
    obtain ⟨name, hname, rfl⟩ := mem_map.mp hlower
    obtain ⟨loop, hloop, hruns⟩ := planned.found name hname
    exact mem_map.mpr ⟨loop, hloop, runsOver_iff.mp hruns⟩
  have hdistinct := planned.distinct.map (Option.some_injective String)
  have hperm := (hdistinct.subperm hsubset).perm_of_length_le (by
    simpa using (planned.length_eq hne).ge)
  exact inj_on_of_nodup_map (hperm.nodup_iff.mp hdistinct) hx hy
    ((runsOver_iff.mp hxName).trans (runsOver_iff.mp hyName).symm)

end

/-! ### Levels one after the other -/

/-- The nest has all wanted variables, and those of the levels before the given one are where they
should be. -/
structure SortedTo (doc : Document) (nest : List NodeId) (order : List String) (level : Nat) :
    Prop where
  forest : doc.Forest
  nested : nest.Pairwise (Nested doc)
  named : ∀ loop ∈ nest, (varName? doc loop).isSome = true
  found : ∀ name ∈ order, ∃ loop ∈ nest, RunsOver doc loop name
  placed : ∀ (earlier : Nat) (loop : NodeId) (name : String), earlier < level →
    nest[earlier]? = some loop → order[earlier]? = some name → RunsOver doc loop name

theorem Planned.sorted (planned : Planned doc directive interchange)
    (forest : doc.Forest) : SortedTo doc interchange.nest interchange.order 0 where
  forest := forest
  nested := planned.nested
  named := planned.named
  found := planned.found
  placed _ _ _ h := absurd h (Nat.not_lt_zero _)

/-- The header that the level should have is that of the right loop, further in. -/
structure Pending (doc : Document) (nest : List NodeId) (level : Nat) (wanted : String)
    (left right : NodeId) : Prop where
  getElem?_left : nest[level]? = some left
  further : ∃ current, level < current ∧ nest[current]? = some right
  not_runsOver_left : ¬ RunsOver doc left wanted
  runsOver_right : RunsOver doc right wanted

section Pending

variable {wanted : String} {left right : NodeId}
  (pending : Pending doc nest level wanted left right)

include pending

theorem Pending.mem_left : left ∈ nest :=
  mem_of_getElem? pending.getElem?_left

theorem Pending.mem_right : right ∈ nest := by
  obtain ⟨current, -, hcurrent⟩ := pending.further
  exact mem_of_getElem? hcurrent

theorem Pending.ne : left ≠ right := by
  rintro rfl
  exact pending.not_runsOver_left pending.runsOver_right

end Pending

namespace SortedTo

variable {wanted : String} {left right : NodeId} (sorted : SortedTo doc nest order level)
  (hwanted : order[level]? = some wanted)

include sorted hwanted

theorem le_of_runsOver (hdistinct : (order.map Text.lower).Nodup) {current : Nat}
    (hcurrent : nest[current]? = some loop) (hruns : RunsOver doc loop wanted) :
    level ≤ current := by
  refine Nat.not_lt.mp fun hlt ↦ ?_
  obtain ⟨hlevel, heq⟩ := List.getElem?_eq_some_iff.mp hwanted
  have hearlier : current < order.length := Nat.lt_trans hlt hlevel
  have hplaced := sorted.placed current loop order[current] hlt hcurrent
    (getElem?_eq_getElem hearlier)
  -- The loop runs over two variables of the order, so these are the same one.
  have hsame : Text.lower order[current] = Text.lower order[level] := by
    rw [heq]
    exact Option.some.inj ((runsOver_iff.mp hplaced).symm.trans (runsOver_iff.mp hruns))
  have hcurrent : current < (order.map Text.lower).length := by rwa [length_map]
  have hindex : (order.map Text.lower)[current]? = (order.map Text.lower)[level]? := by
    rw [getElem?_map, getElem?_map, getElem?_eq_getElem hearlier,
      getElem?_eq_getElem hlevel, Option.map_some, Option.map_some, hsame]
  exact Nat.ne_of_lt hlt ((getElem?_inj hcurrent hdistinct).mp hindex)

theorem succ_of_runsOver (hloop : nest[level]? = some loop)
    (hruns : RunsOver doc loop wanted) : SortedTo doc nest order (level + 1) where
  forest := sorted.forest
  nested := sorted.nested
  named := sorted.named
  found := sorted.found
  placed earlier other name hearlier hother hname := by
    rcases Nat.lt_succ_iff_lt_or_eq.mp hearlier with hlt | rfl
    · exact sorted.placed earlier other name hlt hother hname
    · rw [hloop] at hother
      rw [hwanted] at hname
      cases hother
      cases hname
      exact hruns

theorem place_cases (hdistinct : (order.map Text.lower).Nodup) :
    place doc nest level wanted = .ok doc ∧
        SortedTo doc nest order (level + 1) ∨
      ∃ left right, Pending doc nest level wanted left right ∧
        place doc nest level wanted = exchangeHeaders doc left right := by
  rw [place, findIdx?_varNames sorted.named]
  cases hfind : nest.findIdx? (RunsOver doc · wanted) with
  | none =>
    obtain ⟨loop, hloop, hruns⟩ := sorted.found wanted (mem_of_getElem? hwanted)
    exact absurd hruns (of_decide_eq_false (findIdx?_eq_none_iff.mp hfind loop hloop))
  | some current =>
    obtain ⟨hlt, hruns, hfirst⟩ := findIdx?_eq_some_iff_getElem.mp hfind
    have hruns := of_decide_eq_true hruns
    have hcurrent : nest[current]? = some nest[current] := getElem?_eq_getElem hlt
    by_cases heq : current = level
    · subst heq
      exact Or.inl ⟨if_pos rfl, sorted.succ_of_runsOver hwanted hcurrent hruns⟩
    · have hle := sorted.le_of_runsOver hwanted hdistinct hcurrent hruns
      have hlevel : level < current := by omega
      have hleft : nest[level]? = some nest[level] :=
        getElem?_eq_getElem (Nat.lt_trans hlevel hlt)
      refine Or.inr ⟨nest[level], nest[current], ⟨hleft, ⟨current, hlevel, hcurrent⟩,
        fun h ↦ hfirst level hlevel (decide_eq_true h), hruns⟩, ?_⟩
      simp only [if_neg heq, hleft, hcurrent]

theorem exchange (pending : Pending doc nest level wanted left right)
    (h : exchangeHeaders doc left right = .ok after) :
    SortedTo after nest order (level + 1) := by
  have hname {loop : NodeId} (hloop : loop ∈ nest) :
      varName? after loop = varName? doc (Equiv.swap left right loop) :=
    varName?_exchangeHeaders sorted.forest sorted.nested pending.mem_left pending.mem_right
      pending.ne h hloop
  have hswap {loop : NodeId} (hloop : loop ∈ nest) : Equiv.swap left right loop ∈ nest :=
    swap_mem pending.mem_left pending.mem_right hloop
  obtain ⟨_, _, _, _, -, -, -, swapped⟩ := exists_swapped_of_mem sorted.forest sorted.nested
    pending.mem_left pending.mem_right pending.ne h
  refine ⟨swapped.keeps.forest, pairwise_nested_exchangeHeaders sorted.forest sorted.nested
    pending.mem_left pending.mem_right h, fun loop hloop ↦ ?_, fun name hmem ↦ ?_,
    fun earlier loop name hearlier hloop hmem ↦ ?_⟩
  · rw [hname hloop]
    exact sorted.named _ (hswap hloop)
  · obtain ⟨loop, hloop, hruns⟩ := sorted.found name hmem
    refine ⟨Equiv.swap left right loop, hswap hloop, (runsOver_congr ?_).mpr hruns⟩
    rw [hname (hswap hloop), Equiv.swap_apply_self]
  · refine (runsOver_congr (hname (mem_of_getElem? hloop))).mpr ?_
    rcases Nat.lt_succ_iff_lt_or_eq.mp hearlier with hlt | rfl
    · -- The levels before are neither of the two, since no loop stands twice in a nest.
      have hnodup : nest.Nodup := sorted.nested.imp fun nested ↦
        (nested.separate sorted.forest).ne
      have hother {index : Nat} {other : NodeId} (hindex : earlier < index)
          (h : nest[index]? = some other) : loop ≠ other := by
        rintro rfl
        obtain ⟨hlt, rfl⟩ := List.getElem?_eq_some_iff.mp hloop
        obtain ⟨hindexLt, heq⟩ := List.getElem?_eq_some_iff.mp h
        exact absurd (hnodup.getElem_inj_iff.mp heq) (by omega)
      obtain ⟨current, hcurrent, hright⟩ := pending.further
      rw [Equiv.swap_apply_of_ne_of_ne (hother hlt pending.getElem?_left)
        (hother (Nat.lt_trans hlt hcurrent) hright)]
      exact sorted.placed earlier loop name hlt hloop hmem
    · rw [pending.getElem?_left] at hloop
      rw [hwanted] at hmem
      cases hloop
      cases hmem
      rw [Equiv.swap_apply_left]
      exact pending.runsOver_right

end SortedTo

theorem arrange_cons_ok (h : place doc nest level wanted = .ok after) (rest : List String) :
    arrange doc nest level (wanted :: rest) = arrange after nest (level + 1) rest := by
  simp only [arrange, h]

theorem arrange_cons_error (h : place doc nest level wanted = .error cause)
    (rest : List String) :
    arrange doc nest level (wanted :: rest) =
      { state := doc, result := .error cause } := by
  simp only [arrange, h]

theorem arrange_rearranged (forest : doc.Forest) (hdistinct : (order.map Text.lower).Nodup)
    (done rest : List String) {middle : Document} (horder : order = done ++ rest)
    (sorted : SortedTo middle nest order done.length)
    (rearranged : Rearranged doc middle nest) :
    (arrange middle nest done.length rest).result = .ok () ∧
      Rearranged doc (arrange middle nest done.length rest).state nest ∧
      SortedTo (arrange middle nest done.length rest).state nest order order.length := by
  induction rest generalizing done middle with
  | nil =>
    rw [append_nil] at horder
    exact ⟨rfl, rearranged, horder ▸ sorted⟩
  | cons wanted rest ih =>
    have hwanted : order[done.length]? = some wanted := by simp [horder]
    have hnext : order = (done ++ [wanted]) ++ rest := by simp [horder]
    have hlength : (done ++ [wanted]).length = done.length + 1 := length_append
    rcases sorted.place_cases hwanted hdistinct with
      ⟨hplace, hsorted⟩ | ⟨left, right, pending, hplace⟩
    · rw [arrange_cons_ok hplace, ← hlength]
      exact ih _ hnext (hlength ▸ hsorted) rearranged
    · obtain ⟨after, hafter, hrearranged, -⟩ :=
        rearranged.exists_exchanged pending.mem_left pending.mem_right pending.ne forest
      rw [arrange_cons_ok (hplace.trans hafter), ← hlength]
      exact ih _ hnext (hlength ▸ sorted.exchange hwanted pending hafter) hrearranged

theorem perform_eq_arrange (horder : interchange.order ≠ []) :
    interchange.perform doc = arrange doc interchange.nest 0 interchange.order := by
  rw [perform, if_neg (by simpa using horder)]

theorem Planned.perform_eq_exchange (planned : Planned doc directive interchange)
    (forest : doc.Forest) (horder : interchange.order = []) :
    ∃ outer inner, interchange.nest = [outer, inner] ∧ outer ≠ inner ∧
      interchange.perform doc =
        Outcome.ofExcept doc (exchangeHeaders doc outer inner) := by
  have hdepth := planned.depth
  rw [horder] at hdepth
  obtain ⟨outer, inner, hnest⟩ := length_eq_two.mp (Option.some.inj hdepth).symm
  have hnested := planned.nested
  rw [hnest, pairwise_pair] at hnested
  refine ⟨outer, inner, hnest, (hnested.separate forest).ne, ?_⟩
  rw [perform, horder, hnest]
  rfl

/-! ### Interchanges of complete loops -/

/-- In the end each level has the header that an order of the variables asks for: that of the one
loop of the nest which ran over the variable. -/
def InOrder (before after : Document) (nest : List NodeId) (names : List String) : Prop :=
  ∀ (level : Nat) (loop : NodeId), nest[level]? = some loop →
    ∃ name ∈ names[level]?, ∃ source ∈ nest, RunsOver before source name ∧
      (∀ other ∈ nest, RunsOver before other name → other = source) ∧
      headerContent after loop = headerContent before source

theorem varName?_congr (forest : doc.Forest) (hafter : after.Forest)
    (hx : Complete after x) (hy : Complete doc y)
    (h : headerContent after x = headerContent doc y) :
    varName? after x = varName? doc y := by
  obtain ⟨first, hfirst⟩ := complete_iff_exists_parts.mp hx
  obtain ⟨second, hsecond⟩ := complete_iff_exists_parts.mp hy
  rw [headerContent_of_parts hfirst, headerContent_of_parts hsecond] at h
  rw [varName?_of_parts hfirst, varName?_of_parts hsecond,
    text_eq_of_element_eq forest hafter (Option.some.inj (List.cons.inj h).1)]

theorem Planned.inOrder (planned : Planned doc directive interchange)
    (forest : doc.Forest) (hne : interchange.order ≠ [])
    (hcomplete : ∀ loop ∈ interchange.nest, Complete doc loop)
    (rearranged : Rearranged doc after interchange.nest)
    (sorted : SortedTo after interchange.nest interchange.order interchange.order.length) :
    InOrder doc after interchange.nest (directive.arguments "order") := by
  intro level loop hloop
  obtain ⟨hlevel, -⟩ := List.getElem?_eq_some_iff.mp hloop
  rw [← planned.length_eq hne] at hlevel
  have hmem := mem_of_getElem? hloop
  have hplaced := sorted.placed level loop interchange.order[level] hlevel hloop
    (getElem?_eq_getElem hlevel)
  have hname : interchange.order[level]? =
      ((directive.arguments "order").map Text.lower)[level]? := by
    rw [planned.order]
  rw [getElem?_eq_getElem hlevel, getElem?_map] at hname
  obtain ⟨name, hname, heq⟩ := Option.map_eq_some_iff.mp hname.symm
  obtain ⟨source, hsource, hcontent⟩ := rearranged.source loop hmem
  have hruns : RunsOver doc source name := by
    rw [← heq, runsOver_lower] at hplaced
    exact (runsOver_congr (varName?_congr forest rearranged.keeps.forest
      (rearranged.complete loop hmem) (hcomplete source hsource) hcontent)).mp hplaced
  exact ⟨name, hname, source, hsource, hruns,
    fun other hother hotherRuns ↦ planned.unique hne hother hsource hotherRuns hruns, hcontent⟩

/-- The interchange that a directive asks for, in a nest of complete loops with no more than one
step each, succeeds. What is outside of the headers of the nest, the loops themselves and what is
in their bodies, stays as and where it was, and the headers are in the order of the directive or,
if it gives none, the two of them are exchanged. -/
theorem perform_realises_order (forest : doc.Forest)
    (hplan : plan? doc directive = some interchange)
    (hcomplete : ∀ loop ∈ interchange.nest, Complete doc loop)
    (hsingle : ∀ range ∈ headerRanges doc interchange.nest, SingleStep doc range) :
    (interchange.perform doc).result = .ok () ∧
      Rearranged doc (interchange.perform doc).state interchange.nest ∧
      (∀ x ∈ interchange.nest, ∀ loop ∈ interchange.nest, ¬ InHeader doc loop x) ∧
      (∀ x, doc.contains x = true →
        (∀ loop ∈ interchange.nest, ¬ InHeader doc loop x) →
          (interchange.perform doc).state.label x = doc.label x ∧
          (interchange.perform doc).state.parent? x = doc.parent? x ∧
          (interchange.perform doc).state.position? x = doc.position? x) ∧
      (directive.arguments "order" ≠ [] →
        InOrder doc (interchange.perform doc).state interchange.nest
          (directive.arguments "order")) ∧
      (directive.arguments "order" = [] → ∃ outer inner, interchange.nest = [outer, inner] ∧
        headerContent (interchange.perform doc).state outer =
          headerContent doc inner ∧
        headerContent (interchange.perform doc).state inner =
          headerContent doc outer) := by
  have planned := planned_of_plan? forest hplan
  have hstart : Rearranged doc doc interchange.nest :=
    .refl forest planned.nested hcomplete fun loop hloop range hrange ↦
      hsingle range (mem_headerRanges.mpr ⟨loop, hloop, hrange⟩)
  have hgiven : directive.arguments "order" = [] ↔ interchange.order = [] := by
    rw [planned.order, List.map_eq_nil_iff]
  have hinside : ∀ x ∈ interchange.nest, ∀ loop ∈ interchange.nest,
      ¬ InHeader doc loop x := fun x hx loop hloop ↦
    not_inHeader_of_pairwise_nested forest planned.nested hx hloop
  rw [ne_eq, hgiven]
  by_cases horder : interchange.order = []
  · obtain ⟨outer, inner, hnest, hne, hperform⟩ := planned.perform_eq_exchange forest horder
    have houter : outer ∈ interchange.nest := by simp [hnest]
    have hinner : inner ∈ interchange.nest := by simp [hnest]
    obtain ⟨after, hafter, rearranged, hcontent⟩ :=
      hstart.exists_exchanged houter hinner hne forest
    rw [hperform, hafter, Outcome.ofExcept]
    refine ⟨rfl, rearranged, hinside, fun x hlive hout ↦ rearranged.stays forest hcomplete hlive
      hout, fun h ↦ absurd horder h, fun _ ↦ ⟨outer, inner, hnest, ?_, ?_⟩⟩
    · rw [hcontent outer houter, Equiv.swap_apply_left]
    · rw [hcontent inner hinner, Equiv.swap_apply_right]
  · obtain ⟨hresult, rearranged, sorted⟩ := arrange_rearranged forest planned.distinct []
      interchange.order rfl (planned.sorted forest) hstart
    rw [perform_eq_arrange horder]
    exact ⟨hresult, rearranged, hinside, fun x hlive hout ↦ rearranged.stays forest hcomplete
      hlive hout, fun _ ↦ planned.inOrder forest horder hcomplete rearranged sorted,
      fun h ↦ absurd h horder⟩

/-- Three nested loops after a pragma. What is given is in the innermost one, beside its variable
and its body. -/
def threeLoops (parts : List Element) : Element :=
  let loop (name : String) (parts inner : List Element) : Element :=
    .branch "FdoStatement" (.var name :: parts ++ [.branch "body" inner])
  .branch "body"
    [.pragma "lsm loop-interchange order(J, k, i)",
     loop "i" [.range (.int "1") (.int "7")]
      [loop "j" [.range (.int "1") (.int "8")] [loop "k" parts []]]]

def steppedRange : Element :=
  .branch "indexRange"
    [.branch "lowerBound" [.int "1"], .branch "upperBound" [.int "9"], .branch "step" [.int "2"]]

def threeLoopsDirective : PlacedDirective :=
  { keyword := "loop-interchange", clauses := [{ name := "order", arguments := ["J", "k", "i"] }],
    pragma := ⟨1⟩, line := 2 }

def threeLoopsPlan : Interchange :=
  { order := ["j", "k", "i"], nest := [⟨2⟩, ⟨10⟩, ⟨18⟩] }

theorem perform_realises_order_threeLoops :
    (threeLoopsPlan.perform (ofElement (threeLoops [steppedRange])).1).result = .ok () ∧
      Rearranged (ofElement (threeLoops [steppedRange])).1
        (threeLoopsPlan.perform (ofElement (threeLoops [steppedRange])).1).state
        threeLoopsPlan.nest ∧
      InOrder (ofElement (threeLoops [steppedRange])).1
        (threeLoopsPlan.perform (ofElement (threeLoops [steppedRange])).1).state
        threeLoopsPlan.nest ["J", "k", "i"] := by
  have hplan : plan? (ofElement (threeLoops [steppedRange])).1 threeLoopsDirective =
      some threeLoopsPlan := by decide +kernel
  obtain ⟨hresult, rearranged, -, -, hordered, -⟩ := perform_realises_order
    (forest_ofElement (threeLoops [steppedRange])) hplan (by decide +kernel) (by decide +kernel)
  exact ⟨hresult, rearranged, hordered (by decide +kernel)⟩

/-! ### Interchanges that fail -/

theorem SortedTo.arrange_last (done : List String)
    (sorted : SortedTo doc nest order done.length) (hdistinct : (order.map Text.lower).Nodup)
    (horder : order = done ++ [wanted]) (hlength : nest.length = order.length) :
    arrange doc nest done.length [wanted] = { state := doc } := by
  have hwanted : order[done.length]? = some wanted := by simp [horder]
  rcases sorted.place_cases hwanted hdistinct with ⟨hplace, -⟩ | ⟨left, right, pending, -⟩
  · rw [arrange_cons_ok hplace]
    rfl
  · obtain ⟨current, hlt, hcurrent⟩ := pending.further
    obtain ⟨hbound, -⟩ := List.getElem?_eq_some_iff.mp hcurrent
    rw [hlength, horder, length_append, length_singleton] at hbound
    omega

/-- When no more than two levels are left, a failure leaves the document as it was, and one of the
loops is not complete. -/
theorem SortedTo.arrange_error {rest : List String} (sorted : SortedTo doc nest order 1)
    (hdistinct : (order.map Text.lower).Nodup) (horder : order = wanted :: rest)
    (hlength : nest.length = order.length) (hshort : rest.length ≤ 2)
    (herror : (arrange doc nest 1 rest).result = .error cause) :
    rest.length = 2 ∧ (arrange doc nest 1 rest).state = doc ∧
      ∃ loop ∈ nest, ¬ Complete doc loop := by
  match rest with
  | [] => cases herror
  | [last] =>
    have hlast : arrange doc nest 1 [last] = { state := doc } :=
      SortedTo.arrange_last [wanted] sorted hdistinct horder hlength
    rw [hlast] at herror
    cases herror
  | [next, last] =>
    have hnext : order[1]? = some next := by simp [horder]
    have hrest {middle : Document} (hsorted : SortedTo middle nest order 2) :
        arrange middle nest 2 [last] = { state := middle } :=
      SortedTo.arrange_last [wanted, next] hsorted hdistinct horder hlength
    rcases sorted.place_cases hnext hdistinct with
      ⟨hplace, hsorted⟩ | ⟨left, right, pending, hplace⟩
    · rw [arrange_cons_ok hplace, hrest hsorted] at herror
      cases herror
    · cases hexchange : exchangeHeaders doc left right with
      | ok after =>
        rw [arrange_cons_ok (hplace.trans hexchange),
          hrest (sorted.exchange hnext pending hexchange)] at herror
        cases herror
      | error cause =>
        rw [arrange_cons_error (hplace.trans hexchange)]
        refine ⟨rfl, rfl, ?_⟩
        by_contra hall
        have hcomplete : ∀ loop ∈ nest, Complete doc loop := fun loop hloop ↦
          not_not.mp fun h ↦ hall ⟨loop, hloop, h⟩
        obtain ⟨after, hafter⟩ := exists_exchangeHeaders_eq_ok
          (hcomplete left pending.mem_left) (hcomplete right pending.mem_right)
        rw [hexchange] at hafter
        cases hafter
  | _ :: _ :: _ :: _ => simp at hshort

/-- The outermost loop does not run over the first variable of the order, and the two loops that
exchange their headers first are complete. -/
structure Opening (doc : Document) (interchange : Interchange) (outer source : NodeId) :
    Prop where
  pending : ∃ wanted ∈ interchange.order.head?,
    Pending doc interchange.nest 0 wanted outer source
  complete_outer : Complete doc outer
  complete_source : Complete doc source

theorem Opening.eq_of_pending {outer source left right : NodeId}
    (opening : Opening doc interchange outer source)
    (planned : Planned doc directive interchange)
    (hwanted : interchange.order.head? = some wanted)
    (pending : Pending doc interchange.nest 0 wanted left right) :
    outer = left ∧ source = right := by
  obtain ⟨name, hname, hother⟩ := opening.pending
  rw [hwanted, Option.mem_some_iff] at hname
  subst hname
  refine ⟨Option.some.inj (hother.getElem?_left.symm.trans pending.getElem?_left),
    planned.unique (ne_nil_of_mem (mem_of_head? hwanted)) hother.mem_right
      pending.mem_right hother.runsOver_right pending.runsOver_right⟩

/-- A failed interchange has changed nothing, or made the first exchange in a nest of three. -/
theorem Planned.arrange_error_cases (planned : Planned doc directive interchange)
    (forest : doc.Forest) (horder : interchange.order ≠ [])
    (herror : (arrange doc interchange.nest 0 interchange.order).result = .error cause) :
    ((arrange doc interchange.nest 0 interchange.order).state = doc ∧
      ∀ outer source, ¬ Opening doc interchange outer source) ∨
    ∃ outer source, Opening doc interchange outer source ∧ interchange.order.length = 3 ∧
      exchangeHeaders doc outer source =
        .ok (arrange doc interchange.nest 0 interchange.order).state ∧
      ∃ loop ∈ interchange.nest, ¬ Complete doc loop := by
  obtain ⟨wanted, rest, hcons⟩ := exists_cons_of_ne_nil horder
  have hwanted : interchange.order[0]? = some wanted := by simp [hcons]
  have hhead : interchange.order.head? = some wanted := by simp [hcons]
  have hlength := planned.length_eq horder
  have hrest : interchange.order.length = rest.length + 1 := by simp [hcons]
  have hshort : rest.length ≤ 2 := by
    rcases depth?_cases planned.depth with h | h | h <;> omega
  have hstart := planned.sorted forest
  have hplaced {placed : Document} (h : place doc interchange.nest 0 wanted = .ok placed) :
      arrange doc interchange.nest 0 interchange.order =
        arrange placed interchange.nest 1 rest := by
    rw [hcons]
    exact arrange_cons_ok h rest
  rcases hstart.place_cases hwanted planned.distinct with
    ⟨hplace, hsorted⟩ | ⟨left, right, pending, hplace⟩
  · -- The first level has its variable already.
    rw [hplaced hplace] at herror ⊢
    obtain ⟨-, hstate, -⟩ :=
      hsorted.arrange_error planned.distinct hcons hlength.symm hshort herror
    refine Or.inl ⟨hstate, fun outer source opening ↦ ?_⟩
    obtain ⟨name, hname, pending⟩ := opening.pending
    rw [hhead, Option.mem_some_iff] at hname
    subst hname
    exact pending.not_runsOver_left
      (hsorted.placed 0 outer _ Nat.zero_lt_one pending.getElem?_left hwanted)
  cases hexchange : exchangeHeaders doc left right with
  | error cause =>
    rw [hcons, arrange_cons_error (hplace.trans hexchange)]
    refine Or.inl ⟨rfl, fun outer source opening ↦ ?_⟩
    obtain ⟨rfl, rfl⟩ := opening.eq_of_pending planned hhead pending
    obtain ⟨after, hafter⟩ :=
      exists_exchangeHeaders_eq_ok opening.complete_outer opening.complete_source
    rw [hexchange] at hafter
    cases hafter
  | ok after =>
    rw [hplaced (hplace.trans hexchange)] at herror ⊢
    obtain ⟨hleft, hright⟩ := complete_of_exchangeHeaders hexchange
    obtain ⟨htwo, hstate, loop, hloop, hincomplete⟩ :=
      (hstart.exchange hwanted pending hexchange).arrange_error planned.distinct hcons
        hlength.symm hshort herror
    refine Or.inr ⟨left, right, ⟨⟨wanted, hhead, pending⟩, hleft, hright⟩, by omega, ?_, loop,
      hloop, ?_⟩
    · exact hexchange.trans (congrArg Except.ok hstate.symm)
    · rwa [← complete_exchangeHeaders_iff forest planned.nested pending.mem_left
        pending.mem_right pending.ne hexchange hloop]

/-- An interchange that fails leaves the document as it was, unless it is one of three loops of
which the first two could exchange their headers and the third is not complete. Then that first
exchange has been made. -/
theorem perform_of_error (forest : doc.Forest)
    (hplan : plan? doc directive = some interchange) {cause : TransformError}
    (herror : (interchange.perform doc).result = .error cause) :
    ((interchange.perform doc).state ≠ doc ↔
      interchange.order.length = 3 ∧ ∃ outer source, Opening doc interchange outer source) ∧
    ∀ outer source, Opening doc interchange outer source →
      exchangeHeaders doc outer source = .ok (interchange.perform doc).state ∧
      ∃ loop ∈ interchange.nest, loop ≠ outer ∧ loop ≠ source ∧ ¬ Complete doc loop := by
  have planned := planned_of_plan? forest hplan
  by_cases horder : interchange.order = []
  · obtain ⟨outer, inner, -, -, hperform⟩ := planned.perform_eq_exchange forest horder
    have hnone : ∀ outer source, ¬ Opening doc interchange outer source := by
      rintro outer source ⟨⟨wanted, hwanted, -⟩, -, -⟩
      simp [horder] at hwanted
    have hstate : (interchange.perform doc).state = doc := by
      rw [hperform] at herror ⊢
      cases hexchange : exchangeHeaders doc outer inner with
      | error cause => rfl
      | ok after =>
        rw [hexchange] at herror
        cases herror
    exact ⟨iff_of_false (not_not.mpr hstate) fun h ↦ h.2.elim fun outer h ↦ h.elim (hnone outer),
      fun outer source opening ↦ absurd opening (hnone outer source)⟩
  rw [perform_eq_arrange horder] at herror ⊢
  rcases planned.arrange_error_cases forest horder herror with
    ⟨hstate, hnone⟩ | ⟨outer, source, opening, hthree, hexchange, loop, hloop, hincomplete⟩
  · exact ⟨iff_of_false (not_not.mpr hstate) fun h ↦ h.2.elim fun outer h ↦ h.elim (hnone outer),
      fun outer source opening ↦ absurd opening (hnone outer source)⟩
  · obtain ⟨wanted, hwanted, pending⟩ := opening.pending
    have separate := (separate_of_pairwise_nested forest planned.nested pending.mem_left
      pending.mem_right pending.ne).1
    refine ⟨iff_of_true (ne_of_exchangeHeaders separate forest hexchange)
      ⟨hthree, outer, source, opening⟩, fun first second hother ↦ ?_⟩
    obtain ⟨rfl, rfl⟩ := hother.eq_of_pending planned hwanted pending
    refine ⟨hexchange, loop, hloop, ?_, ?_, hincomplete⟩
    · rintro rfl
      exact hincomplete opening.complete_outer
    · rintro rfl
      exact hincomplete opening.complete_source

theorem perform_of_error_threeLoops :
    (threeLoopsPlan.perform (ofElement (threeLoops [])).1).result =
        .error .missingIterationRange ∧
      (threeLoopsPlan.perform (ofElement (threeLoops [])).1).state ≠
        (ofElement (threeLoops [])).1 ∧
      exchangeHeaders (ofElement (threeLoops [])).1 ⟨2⟩ ⟨10⟩ =
        .ok (threeLoopsPlan.perform (ofElement (threeLoops [])).1).state := by
  have hplan : plan? (ofElement (threeLoops [])).1 threeLoopsDirective = some threeLoopsPlan := by
    decide +kernel
  have herror : (threeLoopsPlan.perform (ofElement (threeLoops [])).1).result =
      .error .missingIterationRange := by decide +kernel
  have opening : Opening (ofElement (threeLoops [])).1 threeLoopsPlan ⟨2⟩ ⟨10⟩ :=
    ⟨⟨"j", rfl, rfl, ⟨1, by decide, rfl⟩, by decide +kernel, by decide +kernel⟩,
      by decide +kernel, by decide +kernel⟩
  obtain ⟨hchanged, hexchange⟩ :=
    perform_of_error (forest_ofElement (threeLoops [])) hplan herror
  exact ⟨herror, hchanged.mpr ⟨rfl, _, _, opening⟩, (hexchange _ _ opening).1⟩

end Interchange

end LoopDirectives
