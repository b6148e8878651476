import Mathlib.Data.List.Find
import Mathlib.Data.List.Nodup
import LoopDirectives.Document.Basic

/-!
# Regions among siblings

The opening and closing directives among siblings, taken as brackets. `survivors` pairs each closing
directive with the nearest opening one that is not paired yet; `strike` says what one opening takes
away as things stand. Where no opening stands between another one and the first closing directive
after it, striking the openings one by one leaves the survivors (`foldl_strike_eq_survivors`).
-/

namespace LoopDirectives.Removal

open List

inductive Role where
  | opening
  | closing
  /-- Whatever is no pragma. -/
  | statement
  /-- A pragma that the removals pass over. -/
  | other
  deriving DecidableEq

variable {pair taking : NodeId × NodeId} (role : NodeId → Role)
  {siblings front after between pending openings taken : List NodeId} {opening closing x y : NodeId}

/-! ### The siblings that are left -/

/-- Each closing directive with the nearest opening one before it that is not paired yet; `pending`
holds the unpaired ones so far, the nearest first. -/
def pairs : (pending siblings : List NodeId) → List (NodeId × NodeId)
  | _, [] => []
  | pending, sibling :: rest =>
    match role sibling, pending with
    | .opening, _ => pairs (sibling :: pending) rest
    | .closing, opening :: others => (opening, sibling) :: pairs others rest
    | _, _ => pairs pending rest

/-- The siblings from the first node of the pair up to the second, both included. -/
def stretch (siblings : List NodeId) (pair : NodeId × NodeId) : List NodeId :=
  (siblings.dropWhile (· ≠ pair.1)).takeWhile (· ≠ pair.2) ++ [pair.2]

def lone (siblings : List NodeId) : List NodeId :=
  siblings.filter fun x ↦ role x = .opening ∧ x ∉ (pairs role [] siblings).map Prod.fst

/-- Each of the openings with the first statement after it that is not taken yet; an opening with
no such statement is left out. -/
def takings (siblings : List NodeId) : (openings taken : List NodeId) → List (NodeId × NodeId)
  | [], _ => []
  | opening :: rest, taken =>
    match (siblings.dropWhile (· ≠ opening)).find? fun x ↦ role x = .statement ∧ x ∉ taken with
    | none => takings siblings rest taken
    | some statement => (opening, statement) :: takings siblings rest (statement :: taken)

/-- The siblings in no paired region that are neither taken by an unpaired opening nor such an
opening that takes something. -/
def survivors (siblings : List NodeId) : List NodeId :=
  siblings.filter fun x ↦ (∀ pair ∈ pairs role [] siblings, x ∉ stretch siblings pair) ∧
    ∀ taking ∈ takings role siblings (lone role siblings) [], x ≠ taking.1 ∧ x ≠ taking.2

/-- Whether no opening directive stands between another one and the first closing directive after
it. -/
def isUnnested : List NodeId → Bool
  | [] => true
  | sibling :: rest =>
    (role sibling = .opening → (∃ x ∈ rest, role x = .closing) →
      ∀ x ∈ rest.takeWhile (role · ≠ .closing), role x ≠ .opening) && isUnnested rest

/-! ### Striking openings -/

/-- What the opening takes away, itself included, given the siblings after it: all up to the first
closing directive, or else the next statement. -/
def doomed (opening : NodeId) (after : List NodeId) : List NodeId :=
  match after.find? (role · = .closing) with
  | some closing => after.takeWhile (· ≠ closing) ++ [closing, opening]
  | none =>
    match after.find? (role · = .statement) with
    | some statement => [statement, opening]
    | none => []

def remainder (opening : NodeId) (after : List NodeId) : List NodeId :=
  after.filter (· ∉ doomed role opening after)

/-- The siblings after the opening has taken away what it takes. -/
def strike (siblings : List NodeId) (opening : NodeId) : List NodeId :=
  siblings.filter (· ∉ doomed role opening (siblings.dropWhile (· ≠ opening)).tail)

variable {role}

theorem mem_doomed (h : x ∈ doomed role opening after) : x = opening ∨ x ∈ after := by
  unfold doomed at h
  split at h
  · next closing hclosing =>
    have hmem := mem_of_find?_eq_some hclosing
    rcases mem_append.mp h with hbetween | hend
    · exact Or.inr (takeWhile_subset _ hbetween)
    · rcases mem_pair.mp hend with rfl | rfl
      · exact Or.inr hmem
      · exact Or.inl rfl
  · split at h
    · next statement hstatement =>
      rcases mem_pair.mp h with rfl | rfl
      · exact Or.inr (mem_of_find?_eq_some hstatement)
      · exact Or.inl rfl
    · cases h

theorem doomed_eq_nil (h : opening ∉ doomed role opening after) :
    doomed role opening after = [] := by
  unfold doomed at h ⊢
  split at h
  · exact absurd (by simp) h
  · split at h
    · exact absurd (by simp) h
    · rfl

theorem doomed_congr {other : NodeId → Role} (h : ∀ x ∈ after, role x = other x)
    (opening : NodeId) : doomed role opening after = doomed other opening after := by
  have hfind (wanted : Role) : after.find? (role · = wanted) = after.find? (other · = wanted) :=
    find?_congr fun x hx ↦ by rw [h x hx]
  rw [doomed, doomed, hfind, hfind]

theorem dropWhile_ne_append (h : x ∉ front) :
    (front ++ after).dropWhile (· ≠ x) = after.dropWhile (· ≠ x) :=
  dropWhile_append_of_pos fun y hy ↦ decide_eq_true fun heq : y = x ↦ h (heq ▸ hy)

theorem strike_of_notMem (h : opening ∉ siblings) : strike role siblings opening = siblings := by
  have hdrop : (siblings ++ []).dropWhile (· ≠ opening) = [] := dropWhile_ne_append h
  rw [append_nil] at hdrop
  rw [strike, hdrop]
  exact filter_eq_self.mpr fun x _ ↦ decide_eq_true (not_mem_nil : x ∉ [])

theorem strike_append (hnodup : (front ++ opening :: after).Nodup) :
    strike role (front ++ opening :: after) opening =
      if opening ∈ doomed role opening after then front ++ remainder role opening after
      else front ++ opening :: after := by
  obtain ⟨-, -, hdisjoint⟩ := nodup_append.mp hnodup
  have hdrop : (front ++ opening :: after).dropWhile (· ≠ opening) = opening :: after := by
    rw [dropWhile_ne_append fun hmem ↦ hdisjoint opening hmem opening (mem_cons_self ..) rfl,
      dropWhile_cons_of_neg (by simp)]
  rw [strike, hdrop, tail_cons]
  split
  · next hmem =>
    have hfront : front.filter (· ∉ doomed role opening after) = front := by
      refine filter_eq_self.mpr fun x hx ↦ decide_eq_true fun hdoomed ↦ ?_
      exact hdisjoint x hx x (mem_cons.mpr (mem_doomed hdoomed)) rfl
    rw [filter_append, hfront, filter_cons_of_neg (by simpa using hmem), remainder]
  · next hmem => simp [doomed_eq_nil hmem]

/-! ### Survivors -/

theorem mem_of_mem_pairs (h : pair ∈ pairs role pending siblings) :
    (pair.1 ∈ pending ∨ pair.1 ∈ siblings) ∧ pair.2 ∈ siblings := by
  fun_induction pairs role pending siblings with
  | case1 => cases h
  | case2 pending sibling rest _ ih =>
    obtain ⟨hfirst, hsecond⟩ := ih h
    simp only [mem_cons] at hfirst ⊢
    tauto
  | case3 sibling rest opening others _ ih =>
    rcases mem_cons.mp h with rfl | hpair
    · simp
    · obtain ⟨hfirst, hsecond⟩ := ih hpair
      simp only [mem_cons]
      tauto
  | case4 pending sibling rest _ _ ih =>
    obtain ⟨hfirst, hsecond⟩ := ih h
    simp only [mem_cons]
    tauto

theorem mem_of_mem_takings (h : taking ∈ takings role siblings openings taken) :
    taking.1 ∈ openings ∧ taking.2 ∈ siblings := by
  fun_induction takings role siblings openings taken with
  | case1 => cases h
  | case2 taken opening rest _ ih => exact ⟨mem_cons_of_mem _ (ih h).1, (ih h).2⟩
  | case3 taken opening rest statement hfind ih =>
    rcases mem_cons.mp h with rfl | htaking
    · exact ⟨mem_cons_self .., (dropWhile_sublist _).subset
        (mem_of_find?_eq_some hfind)⟩
    · exact ⟨mem_cons_of_mem _ (ih htaking).1, (ih htaking).2⟩

theorem ne_of_mem_takings (hopenings : ∀ y ∈ openings, y ∈ siblings) (hx : x ∉ siblings)
    (h : taking ∈ takings role siblings openings taken) : x ≠ taking.1 ∧ x ≠ taking.2 := by
  obtain ⟨hopening, hstatement⟩ := mem_of_mem_takings h
  exact ⟨fun heq ↦ hx (heq ▸ hopenings _ hopening), fun heq ↦ hx (heq ▸ hstatement)⟩

theorem mem_of_mem_stretch (hpair : pair.2 ∈ siblings) (h : x ∈ stretch siblings pair) :
    x ∈ siblings := by
  rcases mem_append.mp h with hx | hx
  · exact (dropWhile_sublist _).subset (takeWhile_subset _ hx)
  · exact mem_singleton.mp hx ▸ hpair

theorem stretch_append (h : pair.1 ∉ front) :
    stretch (front ++ after) pair = stretch after pair := by
  rw [stretch, dropWhile_ne_append h, stretch]

theorem takings_append (h : ∀ x ∈ openings, x ∉ front) (taken : List NodeId) :
    takings role (front ++ after) openings taken = takings role after openings taken := by
  induction openings generalizing taken with
  | nil => rfl
  | cons opening rest ih =>
    have hrest := ih fun x hx ↦ h x (mem_cons_of_mem _ hx)
    rw [takings, takings, dropWhile_ne_append (h opening (mem_cons_self ..))]
    split
    · exact hrest taken
    · rw [hrest]

/-- Where the pairs of a list are some that stay in its front and those of what comes after, so are
the survivors. -/
theorem survivors_append {gone : List (NodeId × NodeId)} (hnodup : (front ++ after).Nodup)
    (hpairs : pairs role [] (front ++ after) = gone ++ pairs role [] after)
    (hgone : ∀ pair ∈ gone, pair.1 ∈ front ∧ ∀ x ∈ stretch (front ++ after) pair, x ∈ front)
    (hopening : ∀ x ∈ front, role x = .opening → x ∈ gone.map Prod.fst) :
    survivors role (front ++ after) =
      front.filter (fun x ↦ ∀ pair ∈ gone, x ∉ stretch (front ++ after) pair) ++
        survivors role after := by
  have hdisjoint : ∀ x ∈ after, x ∉ front := fun x hafter hfront ↦
    (nodup_append.mp hnodup).2.2 x hfront x hafter rfl
  have hinside : ∀ pair ∈ pairs role [] after, pair.1 ∈ after ∧ pair.2 ∈ after := fun pair hpair ↦
    ⟨(mem_of_mem_pairs hpair).1.resolve_left not_mem_nil, (mem_of_mem_pairs hpair).2⟩
  have hlone : lone role (front ++ after) = lone role after := by
    have hfront : front.filter (fun x ↦ role x = .opening ∧
        x ∉ gone.map Prod.fst ++ (pairs role [] after).map Prod.fst) = [] :=
      filter_eq_nil_iff.mpr fun x hx h ↦
        have ⟨hrole, hnot⟩ := of_decide_eq_true h
        hnot (mem_append_left _ (hopening x hx hrole))
    rw [lone, hpairs, filter_append, map_append, hfront, nil_append]
    refine filter_congr fun x hx ↦ ?_
    have hnot : x ∉ gone.map Prod.fst := fun hmem ↦ by
      obtain ⟨pair, hpair, rfl⟩ := mem_map.mp hmem
      exact hdisjoint _ hx (hgone pair hpair).1
    simp only [mem_append, hnot, false_or]
  have hstretch : ∀ pair ∈ pairs role [] after,
      stretch (front ++ after) pair = stretch after pair := fun pair hpair ↦
    stretch_append (hdisjoint _ (hinside pair hpair).1)
  have htakings : takings role (front ++ after) (lone role after) [] =
      takings role after (lone role after) [] :=
    takings_append (fun x hx ↦ hdisjoint x (mem_of_mem_filter hx)) []
  rw [survivors, hpairs, hlone, htakings, filter_append, survivors]
  congr 1
  · refine filter_congr fun x hx ↦ decide_eq_decide.mpr ⟨fun h pair hpair ↦
      h.1 pair (mem_append_left _ hpair), fun h ↦
        ⟨fun pair hpair ↦ ?_, fun taking htaking ↦ ?_⟩⟩
    · rcases mem_append.mp hpair with hpair | hpair
      · exact h pair hpair
      · rw [hstretch pair hpair]
        exact fun hmem ↦ hdisjoint x (mem_of_mem_stretch (hinside pair hpair).2 hmem) hx
    · exact ne_of_mem_takings (fun y ↦ mem_of_mem_filter) (fun hafter ↦ hdisjoint x hafter hx)
        htaking
  · refine filter_congr fun x hx ↦ decide_eq_decide.mpr (and_congr_left' ?_)
    refine ⟨fun h pair hpair ↦ hstretch pair hpair ▸ h pair (mem_append_right _ hpair),
      fun h pair hpair ↦ ?_⟩
    rcases mem_append.mp hpair with hpair | hpair
    · exact fun hmem ↦ hdisjoint x hx ((hgone pair hpair).2 x hmem)
    · exact hstretch pair hpair ▸ h pair hpair

theorem pairs_cons_opening (h : role x = .opening) (pending : List NodeId) :
    pairs role pending (x :: after) = pairs role (x :: pending) after := by
  simp only [pairs, h]

theorem pairs_cons_of_ne (hopening : role x ≠ .opening) (h : role x ≠ .closing ∨ pending = []) :
    pairs role pending (x :: after) = pairs role pending after := by
  cases hrole : role x with
  | opening => exact absurd hrole hopening
  | closing =>
    rw [h.resolve_left (absurd hrole)]
    simp only [pairs, hrole]
  | statement | other => simp only [pairs, hrole]

theorem pairs_of_plain (h : ∀ x ∈ between, role x ≠ .opening ∧ role x ≠ .closing) :
    pairs role pending (between ++ after) = pairs role pending after := by
  induction between with
  | nil => rfl
  | cons sibling rest ih =>
    obtain ⟨hopening, hclosing⟩ := h sibling (mem_cons_self ..)
    rw [cons_append, pairs_cons_of_ne hopening (Or.inl hclosing)]
    exact ih fun x hx ↦ h x (mem_cons_of_mem _ hx)

theorem pairs_of_noClosing (h : ∀ x ∈ siblings, role x ≠ .closing) (pending : List NodeId) :
    pairs role pending siblings = [] := by
  induction siblings generalizing pending with
  | nil => rfl
  | cons sibling rest ih =>
    have hrest := ih fun x hx ↦ h x (mem_cons_of_mem _ hx)
    by_cases hopening : role sibling = .opening
    · rw [pairs_cons_opening hopening, hrest]
    · rw [pairs_cons_of_ne hopening (Or.inl (h sibling (mem_cons_self ..))), hrest]

theorem survivors_cons (hnodup : (x :: after).Nodup) (hrole : role x ≠ .opening) :
    survivors role (x :: after) = x :: survivors role after := by
  have hpairs : pairs role [] ([x] ++ after) = [] ++ pairs role [] after :=
    pairs_cons_of_ne hrole (Or.inr rfl)
  have hsplit := survivors_append hnodup hpairs (fun _ h ↦ absurd h not_mem_nil)
    fun y hy hopening ↦ absurd hopening (mem_singleton.mp hy ▸ hrole)
  simpa using hsplit

theorem takeWhile_ne_append (h : x ∉ between) :
    (between ++ x :: after).takeWhile (· ≠ x) = between := by
  have hne : ∀ y ∈ between, decide (y ≠ x) := fun y hy ↦
    decide_eq_true fun heq ↦ h (heq ▸ hy)
  rw [takeWhile_append_of_pos hne, takeWhile_cons_of_neg (by simp), append_nil]

theorem survivors_region (hnodup : (opening :: (between ++ closing :: after)).Nodup)
    (hopening : role opening = .opening) (hclosing : role closing = .closing)
    (hbetween : ∀ x ∈ between, role x ≠ .opening ∧ role x ≠ .closing) :
    survivors role (opening :: (between ++ closing :: after)) = survivors role after := by
  have hassoc : opening :: (between ++ closing :: after) =
      (opening :: (between ++ [closing])) ++ after := by simp
  have hpairs : pairs role [] ((opening :: (between ++ [closing])) ++ after) =
      [(opening, closing)] ++ pairs role [] after := by
    rw [← hassoc, pairs_cons_opening hopening, pairs_of_plain hbetween]
    simp only [pairs, hclosing, singleton_append]
  have hstretch : stretch ((opening :: (between ++ [closing])) ++ after) (opening, closing) =
      opening :: (between ++ [closing]) := by
    have hnotMem : closing ∉ opening :: between := by
      rw [← cons_append] at hnodup
      exact fun hmem ↦ (nodup_append.mp hnodup).2.2 _ hmem _ (mem_cons_self ..) rfl
    rw [← hassoc, stretch, dropWhile_cons_of_neg (by simp), ← cons_append,
      takeWhile_ne_append hnotMem, cons_append]
  rw [hassoc] at hnodup ⊢
  rw [survivors_append hnodup hpairs, filter_eq_nil_iff.mpr, nil_append]
  · intro x hx h
    rw [← hstretch] at hx
    exact of_decide_eq_true h _ (mem_singleton_self _) hx
  · intro pair hpair
    rw [mem_singleton.mp hpair, hstretch]
    exact ⟨mem_cons_self .., fun _ h ↦ h⟩
  · intro x hx hrole
    rcases mem_cons.mp hx with rfl | hx
    · exact mem_singleton_self _
    · rcases mem_append.mp hx with hx | hx
      · exact absurd hrole (hbetween x hx).1
      · rw [mem_singleton.mp hx, hclosing] at hrole
        cases hrole

/-! ### Striking leaves the survivors -/

theorem doomed_filter_of_noClosing (hclosing : ∀ x ∈ after, role x ≠ .closing)
    (opening : NodeId) (taken : List NodeId) :
    doomed role opening (after.filter (· ∉ taken)) =
      match after.find? fun x ↦ role x = .statement ∧ x ∉ taken with
      | some statement => [statement, opening]
      | none => [] := by
  have hnone : (after.filter (· ∉ taken)).find? (role · = .closing) = none :=
    find?_eq_none.mpr fun x hx ↦ by simpa using hclosing x (mem_of_mem_filter hx)
  have hfind : (after.filter (· ∉ taken)).find? (role · = .statement) =
      after.find? fun x ↦ role x = .statement ∧ x ∉ taken := by
    rw [find?_filter]
    exact find?_congr fun x _ ↦ by simp [and_comm]
  rw [doomed, hnone]
  dsimp only
  rw [hfind]

theorem remainder_filter {statement : NodeId} (hnotMem : opening ∉ after)
    (h : doomed role opening (after.filter (· ∉ taken)) = [statement, opening]) :
    remainder role opening (after.filter (· ∉ taken)) = after.filter (· ∉ statement :: taken) := by
  rw [remainder, h, filter_filter]
  refine filter_congr fun x hx ↦ ?_
  have hne : x ≠ opening := fun heq ↦ hnotMem (heq ▸ hx)
  simp [hne]

theorem takings_cons (hnotMem : x ∉ after) (taken : List NodeId) :
    takings role (x :: after) ((x :: after).filter (role · = .opening)) taken =
      match if role x = .opening then after.find? fun y ↦ role y = .statement ∧ y ∉ taken
        else none with
      | some statement =>
        (x, statement) :: takings role after (after.filter (role · = .opening)) (statement :: taken)
      | none => takings role after (after.filter (role · = .opening)) taken := by
  have hrest (taken : List NodeId) :
      takings role (x :: after) (after.filter (role · = .opening)) taken =
        takings role after (after.filter (role · = .opening)) taken := by
    refine takings_append (fun y hy hmem ↦ hnotMem ?_ : ∀ y ∈ _, y ∉ [x]) taken
    exact mem_singleton.mp hmem ▸ mem_of_mem_filter hy
  by_cases hrole : role x = .opening
  · rw [filter_cons_of_pos (by simpa using hrole), if_pos hrole, takings,
      dropWhile_cons_of_neg (by simp), find?_cons_of_neg (by simp [hrole])]
    cases after.find? fun y ↦ role y = .statement ∧ y ∉ taken with
    | none => exact hrest taken
    | some statement => exact congrArg _ (hrest _)
  · rw [filter_cons_of_neg (by simpa using hrole), if_neg hrole]
    exact hrest taken

/-- Without closing pragmas, striking takes away exactly the takings. -/
theorem foldl_strike_of_noClosing (hnodup : (front ++ siblings).Nodup)
    (hclosing : ∀ x ∈ siblings, role x ≠ .closing) (htaken : ∀ x ∈ taken, role x = .statement) :
    (siblings.filter (role · = .opening)).foldl (strike role)
        (front ++ siblings.filter (· ∉ taken)) =
      front ++ siblings.filter fun x ↦ x ∉ taken ∧
        ∀ taking ∈ takings role siblings (siblings.filter (role · = .opening)) taken,
          x ≠ taking.1 ∧ x ≠ taking.2 := by
  induction siblings generalizing front taken with
  | nil => simp
  | cons sibling rest ih =>
    obtain ⟨hfresh, hdropped⟩ := nodup_cons.mp (nodup_middle.mp hnodup)
    have hnotMem : sibling ∉ rest := fun hmem ↦ hfresh (mem_append_right _ hmem)
    replace hclosing : ∀ x ∈ rest, role x ≠ .closing := fun x hx ↦
      hclosing x (mem_cons_of_mem _ hx)
    have hapart : ∀ taking ∈ takings role rest (rest.filter (role · = .opening)) taken,
        sibling ≠ taking.1 ∧ sibling ≠ taking.2 := fun taking ↦
      ne_of_mem_takings (fun y ↦ mem_of_mem_filter) hnotMem
    -- A sibling that stays belongs to the front from then on.
    have hshifted : ((front ++ [sibling]) ++ rest).Nodup := by simpa using hnodup
    have hstay := ih hshifted hclosing htaken
    rw [append_assoc, append_assoc, singleton_append, singleton_append] at hstay
    rw [takings_cons hnotMem]
    by_cases hrole : role sibling = .opening
    · have hfree : sibling ∉ taken := fun hmem ↦ by
        rw [htaken sibling hmem] at hrole
        cases hrole
      have hlist : (front ++ sibling :: rest.filter (· ∉ taken)).Nodup :=
        hnodup.sublist ((filter_sublist.cons_cons _).append_left _)
      have hdoomed := doomed_filter_of_noClosing hclosing sibling taken
      rw [filter_cons_of_pos (by simpa using hfree), filter_cons_of_pos (by simpa using hrole),
        foldl_cons, strike_append hlist, if_pos hrole]
      cases hfind : rest.find? fun x ↦ role x = .statement ∧ x ∉ taken with
      | none =>
        rw [hfind] at hdoomed
        dsimp only at hdoomed ⊢
        rw [hdoomed, if_neg not_mem_nil, hstay,
          filter_cons_of_pos (by exact decide_eq_true ⟨hfree, hapart⟩)]
      | some statement =>
        rw [hfind] at hdoomed
        dsimp only at hdoomed ⊢
        have hstatement : role statement = .statement ∧ statement ∉ taken := by
          simpa using find?_some hfind
        rw [remainder_filter hnotMem hdoomed, hdoomed, if_pos (by simp),
          ih hdropped hclosing (forall_mem_cons.mpr ⟨hstatement.1, htaken⟩),
          filter_cons_of_neg (by simp)]
        refine congrArg _ (filter_congr fun x hx ↦ decide_eq_decide.mpr ?_)
        have hne : x ≠ sibling := fun heq ↦ hnotMem (heq ▸ hx)
        rw [forall_mem_cons, mem_cons, not_or]
        tauto
    · rw [if_neg hrole]
      dsimp only
      by_cases hmem : sibling ∈ taken
      · rw [filter_cons_of_neg (by simpa using hmem), filter_cons_of_neg (by simpa using hrole),
          ih hdropped hclosing htaken, filter_cons_of_neg (by simp [hmem])]
      · rw [filter_cons_of_pos (by simpa using hmem), filter_cons_of_neg (by simpa using hrole),
          hstay, filter_cons_of_pos (by exact decide_eq_true ⟨hmem, hapart⟩)]

theorem survivors_of_noClosing (hnodup : (front ++ siblings).Nodup)
    (h : ∀ x ∈ siblings, role x ≠ .closing) :
    (siblings.filter (role · = .opening)).foldl (strike role) (front ++ siblings) =
      front ++ survivors role siblings := by
  have hstruck := foldl_strike_of_noClosing hnodup h fun x (hx : x ∈ []) ↦ absurd hx not_mem_nil
  have hlone : lone role siblings = siblings.filter (role · = .opening) := by
    simp [lone, pairs_of_noClosing h]
  rw [survivors, hlone, pairs_of_noClosing h]
  simpa using hstruck

theorem remainder_region (hnodup : (opening :: (between ++ closing :: after)).Nodup)
    (hclosing : role closing = .closing) (hbetween : ∀ x ∈ between, role x ≠ .closing) :
    opening ∈ doomed role opening (between ++ closing :: after) ∧
      remainder role opening (between ++ closing :: after) = after := by
  obtain ⟨hopening, hnodup⟩ := nodup_cons.mp hnodup
  have hnotMem : closing ∉ between := fun hmem ↦ hbetween closing hmem hclosing
  have hfind : (between ++ closing :: after).find? (role · = .closing) = some closing := by
    rw [find?_append, find?_eq_none.mpr fun x hx ↦ by simpa using hbetween x hx,
      Option.none_or, find?_cons_of_pos (by simpa using hclosing)]
  have hdoomed : doomed role opening (between ++ closing :: after) =
      between ++ [closing, opening] := by
    rw [doomed, hfind]
    dsimp only
    rw [takeWhile_ne_append hnotMem]
  refine ⟨hdoomed ▸ by simp, ?_⟩
  have hafter : ∀ x ∈ after, x ∉ between ++ [closing, opening] := by
    obtain ⟨-, hright, hdisjoint⟩ := nodup_append.mp hnodup
    intro x hx hmem
    rcases mem_append.mp hmem with hbefore | hend
    · exact hdisjoint x hbefore x (mem_cons_of_mem _ hx) rfl
    · rcases mem_pair.mp hend with rfl | rfl
      · exact (nodup_cons.mp hright).1 hx
      · exact hopening (mem_append_right _ (mem_cons_of_mem _ hx))
  have hgone : ∀ x ∈ between, ¬ decide (x ∉ between ++ [closing, opening]) := by
    intro x hx
    simp [hx]
  rw [remainder, hdoomed, filter_append, filter_eq_nil_iff.mpr hgone,
    nil_append, filter_cons_of_neg (by simp)]
  exact filter_eq_self.mpr fun x hx ↦ decide_eq_true (hafter x hx)

theorem isUnnested_of_append (h : isUnnested role (front ++ after)) :
    isUnnested role after := by
  induction front with
  | nil => exact h
  | cons sibling rest ih => exact ih (Bool.and_eq_true_iff.mp h).2

theorem ne_opening_of_isUnnested
    (h : isUnnested role (opening :: (between ++ closing :: after)))
    (hopening : role opening = .opening) (hclosing : role closing = .closing)
    (hbetween : ∀ x ∈ between, role x ≠ .closing) : ∀ x ∈ between, role x ≠ .opening := by
  have hne : ∀ x ∈ between, decide (role x ≠ .closing) := fun x hx ↦
    decide_eq_true (hbetween x hx)
  have hfirst := of_decide_eq_true (Bool.and_eq_true_iff.mp h).1 hopening
    ⟨closing, mem_append_right _ (mem_cons_self ..), hclosing⟩
  rwa [takeWhile_append_of_pos hne, takeWhile_cons_of_neg (by simpa using hclosing),
    append_nil] at hfirst

/-- What has been passed stands in front. -/
theorem foldl_strike_append (hnodup : (front ++ siblings).Nodup) (h : isUnnested role siblings) :
    (siblings.filter (role · = .opening)).foldl (strike role) (front ++ siblings) =
      front ++ survivors role siblings := by
  induction hlength : siblings.length using Nat.strongRecOn generalizing front siblings with
  | ind length ih =>
    cases siblings with
    | nil => simp [survivors]
    | cons sibling rest =>
      have hlist := (nodup_append.mp hnodup).2.1
      by_cases hrole : role sibling = .opening
      · cases hfind : rest.find? (role · = .closing) with
        | none => exact survivors_of_noClosing hnodup (by simpa [hrole] using hfind)
        | some closing =>
          obtain ⟨hclosing, between, after, rfl, hfirst⟩ := find?_eq_some_iff_append.mp hfind
          replace hclosing : role closing = .closing := of_decide_eq_true hclosing
          replace hfirst : ∀ x ∈ between, role x ≠ .closing := fun x hx ↦ by
            simpa using hfirst x hx
          have hplain := ne_opening_of_isUnnested h hrole hclosing hfirst
          obtain ⟨hmem, hremainder⟩ := remainder_region hlist hclosing hfirst
          have hopenings : (between ++ closing :: after).filter (role · = .opening) =
              after.filter (role · = .opening) := by
            rw [filter_append, filter_eq_nil_iff.mpr (by simpa using hplain), nil_append,
              filter_cons_of_neg (by simp [hclosing])]
          have hassoc : (sibling :: (between ++ [closing])) ++ after =
              sibling :: (between ++ closing :: after) := by simp
          rw [filter_cons_of_pos (by simpa using hrole), hopenings, foldl_cons,
            strike_append hnodup, if_pos hmem, hremainder,
            survivors_region hlist hrole hclosing fun x hx ↦ ⟨hplain x hx, hfirst x hx⟩]
          rw [← hassoc] at h hnodup
          refine ih after.length ?_ (hnodup.sublist ((sublist_append_right ..).append_left _))
            (isUnnested_of_append h) rfl
          simp [← hlength]
          omega
      · have hshifted : ((front ++ [sibling]) ++ rest).Nodup := by simpa using hnodup
        have hrest := ih rest.length (by simp [← hlength]) hshifted
          (Bool.and_eq_true_iff.mp h).2 rfl
        rw [filter_cons_of_neg (by simpa using hrole), survivors_cons hlist hrole]
        simpa using hrest

/-- Assumes: regions that are not nested. Striking them one by one leaves what is outside all. -/
theorem foldl_strike_eq_survivors (hnodup : siblings.Nodup) (h : isUnnested role siblings) :
    (siblings.filter (role · = .opening)).foldl (strike role) siblings =
      survivors role siblings := by
  have hnodup : ([] ++ siblings).Nodup := hnodup
  exact foldl_strike_append hnodup h

end LoopDirectives.Removal
