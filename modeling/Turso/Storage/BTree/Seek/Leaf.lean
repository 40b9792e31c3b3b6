import Turso.Storage.BTree.Seek.Position

/-!
# The search on a leaf

The bisection of a leaf, for both kinds of trees.  Its steps go to the left of a cell exactly
if the search does so on interior pages (`step_toState`), so it ends at the place the operator
points at, with the nearest match if the cell there is one (`LeafSearching.finish`).
`Descended.lands` puts the leaf and the path to it together.
-/

namespace Turso.BTree

open Bisection SeekOp

variable {Payload : Type}
variable {actual : Ordering} {cursor : SeekCursor}

/-- The cells ascend in comparison with the key. -/
def CellsAscending (cmp : ℕ → Ordering) (count : ℕ) : Prop :=
  ∀ low high, low ≤ high → high < count →
    (cmp low = .gt → cmp high = .gt) ∧ (cmp high = .lt → cmp low = .lt)

theorem Ascending.cells {cmp : Payload → Ordering} {p : Page Payload}
    (h : Ascending cmp (p.cells.map PageCell.payload)) :
    CellsAscending (cmpAt cmp p) p.cellCount := by
  intro low high hle hlt
  rcases hle.eq_or_lt with rfl | hlow
  · exact ⟨id, id⟩
  · have hpair := List.pairwise_iff_getElem.1 h low high
      (by simpa [Page.cellCount] using hlow.trans hlt) (by simpa [Page.cellCount] using hlt) hlow
    rw [cmpAt_of_lt hlt, cmpAt_of_lt (hlow.trans hlt)]
    simpa using hpair

theorem CellsAscending.monotone {cmp : ℕ → Ordering} {count : ℕ} (h : CellsAscending cmp count)
    (op : SeekOp) : Monotone (fun index => op.inLeftSubtree (cmp index)) count := by
  intro low high hle hlt hleft
  obtain ⟨hgt, hless⟩ := h low high hle hlt
  rcases op with _ | _ | _ | _ <;>
    (cases hlow : cmp low <;> cases hhigh : cmp high <;> simp_all [inLeftSubtree])

/-! ## One step -/

/-- A step goes on to the left where an interior page would. -/
theorem LeafPageBinarySearchState.step_toState {op : SeekOp} {exactForward : Bool}
    (hexact : exactForward = true → op = .ge true) (cmp : Ordering)
    (s : LeafPageBinarySearchState) :
    (s.step op exactForward cmp).toState = s.narrow (op.inLeftSubtree cmp) (op.found cmp) := by
  cases exactForward with
  | true =>
    rw [hexact rfl]
    cases cmp <;> rfl
  | false => rcases op with (_ | _) | _ | (_ | _) | _ <;> cases cmp <;> rfl

theorem LeafPageBinarySearchState.step_eqSeen (op : SeekOp) (exactForward : Bool) (cmp : Ordering)
    (s : LeafPageBinarySearchState) : (s.step op exactForward cmp).eqSeen = s.eqSeen := by
  unfold step
  split_ifs
  all_goals first | rfl | cases op.iterationDirection <;> rfl

/-- The target moves when the search for an equal cell passes another one. -/
theorem LeafPageBinarySearchState.step_target (op : SeekOp) (cmp : Ordering)
    (s : LeafPageBinarySearchState) :
    (s.step op false cmp).targetCellWhenNotFound =
      if op = .ge true ∧ cmp = .gt then min s.targetCellWhenNotFound s.middle
      else if op = .le true ∧ cmp = .lt then max s.targetCellWhenNotFound s.middle
      else s.targetCellWhenNotFound := by
  rcases op with (_ | _) | _ | (_ | _) | _ <;> cases cmp <;> rfl

/-- The invariant of the search.  `cmp` says how the cells compare with the key. -/
structure LeafSearching (op : SeekOp) (exactForward : Bool) (cmp : ℕ → Ordering) (count : ℕ)
    (state : LeafPageBinarySearchState) : Prop where
  searching : Searching (fun index => op.inLeftSubtree (cmp index)) count state.toState
  above : op.iterationDirection = .forwards →
    NearestAbove (fun index => op.denotes (cmp index)) count state.toState
  below : op.iterationDirection = .backwards →
    NearestBelow (fun index => op.denotes (cmp index)) state.toState
  target_above : exactForward = false → op.iterationDirection = .forwards → state.nearest = none →
    state.targetCellWhenNotFound = if op = .ge true then state.max + 1 else (count : ℤ)
  target_below : exactForward = false → op.iterationDirection = .backwards → state.nearest = none →
    state.targetCellWhenNotFound = if op = .le true then state.min - 1 else -1

section
variable {op : SeekOp} {exactForward : Bool} {cmp : ℕ → Ordering} {count : ℕ}
  {s : LeafPageBinarySearchState}

theorem LeafSearching.start (op : SeekOp) (exactForward : Bool) (cmp : ℕ → Ordering) (n : ℕ)
    (eqSeen : Bool) :
    LeafSearching op exactForward cmp n (leafPageBinarySearchStart op n eqSeen) where
  searching := .start _ _ _
  above := fun _ => .start _ _
  below := fun _ => .start _ _
  target_above := by
    intro _ hop _
    simp only [leafPageBinarySearchStart, hop]
    split_ifs <;> omega
  target_below := by
    intro _ hop _
    simp only [leafPageBinarySearchStart, hop]
    split_ifs <;> omega

/-- How the source compares a cell: a table without ties, an index with the tie-breaker. -/
def Compared (op : SeekOp) (actual cmp : Ordering) : Prop :=
  actual = cmp ∨ actual = cmp.then op.tieBreaker

theorem Compared.inLeftSubtree {cmp : Ordering} (h : Compared op actual cmp) :
    op.inLeftSubtree actual = op.inLeftSubtree cmp := by
  rcases h with rfl | rfl
  · rfl
  · exact op.inLeftSubtree_tieBreaker cmp

theorem Compared.found {cmp : Ordering} (h : Compared op actual cmp) :
    op.found actual = op.denotes cmp := by
  rcases h with rfl | rfl
  · rcases op with (_ | _) | _ | (_ | _) | _ <;> cases actual <;> rfl
  · rcases op with (_ | _) | _ | (_ | _) | _ <;> cases cmp <;> rfl

/-- A search for an equal cell breaks no ties. -/
theorem Compared.eq_of_eqOnly {cmp : Ordering} (h : Compared op actual cmp)
    (hop : op = .ge true ∨ op = .le true) : actual = cmp := by
  rcases h with rfl | rfl
  · rfl
  · rcases hop with rfl | rfl <;> cases cmp <;> rfl

/-- If a cell on the way does not match, no later one does. -/
theorem SeekOp.no_match {first second : ℕ} (hway : op.onWay (cmp first) = true)
    (hmiss : op.denotes (cmp first) = false)
    (hpair : match op.iterationDirection with
      | .forwards => cmp first = .gt → cmp second = .gt
      | .backwards => cmp first = .lt → cmp second = .lt) : op.denotes (cmp second) = false := by
  rcases op.denotes_cases with ⟨-, hsame⟩ | ⟨-, heq⟩
  · simp [hsame, hway] at hmiss
  · rw [heq, decide_eq_false_iff_not] at hmiss ⊢
    exact fun hsecond => hmiss (eq_of_onWay hway hsecond hpair)

theorem LeafSearching.step (h : LeafSearching op exactForward cmp count s)
    (hexact : exactForward = true → op = .ge true) (hasc : CellsAscending cmp count)
    (hopen : s.min ≤ s.max) (hactual : Compared op actual (cmp s.index)) :
    LeafSearching op exactForward cmp count (s.step op exactForward actual) := by
  have hs : (s.step op exactForward actual).toState =
      s.narrow (op.inLeftSubtree (cmp s.index)) (op.denotes (cmp s.index)) := by
    rw [LeafPageBinarySearchState.step_toState hexact, hactual.inLeftSubtree, hactual.found]
  obtain ⟨hlow, hhigh⟩ := s.middle_bounds hopen
  -- while there is no match, the middle cell is none either
  have hmissed : (s.step op exactForward actual).nearest = none →
      op.denotes (cmp s.index) = false ∧ s.nearest = none := by
    rw [hs, State.narrow]
    cases op.denotes (cmp s.index) <;> simp
  refine ⟨?_, fun hop => ?_, fun hop => ?_, ?_, ?_⟩
  · rw [hs]
    exact h.searching.narrow (hasc.monotone op) hopen _
  · rw [hs]
    exact (h.above hop).narrow h.searching hopen
      (fun _ _ hmatch => by simpa [onWay, hop] using onWay_of_denotes hmatch)
      (fun low high hle hlt hleft hmiss => no_match (by rwa [onWay, hop]) hmiss
        (by rw [hop]; exact (hasc low high hle hlt).1))
  · rw [hs]
    exact (h.below hop).narrow h.searching hopen
      (fun _ _ hmatch => by simpa [onWay, hop] using onWay_of_denotes hmatch)
      (fun low high hle hlt hright hmiss => no_match (by simpa [onWay, hop] using hright) hmiss
        (by rw [hop]; exact (hasc low high hle hlt).2))
  · rintro rfl hop hno
    obtain ⟨hmiss, hnearest⟩ := hmissed hno
    have htarget := h.target_above rfl hop hnearest
    rw [s.step_target, hs]
    by_cases hge : op = .ge true
    · subst hge
      rw [hactual.eq_of_eqOnly (.inl rfl)]
      rw [if_pos rfl] at htarget ⊢
      cases hcmp : cmp s.index with
      | lt => simpa [State.narrow, inLeftSubtree] using htarget
      | eq => simp [hcmp, denotes] at hmiss
      | gt =>
        simp only [State.narrow, inLeftSubtree, Ordering.isGE, and_self, if_true]
        omega
    · have hle : op ≠ .le true := by
        rintro rfl
        cases hop
      simpa [hge, hle] using htarget
  · rintro rfl hop hno
    obtain ⟨hmiss, hnearest⟩ := hmissed hno
    have htarget := h.target_below rfl hop hnearest
    rw [s.step_target, hs]
    by_cases hle : op = .le true
    · subst hle
      rw [hactual.eq_of_eqOnly (.inr rfl)]
      rw [if_pos rfl] at htarget ⊢
      cases hcmp : cmp s.index with
      | lt =>
        simp only [State.narrow, inLeftSubtree, Ordering.isGT, and_self,
          if_true, reduceCtorEq, if_false, Bool.false_eq_true]
        omega
      | eq => simp [hcmp, denotes] at hmiss
      | gt => simpa [State.narrow, inLeftSubtree] using htarget
    · have hge : op ≠ .ge true := by
        rintro rfl
        cases hop
      simpa [hge, hle] using htarget

/-! ## The end of the search -/

/-- The match next to the place `split`. -/
def nearestAt (op : SeekOp) (cmp : ℕ → Ordering) (count split : ℕ) : Option ℕ :=
  match op.iterationDirection with
  | .forwards => if split < count ∧ op.denotes (cmp split) = true then some split else none
  | .backwards =>
    if 0 < split ∧ op.denotes (cmp (split - 1)) = true then some (split - 1) else none

/-- Where the cursor is left if there is no match. -/
def targetAt (op : SeekOp) (count split : ℕ) : ℤ :=
  match op with
  | .ge true => split
  | .ge false | .gt => count
  | .le true => split - 1
  | .le false | .lt => -1

theorem nearestAt_eq (op : SeekOp) (cmp : ℕ → Ordering) (count split : ℕ) :
    nearestAt op cmp count split =
      (op.nextCell count split).filter fun i => op.denotes (cmp i) := by
  rw [nearestAt, nextCell]
  cases op.iterationDirection <;> grind

theorem targetAt_of_none {split : ℕ} (hsplit : split ≤ count)
    (hnext : op.nextCell count split = none) :
    targetAt op count split = match op.iterationDirection with
      | .forwards => (count : ℤ)
      | .backwards => -1 := by
  rcases op with (_ | _) | _ | (_ | _) | _ <;>
    simp only [nextCell, iterationDirection, targetAt] at hnext ⊢ <;> grind

/-- The search ends at the place the operator points at. -/
theorem LeafSearching.finish (h : LeafSearching op exactForward cmp count s)
    (hclosed : s.max < s.min) :
    ∃ split, SplitsAt (fun i => op.inLeftSubtree (cmp i)) count split ∧
      s.min = split ∧ s.nearest = nearestAt op cmp count split ∧
      (exactForward = false → s.nearest = none →
        s.targetCellWhenNotFound = targetAt op count split) := by
  obtain ⟨split, hsplit, hmin, hmax⟩ := h.searching.split hclosed
  refine ⟨split, hsplit, hmin, ?_, fun hexact hno => ?_⟩
  · rw [nearestAt]
    cases hop : op.iterationDirection with
    | forwards =>
      have habove := h.above hop
      rw [NearestAbove, hmax] at habove
      simpa using habove
    | backwards =>
      have hbelow := h.below hop
      have hcell : ((split : ℤ) - 1).toNat = split - 1 := by omega
      rw [NearestBelow, hmin, hcell] at hbelow
      simpa using hbelow
  · have habove := fun hop => h.target_above hexact hop hno
    have hbelow := fun hop => h.target_below hexact hop hno
    rcases op with (_ | _) | _ | (_ | _) | _
    · simpa [targetAt] using habove rfl
    · simpa [targetAt, hmax] using habove rfl
    · simpa [targetAt] using habove rfl
    · simpa [targetAt] using hbelow rfl
    · simpa [targetAt, hmin] using hbelow rfl
    · simpa [targetAt] using hbelow rfl

end

/-! ## The leaf at the end of a path -/

section
variable {op : SeekOp} {tree : Tree Payload} {cmp : Payload → Ordering} {eqSeen : Bool}
  {id : ℕ} {trail : List (ℕ × ℕ)} {split : ℕ}

/-- The cursor after a search that ended at the place `split` of the leaf `id`. -/
structure LeafEnd (op : SeekOp) (tree : Tree Payload) (cmp : ℕ → Ordering) (eqSeen : Bool) (id : ℕ)
    (trail : List (ℕ × ℕ)) (split : ℕ) (cursor : SeekCursor) : Prop where
  stack_tail : ∃ cellCount, cursor.stack = ⟨id,
    (nearestAt op cmp (tree.store id).cellCount split).elim
      (targetAt op (tree.store id).cellCount split) (fun nearest => nearest), cellCount⟩ ::
    trail.map (op.mark tree)
  goingUpwards_eq : cursor.goingUpwards = false
  pendingDescent_eq : cursor.pendingDescent = none
  advanceState_eq : cursor.advanceState = .start
  hasRecord_eq : (nearestAt op cmp (tree.store id).cellCount split).isSome = true →
    cursor.hasRecord = true
  seekResult_eq : cursor.seekResult = some
    (if (nearestAt op cmp (tree.store id).cellCount split).isSome then .found
      else if op.eqOnly = true ∧ eqSeen = false then .notFound else .tryAdvance)

theorem LeafEnd.iteration_eq {cmp : ℕ → Ordering}
    (h : LeafEnd op tree cmp eqSeen id trail split cursor) :
    ∃ cellCount, cursor.toIteration = ⟨⟨id, (nearestAt op cmp (tree.store id).cellCount split).elim
        (targetAt op (tree.store id).cellCount split) (fun nearest => nearest), cellCount⟩ ::
      trail.map (op.mark tree), false, none, cursor.hasRecord⟩ := by
  obtain ⟨cellCount, hstack⟩ := h.stack_tail
  refine ⟨cellCount, ?_⟩
  rw [← hstack, ← h.goingUpwards_eq, ← h.pendingDescent_eq]

/-- A search that descended to a leaf and ended at the place in it lands. -/
theorem Descended.lands (h : Descended op tree cmp eqSeen 0 id trail)
    (hasc : Ascending cmp tree.records) (hsplit : LeafSplit op cmp (tree.store id) split)
    (he : LeafEnd op tree (cmpAt cmp (tree.store id)) eqSeen id trail split cursor) :
    Lands op tree cursor (denoted op cmp tree.records) := by
  obtain ⟨cellCount, hiteration⟩ := he.iteration_eq
  have hres := he.seekResult_eq
  have hr := he.hasRecord_eq
  cases hnearest : nearestAt op (cmpAt cmp (tree.store id)) (tree.store id).cellCount split with
  | some i =>
    rw [hnearest] at hiteration hres hr
    rw [nearestAt_eq, Option.filter_eq_some_iff] at hnearest
    rw [hr rfl] at hiteration
    rw [Lands, hres, hiteration]
    exact h.found hsplit hnearest.1 hnearest.2
  | none =>
    rw [hnearest] at hiteration hres
    rw [nearestAt_eq, Option.filter_eq_none_iff] at hnearest
    have hmiss : ∀ i, op.nextCell (tree.store id).cellCount split = some i →
        op.denotes (cmpAt cmp (tree.store id) i) = false := by
      simpa using hnearest
    rw [Lands, hres]
    by_cases hseen : op.eqOnly = true ∧ eqSeen = false
    · rw [if_pos hseen]
      exact h.notFound hsplit hasc hmiss hseen.1 hseen.2
    · have hseen' : op.eqOnly = true → eqSeen = true := by simpa using hseen
      have hnext := h.nextCell_eq_none hsplit hasc hmiss hseen'
      rw [if_neg hseen, h.denoted_of_none hsplit hasc hnext hseen']
      rw [Option.elim_none, targetAt_of_none hsplit.le hnext] at hiteration
      exact h.advance_of_none hiteration he.advanceState_eq

end

end Turso.BTree
