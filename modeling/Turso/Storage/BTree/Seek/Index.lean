import Turso.Storage.BTree.Seek.Descent

/-!
# Seeking in an index

The cells of an index compare with the key like its records do, up to the tie-breaker of the
operator, and the records ascend.  So the first cell of an interior page to the left of which
the search goes on cuts the records of the page, and the search notes an equal cell exactly if
one is next to the cut (`InteriorSearching.finish`).  By induction over the height the search
reaches a leaf and lands (`indexbtreeSeek_lands`).
-/

namespace Turso.BTree

open SeekOp SeekCursor List Resumable Bisection

variable {Payload : Type}
variable {r : Payload}

/-! ## Reading cells -/

/-- A turn that reads a cell before it goes on, and that waits in a state which does so again. -/
theorem completes_readCellPayload {State : Type}
    {turn : List ReadAnswer → State → Turn State ReadAnswer} {start waiting next final : State}
    {overflows : Bool}
    (hstart : ∀ answers, turn answers start =
      readCellPayload overflows answers waiting fun rest => .again next rest)
    (hwaiting : ∀ answers, turn answers waiting =
      readCellPayload overflows answers waiting fun rest => .again next rest)
    (hnx : Completes turn next final) : Completes turn start final := by
  refine @Completes.wait _ _ turn _ _ _ (fun s => s = start ∨ s = waiting) ?_ (.inl rfl) hnx
  intro s hs answers
  have hturn : turn answers s =
      readCellPayload overflows answers waiting fun rest => .again next rest := by
    rcases hs with rfl | rfl
    · exact hstart answers
    · exact hwaiting answers
  rw [hturn]
  cases overflows with
  | false => exact .inl ⟨answers, .again _ _⟩
  | true =>
    cases answers with
    | nil => exact .inl ⟨[], .again _ _⟩
    | cons answer rest =>
      rcases answer with _ | (_ | _)
      · exact .inr ⟨_, rest, waiting, rfl, .inr rfl, .yield _ _⟩
      · exact .inl ⟨rest, .again _ _⟩
      · exact .inr ⟨_, rest, waiting, rfl, .inr rfl, .yield _ _⟩

/-- A bisection that reads a cell in every step, as the cursor at the cell `index` does it. -/
theorem completes_bisection {State S : Type}
    {turn : List ReadAnswer → State → Turn State ReadAnswer} {range : S → Bisection.State}
    {searching : S → Prop} {cursor : ℤ → S → State}
    (hstep : ∀ s, searching s → (range s).min ≤ (range s).max → ∃ overflows next, searching next ∧
      ((range next).max + 1 - (range next).min).toNat <
        ((range s).max + 1 - (range s).min).toNat ∧
      ∀ index answers, turn answers (cursor index s) =
        readCellPayload overflows answers (cursor (range s).middle s) fun rest =>
          .again (cursor (range s).middle next) rest)
    {s : S} (h : searching s) (index : ℤ) :
    ∃ closed last, (range closed).max < (range closed).min ∧ searching closed ∧ ∀ final,
      Completes turn (cursor last closed) final → Completes turn (cursor index s) final := by
  -- by induction on the size of the range
  induction hsize : ((range s).max + 1 - (range s).min).toNat using Nat.strong_induction_on
    generalizing s index with
  | _ size ih =>
    rcases Int.lt_or_le (range s).max (range s).min with hclosed | hopen
    · exact ⟨s, index, hclosed, h, fun final hfinal => hfinal⟩
    · obtain ⟨overflows, next, hnext, hlt, hturn⟩ := hstep s h hopen
      obtain ⟨closed, last, hclosed, hsearching, hcompletes⟩ :=
        ih _ (hsize ▸ hlt) hnext (range s).middle rfl
      exact ⟨closed, last, hclosed, hsearching, fun final hfinal =>
        completes_readCellPayload (hturn index) (hturn _) (hcompletes final hfinal)⟩

/-! ## The search on an interior page -/

/-- The invariant of the search; `eqSeen` is what was noted on the pages above. -/
structure InteriorSearching (op : SeekOp) (cmp : ℕ → Ordering) (count : ℕ) (eqSeen : Bool)
    (state : InteriorPageBinarySearchState) : Prop where
  searching : Searching (fun index => op.inLeftSubtree (cmp index)) count state.toState
  above : NearestAbove (fun index => op.inLeftSubtree (cmp index)) count state.toState
  raised : op.eqOnly = true →
    Raised (fun index => cmp index = .eq) count state.toState eqSeen state.eqSeen

section
variable {op : SeekOp} {cmp : ℕ → Ordering} {n : ℕ} {eqSeen : Bool}
  {s : InteriorPageBinarySearchState}

theorem InteriorSearching.start (op : SeekOp) (cmp : ℕ → Ordering) (n : ℕ) (eqSeen : Bool) :
    InteriorSearching op cmp n eqSeen ⟨⟨0, n - 1, none⟩, eqSeen⟩ where
  searching := .start _ _ _
  above := .start _ _
  raised := fun _ => .start _ _ _ _

theorem SeekOp.tieBreaker_of_eqOnly {op : SeekOp} (hop : op.eqOnly = true) (cmp : Ordering) :
    cmp.then op.tieBreaker = cmp := by
  rcases op with (_ | _) | _ | (_ | _) | _ <;> first | cases hop; done | cases cmp <;> rfl

theorem InteriorSearching.step (h : InteriorSearching op cmp n eqSeen s)
    (hasc : CellsAscending cmp n) (hopen : s.min ≤ s.max) {actual : Ordering}
    (hactual : actual = (cmp s.index).then op.tieBreaker) :
    InteriorSearching op cmp n eqSeen ⟨s.narrow (op.inLeftSubtree actual) (op.inLeftSubtree actual),
        s.eqSeen || actual.isEq⟩ := by
  have hleft : op.inLeftSubtree actual = op.inLeftSubtree (cmp s.index) := by
    rw [hactual, op.inLeftSubtree_tieBreaker]
  have hmono := hasc.monotone op
  refine ⟨?_, ?_, fun hop => ?_⟩
  · rw [hleft]
    exact h.searching.narrow hmono hopen _
  · rw [hleft]
    refine h.above.narrow h.searching hopen (fun _ _ hhit => hhit) ?_
    intro low high hle hlt htrue hfalse
    simp [hfalse] at htrue
  · have heq : actual.isEq = decide (cmp s.index = .eq) := by
      rw [hactual, tieBreaker_of_eqOnly hop]
      cases cmp s.index <;> rfl
    rw [heq]
    exact (h.raised hop).narrow h.searching hopen _ _

/-- The search ends at the first cell to the left of which it goes on. -/
theorem InteriorSearching.finish (h : InteriorSearching op cmp n eqSeen s)
    (hclosed : s.max < s.min) :
    ∃ split, InteriorEnd n split s ∧
      SplitsAt (fun i => op.inLeftSubtree (cmp i)) n split ∧
      (op.eqOnly = true → (s.eqSeen = true → eqSeen = true ∨ ∃ i < n, cmp i = .eq) ∧
        (eqSeen = true → s.eqSeen = true) ∧
        (split < n → cmp split = .eq → s.eqSeen = true) ∧
        (0 < split → cmp (split - 1) = .eq → s.eqSeen = true)) := by
  obtain ⟨split, hsplit, hmin, hmax⟩ := h.searching.split hclosed
  have hcell : (((split : ℤ) - 1) + 1).toNat = split := by omega
  have hcell' : ((split : ℤ) - 1).toNat = split - 1 := by omega
  refine ⟨split, .of_splitsAt hclosed hsplit hmax h.above, hsplit, fun hop => ?_⟩
  obtain ⟨hkeeps, hsound, hup, hdown⟩ := h.raised hop
  rw [hmax, hcell] at hup
  rw [hmin, hcell'] at hdown
  exact ⟨by simpa using hsound, hkeeps, by simpa using hup, by simpa using hdown⟩

end

/-! ## The records of an interior page -/

section
variable {op : SeekOp} {cmp : Payload → Ordering} {below : ℕ → List Payload}
  {p : Page Payload} {split : ℕ}

theorem payloads_sublist_walk (cells : List (PageCell Payload)) (rightmost : ℕ) :
    (cells.map PageCell.payload).Sublist (walk true below cells rightmost) := by
  induction cells with
  | nil => exact nil_sublist _
  | cons cell rest ih =>
    exact (ih.cons_cons cell.payload).trans (sublist_append_right _ _)

/-- The cell before the cut is the last record before it. -/
theorem ahead_index_succ {last : ℕ} (hlast : last < p.cellCount) :
    ahead true below p (last + 1) = (ahead true below p last ++ below (p.child last)) ++
        [(p.cells.get ⟨last, hlast⟩).payload] := by
  rw [ahead_succ hlast, divider, if_pos rfl, append_assoc]

/-- The cell at the cut is the first record after it. -/
theorem behind_index_of_lt (hlt : split < p.cellCount) :
    behind true below p split = (p.cells.get ⟨split, hlt⟩).payload ::
      walk true below (p.cells.drop (split + 1)) p.rightmost := by
  rw [behind_of_lt hlt, divider, if_pos rfl]
  rfl

theorem payload_mem_behind {index : ℕ} (hsplit : split ≤ index) (hindex : index < p.cellCount) :
    (p.cells.get ⟨index, hindex⟩).payload ∈ behind true below p split := by
  rw [behind_index_of_lt (hsplit.trans_lt hindex)]
  rcases hsplit.eq_or_lt with rfl | hlt
  · exact mem_cons_self
  · refine mem_cons_of_mem _ ((payloads_sublist_walk _ _).subset ?_)
    refine mem_map_of_mem (mem_iff_getElem.2 ⟨index - (split + 1), ?_, ?_⟩)
    · rw [length_drop]
      have : index < p.cells.length := hindex
      omega
    · rw [getElem_drop]
      have : split + 1 + (index - (split + 1)) = index := by omega
      simp [this]

theorem payload_mem_ahead {i : ℕ} (hsplit : i < split) (hi : i < p.cellCount) :
    (p.cells.get ⟨i, hi⟩).payload ∈ ahead true below p split := by
  rw [ahead, mem_flatMap]
  refine ⟨p.cells.get ⟨i, hi⟩, mem_iff_getElem.2 ⟨i, ?_, ?_⟩, ?_⟩
  · rw [length_take]
    have : i < p.cells.length := hi
    omega
  · simp
  · exact mem_append_right _ mem_cons_self

theorem LeafSplit.ahead_right (hsplit : LeafSplit op cmp p split)
    (hasc : Ascending cmp (ahead true below p split))
    (hmem : r ∈ ahead true below p split) : op.inLeftSubtree (cmp r) = false := by
  cases split with
  | zero => cases hmem
  | succ last =>
    have hlast : last < p.cellCount := hsplit.le
    have hright := hsplit.before last (Nat.lt_succ_self _)
    rw [cmpAt_of_lt hlast] at hright
    rw [ahead_index_succ hlast] at hasc hmem
    rcases mem_append.1 hmem with hmem | hmem
    · have hpair := (pairwise_append.1 (@Ascending.inLeftSubtree _ _ op _ hasc)).2.2 r
        hmem _ mem_cons_self
      by_contra htrue
      rw [Bool.not_eq_false] at htrue
      rw [hpair htrue] at hright
      cases hright
    · rwa [mem_singleton.1 hmem]

theorem LeafSplit.behind_left (hsplit : LeafSplit op cmp p split)
    (hasc : Ascending cmp (behind true below p split))
    (hmem : r ∈ behind true below p split) : op.inLeftSubtree (cmp r) = true := by
  rcases Nat.lt_or_ge split p.cellCount with hlt | hge
  · have hleft := hsplit.after split le_rfl hlt
    rw [cmpAt_of_lt hlt] at hleft
    rw [behind_index_of_lt hlt] at hasc hmem
    rcases mem_cons.1 hmem with rfl | hmem
    · exact hleft
    · exact (pairwise_cons.1 (@Ascending.inLeftSubtree _ _ op _ hasc)).1 r hmem hleft
  · rw [behind, drop_eq_nil_of_le hge] at hmem
    cases hmem

/-- An equal record after the cut: the cell at the cut is one. -/
theorem LeafSplit.eq_of_behind (hsplit : LeafSplit (.ge true) cmp p split)
    (hasc : Ascending cmp (behind true below p split))
    (hm : r ∈ behind true below p split) (heq : cmp r = .eq) :
    split < p.cellCount ∧ cmpAt cmp p split = .eq := by
  rcases Nat.lt_or_ge split p.cellCount with hlt | hge
  · refine ⟨hlt, ?_⟩
    have hleft := hsplit.after split le_rfl hlt
    rw [cmpAt_of_lt hlt] at hleft ⊢
    rw [behind_index_of_lt hlt] at hasc hm
    exact @Ascending.eq_head _ _ _ (.ge true) [] _ hasc _ _ rfl hleft hm heq
  · rw [behind, drop_eq_nil_of_le hge] at hm
    cases hm

/-- An equal record before the cut: the cell before the cut is one. -/
theorem LeafSplit.eq_of_ahead (hsplit : LeafSplit (.le true) cmp p split)
    (hasc : Ascending cmp (ahead true below p split))
    (hm : r ∈ ahead true below p split) (heq : cmp r = .eq) :
    0 < split ∧ cmpAt cmp p (split - 1) = .eq := by
  cases split with
  | zero => cases hm
  | succ last =>
    refine ⟨Nat.succ_pos _, ?_⟩
    have hlast : last < p.cellCount := hsplit.le
    have hright := hsplit.before last (Nat.lt_succ_self _)
    rw [Nat.add_sub_cancel, cmpAt_of_lt hlast]
    rw [cmpAt_of_lt hlast] at hright
    rw [ahead_index_succ hlast] at hasc hm
    rw [← append_nil (_ ++ [_])] at hasc
    refine @Ascending.eq_head _ _ _ (.le true) _ _ hasc _ _ (reverse_append ..) ?_
      (mem_reverse.2 hm) heq
    simpa [onWay, iterationDirection] using hright

end

/-! ## The run of a search -/

section
variable {op : SeekOp} {tree : Tree Payload} {cmp : Payload → Ordering} {k : IndexKey Payload}
  {base : SeekCursor} {height id : ℕ} {trail : List (ℕ × ℕ)} {eqSeen : Bool} {cellIdx : ℤ}
  {cellCount : Option ℤ}

/-- The child where the search on an interior page ends. -/
theorem InteriorSearching.child (h : Descended op tree cmp eqSeen (height + 1) id trail)
    (hkind : tree.isIndex = true) (hasc : Ascending cmp tree.records)
    {state : InteriorPageBinarySearchState} (hclosed : state.max < state.min)
    (hsearching : InteriorSearching op (cmpAt cmp (tree.store id)) (tree.store id).cellCount eqSeen
      state) :
    ∃ split, InteriorEnd (tree.store id).cellCount split state ∧
      Descended op tree cmp state.eqSeen height ((tree.store id).child split)
        ((id, split) :: trail) := by
  obtain ⟨split, he, hsplit, hseen⟩ := hsearching.finish hclosed
  have hes := h.entries_ascending hasc
  rw [entries_eq_ahead_behind tree.store tree.isIndex he.le] at hes
  have hahead := (pairwise_append.1 hes).1
  have hbehind := (pairwise_append.1 (pairwise_append.1 hes).2.1).2.1
  refine ⟨split, he, ?_⟩
  simp only [hkind] at hahead hbehind
  refine h.child he.le ?_ ?_ ?_ ?_
  · rw [hkind]
    exact fun record hm => LeafSplit.ahead_right hsplit hahead hm
  · rw [hkind]
    exact fun record hm => LeafSplit.behind_left hsplit hbehind hm
  · rintro rfl
    rw [hkind]
    obtain ⟨hsound, hkeeps, hup, -⟩ := hseen rfl
    refine ⟨fun hstate => (hsound hstate).imp_right ?_, ?_⟩
    · rintro ⟨index, hindex, heq⟩
      -- an equal cell is on the left way
      have hge : split ≤ index := by
        by_contra hlt
        have hright := hsplit.before index (by omega)
        simp [heq, inLeftSubtree] at hright
      rw [cmpAt_of_lt hindex] at heq
      exact ⟨_, payload_mem_behind hge hindex, heq⟩
    · rintro (ho | ⟨record, hm, heq⟩)
      · exact hkeeps ho
      · obtain ⟨hlt, hcell⟩ := LeafSplit.eq_of_behind hsplit hbehind hm heq
        exact hup hlt hcell
  · rintro rfl
    rw [hkind]
    obtain ⟨hsound, hkeeps, -, hdown⟩ := hseen rfl
    refine ⟨fun hstate => (hsound hstate).imp_right ?_, ?_⟩
    · rintro ⟨index, hindex, heq⟩
      -- an equal cell is on the right way
      have hlt : index < split := by
        by_contra hge
        have hleft := hsplit.after index (by omega) hindex
        simp [heq, inLeftSubtree] at hleft
      rw [cmpAt_of_lt hindex] at heq
      exact ⟨_, payload_mem_ahead hlt hindex, heq⟩
    · rintro (ho | ⟨record, hm, heq⟩)
      · exact hkeeps ho
      · obtain ⟨hpos, hcell⟩ := LeafSplit.eq_of_ahead hsplit hahead hm heq
        exact hdown hpos hcell

theorem completes_indexChild (hpath : Path tree (height + 1) id trail)
    (hkind : tree.isIndex = true) {s : InteriorPageBinarySearchState} {split : ℕ}
    (he : InteriorEnd (tree.store id).cellCount split s) {final : SeekCursor}
    (hchild : Completes (indexbtreeSeek k op tree.store)
      (base.onPage op tree ((id, split) :: trail) ⟨(tree.store id).child split, -1, none⟩
        (.movingBetweenPages s.eqSeen)) final) :
    Completes (indexbtreeSeek k op tree.store)
      (base.onPage op tree trail ⟨id, cellIdx, cellCount⟩ (.interiorPageBinarySearch s))
      final := by
  have hinterior := hpath.wellFormed.isLeaf_succ
  have hturn : ∀ ans, indexbtreeSeek k op tree.store ans
      (base.onPage op tree trail ⟨id, cellIdx, cellCount⟩ (.interiorPageBinarySearch s)) =
      readAndPush tree.store ans
        (⟨id, (op.mark tree (id, split)).cellIdx, cellCount⟩ :: trail.map (op.mark tree))
        ((tree.store id).child split) (-1)
        (base.onPage op tree trail ⟨id, cellIdx, cellCount⟩ (.interiorPageBinarySearch s))
        fun stack => { base with stack, seekState := .movingBetweenPages s.eqSeen } := by
    intro ans
    have hclosed : ¬ s.min ≤ s.max := by
      have := he.closed
      omega
    simp only [indexbtreeSeek, indexbtreeMoveTo, onPage, hinterior, Bool.false_eq_true,
      if_false, CursorSeekState.interior, hclosed]
    refine @descend_eq _
      (base.onPage op tree trail ⟨id, cellIdx, cellCount⟩ (.interiorPageBinarySearch s))
      op tree height id trail split s hpath he _ (fun hlt => ?_) ans cellIdx cellCount
    rw [mark]
    cases op.iterationDirection <;> simp [forwardNode, backwardNode, hlt, hkind]
  exact completes_readAndPush (push_eq hpath he.le cellCount) hturn hturn rfl hchild

/-! ## The leaf -/

/-- From the page `id`, where its path leads, the search lands. -/
def IndexLands (k : IndexKey Payload) (op : SeekOp) (tree : Tree Payload)
    (cmp : Payload → Ordering) (base : SeekCursor) (id : ℕ) (trail : List (ℕ × ℕ))
    (eqSeen : Bool) : Prop :=
  ∃ final, Completes (indexbtreeSeek k op tree.store)
      (base.onPage op tree trail ⟨id, -1, none⟩ (.movingBetweenPages eqSeen)) final ∧
    Lands op tree final (denoted op cmp tree.records) ∧ final.Fresh tree ∧
    final.moveToState = base.moveToState

section
variable (hfresh : base.Fresh tree)
  (hk : ∀ payload tie, k.comparePayload payload tie = (cmp payload).then tie)
  (hasc : Ascending cmp tree.records)
include hfresh hk hasc

theorem indexLeaf_lands (h : Descended op tree cmp eqSeen 0 id trail) :
    IndexLands k op tree cmp base id trail eqSeen := by
  have hleaf := h.path.wellFormed.isLeaf_zero
  -- the leaf is found
  have hf : ∀ answers, indexbtreeSeek k op tree.store answers
      (base.onPage op tree trail ⟨id, -1, none⟩ (.movingBetweenPages eqSeen)) =
      .again (base.onPage op tree trail ⟨id, -1, none⟩ (.foundLeaf eqSeen)) answers := by
    intro answers
    simp only [indexbtreeSeek, indexbtreeMoveTo, onPage, hleaf, if_true]
  rcases Nat.eq_zero_or_pos (tree.store id).cellCount with hempty | hpos
  · have hdone : ∀ answers, indexbtreeSeek k op tree.store answers
        (base.onPage op tree trail ⟨id, -1, none⟩ (.foundLeaf eqSeen)) =
        .done { base.onPage op tree trail ⟨id, -1, none⟩ (.foundLeaf eqSeen) with
          hasRecord := false, seekResult := some .notFound } := by
      intro answers
      simp [indexbtreeSeek, onPage, hempty]
    refine ⟨_, .again hf (.done hdone), ?_, ?_, rfl⟩
    · rw [h.records_eq_nil hempty, denoted_nil]
      rfl
    · exact hfresh.congr rfl rfl rfl rfl
  · have hsearch : ∀ answers, indexbtreeSeek k op tree.store answers
        (base.onPage op tree trail ⟨id, -1, none⟩ (.foundLeaf eqSeen)) =
        .again (base.onPage op tree trail ⟨id, -1, none⟩ (.leafPageBinarySearch
          (leafPageBinarySearchStart op (tree.store id).cellCount eqSeen))) answers := by
      intro answers
      simp [indexbtreeSeek, onPage, hpos.ne']
    have hcells := (h.entries_ascending hasc).cells
    obtain ⟨closed, cellIdx', hclosed, ⟨hsearching, hseen⟩, hcompletes⟩ :=
      @completes_bisection _ _ (indexbtreeSeek k op tree.store) LeafPageBinarySearchState.toState
        (fun s => LeafSearching op false (cmpAt cmp (tree.store id)) (tree.store id).cellCount s ∧
          s.eqSeen = eqSeen)
        (fun cellIdx s => base.onPage op tree trail ⟨id, cellIdx, none⟩ (.leafPageBinarySearch s))
        (fun s hs hopen => by
          have hi := hs.1.searching.index_lt hopen
          refine ⟨k.overflows ((tree.store id).cells.get ⟨s.index, hi⟩).payload, _,
            ⟨hs.1.step (by simp) hcells hopen (.inr rfl), (s.step_eqSeen _ _ _).trans hs.2⟩,
            LeafPageBinarySearchState.step_lt hopen _ _ _, fun _ _ => ?_⟩
          simp only [indexbtreeSeek, indexbtreeSeekImpl, onPage, if_pos hopen,
            getElem?_eq_get hi, PageStack.setCellIndex, hk, cmpAt_of_lt hi]) _
        ⟨.start op false _ _ eqSeen, rfl⟩ (-1)
    obtain ⟨split, hsplit, -, hnearest, htarget⟩ := hsearching.finish hclosed
    have hnot : ¬ closed.min ≤ closed.max := by omega
    have hstart : ∀ final, Completes (indexbtreeSeek k op tree.store)
        (base.onPage op tree trail ⟨id, cellIdx', none⟩ (.leafPageBinarySearch closed)) final →
        Completes (indexbtreeSeek k op tree.store)
          (base.onPage op tree trail ⟨id, -1, none⟩ (.movingBetweenPages eqSeen)) final := by
      intro final hfinal
      exact .again hf (.again hsearch (hcompletes final hfinal))
    set nearest := nearestAt op (cmpAt cmp (tree.store id)) (tree.store id).cellCount split
    set target := targetAt op (tree.store id).cellCount split
    refine ⟨{ base.onPage op tree trail ⟨id, nearest.elim target fun index => index, none⟩
        (.leafPageBinarySearch closed) with
      hasRecord := nearest.isSome || (0 ≤ target && target < (tree.store id).cellCount)
      seekResult := some (if nearest.isSome then .found
        else if op.eqOnly = true ∧ eqSeen = false then .notFound else .tryAdvance) },
      hstart _ (.done fun answers => ?_), h.lands hasc hsplit ?_, hfresh.congr rfl rfl rfl rfl, rfl⟩
    · cases hmatch : nearest with
      | some index =>
        simp [indexbtreeSeek, indexbtreeSeekImpl, onPage, hnot, hnearest, hmatch,
          PageStack.setCellIndex]
      | none =>
        simp [indexbtreeSeek, indexbtreeSeekImpl, onPage, hnot, hnearest, hmatch,
          PageStack.setCellIndex, htarget rfl (hnearest.trans hmatch), hseen]
    · exact ⟨⟨none, rfl⟩, hfresh.goingUpwards_eq, hfresh.pendingDescent_eq,
        hfresh.advanceState_eq, fun hsome => by simp [nearest, hsome], rfl⟩

/-- From every page of its way the search lands. -/
theorem index_lands (hkind : tree.isIndex = true)
    (h : Descended op tree cmp eqSeen height id trail) :
    IndexLands k op tree cmp base id trail eqSeen := by
  induction height generalizing id trail eqSeen with
  | zero => exact indexLeaf_lands hfresh hk hasc h
  | succ height ih =>
    have hinterior := h.path.wellFormed.isLeaf_succ
    have hcells : CellsAscending (cmpAt cmp (tree.store id)) (tree.store id).cellCount := by
      have hes := h.entries_ascending hasc
      rw [entries, hkind] at hes
      exact Ascending.cells (hes.sublist (payloads_sublist_walk _ _))
    obtain ⟨closed, cellIdx', hclosed, hsearching, hcompletes⟩ :=
      @completes_bisection _ _ (indexbtreeSeek k op tree.store) InteriorPageBinarySearchState.toState
        (InteriorSearching op (cmpAt cmp (tree.store id)) (tree.store id).cellCount eqSeen)
        (fun cellIdx s => base.onPage op tree trail ⟨id, cellIdx, none⟩
          (.interiorPageBinarySearch s))
        (fun s hs hopen => by
          have hi := hs.searching.index_lt hopen
          refine ⟨k.overflows ((tree.store id).cells.get ⟨s.index, hi⟩).payload, _,
            hs.step hcells hopen rfl, Bisection.State.narrow_lt hopen _ _, fun _ _ => ?_⟩
          simp only [indexbtreeSeek, indexbtreeMoveTo, onPage, hinterior, Bool.false_eq_true,
            if_false, CursorSeekState.interior, if_pos hopen, getElem?_eq_get hi,
            PageStack.setCellIndex, hk, cmpAt_of_lt hi]) _ (.start op _ _ eqSeen) (-1)
    obtain ⟨split, he, hchild⟩ := hsearching.child h hkind hasc hclosed
    obtain ⟨final, hfinal, hlands⟩ := ih hchild
    refine ⟨final, .of_turn_eq (fun ans => ?_) (hcompletes final ?_), hlands⟩
    · -- an interior page that was just entered is searched from the start
      simp [indexbtreeSeek, indexbtreeMoveTo, onPage, hinterior, CursorSeekState.interior, descend]
    · exact completes_indexChild h.path hkind he hfinal

end

/-- A seek in an index lands where the operator points. -/
theorem indexbtreeSeek_lands (hkind : tree.isIndex = true) (op : SeekOp)
    (hk : ∀ payload tie, k.comparePayload payload tie = (cmp payload).then tie)
    (hasc : Ascending cmp tree.records) {cursor : SeekCursor} (hready : cursor.Ready tree) :
    ∃ final, Completes (indexbtreeSeek k op tree.store) cursor final ∧
      Lands op tree final (denoted op cmp tree.records) ∧
      Ready tree { final with seekState := .start } := by
  obtain ⟨final, hcompletes, hlands, hfresh, hs⟩ :=
    @index_lands _ op tree cmp k { cursor with goingUpwards := false } _ _ _ _
      { hready with goingUpwards_eq := rfl } hk hasc hkind
      (.root op tree cmp)
  refine ⟨final, ?_, hlands, hfresh.ready (hs.trans hready.moveToState_eq) fun hkind' => ?_⟩
  rotate_left
  · simp [hkind] at hkind'
  -- the cursor waits until it is on the root, and does not move if it is there already
  refine @Completes.redirect _ _ _ _ _ _ (fun s => s.seekState = .start ∧
    s.rootPage = tree.root ∧ { s with toBTreeCursor := s.toBTreeCursor.onRoot } =
      { cursor with toBTreeCursor := cursor.toBTreeCursor.onRoot }) ?_
    ⟨hready.seekState_eq, hready.rootPage_eq, rfl⟩ hcompletes
  rintro s ⟨hstart, hroot, hsame⟩ ans
  rcases moveToRootNonblock_cases ans s.toBTreeCursor with
    ⟨rest, heq⟩ | ⟨first, rest, rfl, heq | heq⟩
  · refine .inl ⟨rest, ?_⟩
    have hturn : indexbtreeSeek k op tree.store ans s = indexbtreeMoveTo k op tree.store rest
        { s with toBTreeCursor := s.toBTreeCursor.onRoot } := by
      rw [indexbtreeSeek, hstart, heq]
    rw [hturn, hsame, onRoot_eq hready.rootPage_eq hready.seekState_eq]
    rfl
  · refine .inr ⟨first, rest, { s with toBTreeCursor := s.toBTreeCursor.onRoot }, rfl,
      ⟨hstart, hroot, hsame⟩, ?_⟩
    rw [indexbtreeSeek, hstart, heq]
    exact .yield _ _
  · refine .inr ⟨first, rest, { s with goingUpwards := false }, rfl, ⟨hstart, hroot, hsame⟩, ?_⟩
    rw [indexbtreeSeek, hstart, heq]
    exact .yield _ _

end

end Turso.BTree
