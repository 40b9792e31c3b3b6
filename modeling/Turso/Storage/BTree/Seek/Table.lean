import Turso.Storage.BTree.Seek.Descent

/-!
# Seeking in a table

The rows of a table ascend by rowid, and the cells of an interior page only separate them: the
rows to the left of a cell are at most its rowid, those to its right are greater.  The search
compares with these cells by a test of its own (`SeekOp.isOnLeft`), which for `LT` adds one to
the rowid of the cell.  In a well-formed tree this does not overflow, since there is a row to
the right of every cell.

A seek for an equal rowid may stay on the leaf the cursor is on (`tryStart…`), and the search
on a leaf stops at the first equal cell it meets.  Rowids are unique, so this is the one.
-/

namespace Turso.BTree

open Bisection SeekCursor SeekOp List Resumable

variable {Payload : Type}

/-! ## Tables in order -/

/-- Every cell of an interior page separates the rows to its left from those to its right. -/
def Separated (rowidOf : Payload → ℤ) (store : Store Payload) : ℕ → ℕ → Prop
  | 0, _ => True
  | height + 1, id =>
    (∀ index (hindex : index < (store id).cellCount),
      (∀ row ∈ ahead false (entries store false height) (store id) (index + 1),
        rowidOf row ≤ rowidOf ((store id).cells.get ⟨index, hindex⟩).payload) ∧
      ∀ row ∈ behind false (entries store false height) (store id) index,
        rowidOf ((store id).cells.get ⟨index, hindex⟩).payload < rowidOf row) ∧
    ∀ index ≤ (store id).cellCount, Separated rowidOf store height ((store id).child index)

/-- `i64::MIN`. -/
def i64Min : ℤ := -9223372036854775808

/-- A well-formed table, with the rowids of its rows and of its interior cells. -/
structure Table (Payload : Type) extends Tree Payload where
  rowidOf : Payload → ℤ
  isTable : isIndex = false
  separated : Separated rowidOf store height root
  ascending : (entries store isIndex height root).Pairwise fun first second =>
    rowidOf first < rowidOf second
  inRange : ∀ row ∈ entries store isIndex height root, i64Min ≤ rowidOf row ∧ rowidOf row ≤ i64Max

/-- How a row compares with a rowid. -/
def cmpRowid (rowidOf : Payload → ℤ) (rowid : ℤ) (row : Payload) : Ordering :=
  compare (rowidOf row) rowid

namespace Table
variable (table : Table Payload) (op : SeekOp) (rowid : ℤ)

abbrev cmp := cmpRowid table.rowidOf rowid

abbrev seek := tablebtreeSeek table.rowidOf rowid op table.store

abbrev tryStart := tryStartSeekOnCurrentTableLeaf table.rowidOf rowid op table.store

end Table

section
variable {rowidOf : Payload → ℤ} {rowid : ℤ} {op : SeekOp} {tree : Tree Payload}
  {height id : ℕ} {trail : List (ℕ × ℕ)}

variable {r : Payload}

theorem cmpRowid_eq_lt : cmpRowid rowidOf rowid r = .lt ↔ rowidOf r < rowid :=
  compare_lt_iff_lt

theorem cmpRowid_eq_eq : cmpRowid rowidOf rowid r = .eq ↔ rowidOf r = rowid :=
  compare_eq_iff_eq

theorem cmpRowid_eq_gt {row : Payload} : cmpRowid rowidOf rowid row = .gt ↔ rowid < rowidOf row :=
  compare_gt_iff_gt

theorem Path.separated (hseparated : Separated rowidOf tree.store tree.height tree.root)
    (h : Path tree height id trail) : Separated rowidOf tree.store height id := by
  induction h with
  | root => exact hseparated
  | child _ hi ih => exact ih.2 _ hi

/-! ## There are rows on both sides of a cell -/

theorem entries_ne_nil {st : Store Payload} {isIndex : Bool}
    (hwell : WellFormed st isIndex height id) (hcells : height = 0 → (st id).cells ≠ []) :
    entries st isIndex height id ≠ [] := by
  induction height generalizing id with
  | zero => simpa [entries] using hcells rfl
  | succ height ih =>
    have hchild := hwell.2 0 (Nat.zero_le _)
    rw [entries_eq_ahead_behind st isIndex (Nat.zero_le _)]
    simp [ih hchild.1 hchild.2]

variable {p : Page Payload}

/-- The rows of a child are to the left of the cells from there on. -/
theorem mem_ahead_of_child {st : Store Payload} {child index : ℕ}
    (hchild : child < index) (hindex : index ≤ p.cellCount)
    (hr : r ∈ entries st false height (p.child child)) :
    r ∈ ahead false (entries st false height) p index := by
  induction index with
  | zero => omega
  | succ index ih =>
    rw [ahead_succ (by omega)]
    rcases Nat.lt_succ_iff_lt_or_eq.1 hchild with hlt | rfl
    · exact mem_append_left _ (ih hlt (by omega))
    · exact mem_append_right _ (mem_append_left _ hr)

theorem behind_table {below : ℕ → List Payload} {i : ℕ} (hi : i < p.cellCount) :
    behind false below p i = below (p.child (i + 1)) ++ behind false below p (i + 1) := by
  rw [behind_of_lt hi, ← walk_drop hi]
  rfl

section
variable (hwell : WellFormed tree.store false (height + 1) id)
include hwell

theorem exists_mem_behind {index : ℕ} (hindex : index < (tree.store id).cellCount) :
    ∃ r ∈ entries tree.store false height ((tree.store id).child (index + 1)),
      r ∈ behind false (entries tree.store false height) (tree.store id) index := by
  have hchild := hwell.2 (index + 1) (by omega)
  obtain ⟨r, hr⟩ := exists_mem_of_ne_nil _ (entries_ne_nil hchild.1 hchild.2)
  refine ⟨r, hr, ?_⟩
  rw [behind_table hindex]
  exact mem_append_left _ hr

theorem cells_lt (hseparated : Separated rowidOf tree.store (height + 1) id) {low high : ℕ}
    (hlow : low < high) (hhigh : high < (tree.store id).cellCount) :
    rowidOf ((tree.store id).cells.get ⟨low, hlow.trans hhigh⟩).payload <
      rowidOf ((tree.store id).cells.get ⟨high, hhigh⟩).payload := by
  -- through a row of the child between them
  obtain ⟨r, hr, hright⟩ := exists_mem_behind hwell (hlow.trans hhigh)
  have hleft : r ∈ ahead false (entries tree.store false height) (tree.store id) (high + 1) :=
    mem_ahead_of_child (by omega) (by omega) hr
  exact ((hseparated.1 low (hlow.trans hhigh)).2 r hright).trans_le
    ((hseparated.1 high hhigh).1 r hleft)

/-- A cell of an interior page is smaller than some row. -/
theorem cell_lt_row (hseparated : Separated rowidOf tree.store (height + 1) id) {i : ℕ}
    (hi : i < (tree.store id).cellCount) :
    ∃ row ∈ entries tree.store false (height + 1) id,
      rowidOf ((tree.store id).cells.get ⟨i, hi⟩).payload < rowidOf row := by
  obtain ⟨row, -, hright⟩ := exists_mem_behind hwell hi
  refine ⟨row, ?_, (hseparated.1 i hi).2 row hright⟩
  rw [entries_eq_ahead_behind tree.store false hi.le]
  exact mem_append_right _ (mem_append_right _ hright)

end

/-! ## Interior pages -/

/-- The test of the search, where it does not overflow. -/
def SeekOp.goesLeft (op : SeekOp) (cellRowid rowid : ℤ) : Bool :=
  match op with
  | .ge _ | .le _ => rowid ≤ cellRowid
  | .gt => rowid < cellRowid
  | .lt => rowid ≤ cellRowid + 1

theorem SeekOp.isOnLeft_eq {cellRowid : ℤ} (h : cellRowid < i64Max) :
    op.isOnLeft cellRowid rowid = some (op.goesLeft cellRowid rowid) := by
  rcases op with _ | _ | _ | _
  · rfl
  · rfl
  · rfl
  · rw [isOnLeft, if_neg h.ne]
    rfl

theorem SeekOp.goesLeft_mono {low high : ℤ} (hle : low ≤ high)
    (hlow : op.goesLeft low rowid = true) : op.goesLeft high rowid = true := by
  rcases op with _ | _ | _ | _ <;> simp only [goesLeft, decide_eq_true_eq] at hlow ⊢ <;> omega

/-- A row at most a cell to the right of which the search goes on is before its place. -/
theorem SeekOp.right_of_le {cellRowid : ℤ} (hright : op.goesLeft cellRowid rowid = false) (hle : rowidOf r ≤ cellRowid) :
    op.inLeftSubtree (cmpRowid rowidOf rowid r) = false ∧
      (op = .le true → cmpRowid rowidOf rowid r ≠ .eq) := by
  by_cases hlt : rowidOf r < rowid
  · rw [cmpRowid_eq_lt.2 hlt]
    exact ⟨by rcases op with _ | _ | _ | _ <;> rfl, nofun⟩
  · -- only `GT` goes on to the right of an equal row
    rcases op with _ | _ | _ | _ <;> simp only [goesLeft, decide_eq_false_iff_not] at hright
    case gt =>
      rw [cmpRowid_eq_eq.2 (by omega)]
      exact ⟨rfl, nofun⟩
    all_goals omega

/-- A row greater than a cell to the left of which the search goes on is after its place. -/
theorem SeekOp.left_of_lt {cellRowid : ℤ} (hleft : op.goesLeft cellRowid rowid = true) (hlt : cellRowid < rowidOf r) :
    op.inLeftSubtree (cmpRowid rowidOf rowid r) = true ∧
      (op = .ge true → cmpRowid rowidOf rowid r ≠ .eq) := by
  by_cases hgt : rowid < rowidOf r
  · rw [cmpRowid_eq_gt.2 hgt]
    exact ⟨by rcases op with _ | _ | _ | _ <;> rfl, nofun⟩
  · -- only `LT` goes on to the left of an equal row
    rcases op with _ | _ | _ | _ <;> simp only [goesLeft, decide_eq_true_eq] at hleft
    case lt =>
      rw [cmpRowid_eq_eq.2 (by omega)]
      exact ⟨rfl, nofun⟩
    all_goals omega

/-- The rowid of the cell number `index`. -/
def cellRowid (rowidOf : Payload → ℤ) (page : Page Payload) (index : ℕ) : ℤ :=
  match page.cells[index]? with
  | some cell => rowidOf cell.payload
  | none => 0

theorem cellRowid_of_lt {i : ℕ} (hi : i < p.cellCount) :
    cellRowid rowidOf p i = rowidOf (p.cells.get ⟨i, hi⟩).payload := by
  rw [cellRowid, getElem?_eq_get hi]

/-- `tablebtree_search_interior` finds the first cell to the left of which it goes on. -/
theorem tablebtreeSearchInterior_spec
    (hmono : Monotone (fun i => op.goesLeft (cellRowid rowidOf p i) rowid) p.cellCount)
    (hmax : ∀ i < p.cellCount, cellRowid rowidOf p i < i64Max)
    {s : InteriorPageBinarySearchState}
    (hsearching : Searching
      (fun i => op.goesLeft (cellRowid rowidOf p i) rowid) p.cellCount s.toState)
    (habove : NearestAbove
      (fun i => op.goesLeft (cellRowid rowidOf p i) rowid) p.cellCount
      s.toState) :
    ∃ closed split, tablebtreeSearchInterior rowidOf rowid op p s = some closed ∧
      closed.eqSeen = s.eqSeen ∧ InteriorEnd p.cellCount split closed ∧
      SplitsAt (fun i => op.goesLeft (cellRowid rowidOf p i) rowid)
        p.cellCount split := by
  -- by induction on the size of the range
  induction hsize : (s.max + 1 - s.min).toNat using Nat.strong_induction_on generalizing s with
  | _ size ih =>
    rw [tablebtreeSearchInterior]
    rcases Int.lt_or_le s.max s.min with hclosed | hopen
    · rw [if_neg (by omega)]
      obtain ⟨split, hsplit, hmin, hmax⟩ := hsearching.split hclosed
      exact ⟨s, split, rfl, rfl, .of_splitsAt hclosed hsplit hmax habove, hsplit⟩
    · rw [if_pos hopen]
      have hi := hsearching.index_lt hopen
      rw [getElem?_eq_get hi]
      dsimp only
      rw [← (cellRowid_of_lt hi : cellRowid rowidOf p s.index = _), isOnLeft_eq (hmax _ hi)]
      refine @ih _ (hsize ▸ State.narrow_lt hopen _ _) _ ?_ ?_ rfl
      · exact hsearching.narrow hmono hopen _
      · refine habove.narrow hsearching hopen (fun _ _ hhit => hhit) ?_
        intro low high hle hlt htrue hfalse
        simp [hfalse] at htrue

/-- On a finished search `tablebtree_search_interior` does nothing. -/
theorem tablebtreeSearchInterior_closed
    {state : InteriorPageBinarySearchState} (hclosed : state.max < state.min) :
    tablebtreeSearchInterior rowidOf rowid op p state = some state := by
  rw [tablebtreeSearchInterior, if_neg (by omega)]

/-! ## Leaves -/

/-- Only one cell is equal. -/
def EqUnique (cmp : ℕ → Ordering) (count : ℕ) : Prop :=
  ∀ low high, low < high → high < count →
    (cmp low = .eq → cmp high = .gt) ∧ (cmp high = .eq → cmp low = .lt)

/-- What the search on a leaf returns, if the place it looks for is `split`. -/
def leafOutcome (op : SeekOp) (cmp : ℕ → Ordering) (count split : ℕ) : LeafSearchOutcome :=
  match nearestAt op cmp count split with
  | some nearest => ⟨nearest, some true, .found⟩
  | none =>
    let target := targetAt op count split
    if op.eqOnly then ⟨target, some (0 ≤ target && target < count), .notFound⟩
    else ⟨target, none, .tryAdvance⟩

/-- An equal cell is next to the place of a search for equal cells. -/
theorem EqUnique.exists_split {cmp : ℕ → Ordering} {count index : ℕ} (hunique : EqUnique cmp count)
    (hindex : index < count) (heq : cmp index = .eq) (hop : op.eqOnly = true) :
    ∃ split, SplitsAt (fun index => op.inLeftSubtree (cmp index)) count split ∧
      nearestAt op cmp count split = some index := by
  rcases op with (_ | _) | _ | (_ | _) | _ <;> try cases hop
  · refine ⟨index, ⟨hindex.le, fun low hlow => ?_, fun high hle hlt => ?_⟩, ?_⟩
    · rw [(hunique low index hlow hindex).2 heq]
      rfl
    · rcases hle.eq_or_lt with rfl | hhigh
      · rw [heq]
        rfl
      · rw [(hunique index high hhigh hlt).1 heq]
        rfl
    · simp [nearestAt, iterationDirection, hindex, heq, denotes]
  · refine ⟨index + 1, ⟨hindex, fun low hlow => ?_, fun high hle hlt => ?_⟩, ?_⟩
    · rcases (Nat.lt_succ_iff.1 hlow).eq_or_lt with rfl | hlow
      · rw [heq]
        rfl
      · rw [(hunique low index hlow hindex).2 heq]
        rfl
    · rw [(hunique index high hle hlt).1 heq]
      rfl
    · simp [nearestAt, iterationDirection, heq, denotes]

theorem SeekOp.eq_of_found {cmp : Ordering} (hop : op.eqOnly = true) (hf : op.found cmp = true) :
    cmp = .eq := by
  rcases op with (_ | _) | _ | (_ | _) | _ <;> cases cmp <;>
    first | rfl | cases hop; done | cases hf

/-- The search on a leaf of a table. -/
theorem tablebtreeLeafSearch_spec
    (hasc : CellsAscending (cmpAt (cmpRowid rowidOf rowid) p) p.cellCount)
    (hunique : EqUnique (cmpAt (cmpRowid rowidOf rowid) p) p.cellCount)
    {s : LeafPageBinarySearchState}
    (h : LeafSearching op (decide (op = .ge true)) (cmpAt (cmpRowid rowidOf rowid) p) p.cellCount s)
    (hno : op.eqOnly = true → s.nearest = none) :
    ∃ split, LeafSplit op (cmpRowid rowidOf rowid) p split ∧
      tablebtreeLeafSearch rowidOf rowid op p s =
        some (leafOutcome op (cmpAt (cmpRowid rowidOf rowid) p) p.cellCount split) := by
  rw [tablebtreeLeafSearch]
  -- by induction on the size of the range
  induction hsize : (s.max + 1 - s.min).toNat using Nat.strong_induction_on generalizing s with
  | _ size ih =>
    rw [leafSearch]
    rcases Int.lt_or_le s.max s.min with hclosed | hopen
    · rw [if_neg (by omega)]
      obtain ⟨split, hsplit, hmin, hnearest, htarget⟩ := h.finish hclosed
      refine ⟨split, hsplit, ?_⟩
      rw [leafOutcome, ← hnearest]
      by_cases hexact : op = .ge true
      · subst hexact
        rw [hno rfl, hmin]
        rfl
      · rw [decide_eq_false hexact]
        cases hmatch : s.nearest with
        | some nearest => rfl
        | none =>
          rw [← htarget (decide_eq_false hexact) hmatch]
          simp only [Bool.false_eq_true, if_false]
          split_ifs <;> rfl
    · rw [if_pos hopen]
      have hi := h.searching.index_lt hopen
      rw [getElem?_eq_get hi]
      dsimp only
      rw [← cmpRowid, ← (cmpAt_of_lt hi : cmpAt (cmpRowid rowidOf rowid) p s.index = _)]
      by_cases hstop : op.found (cmpAt (cmpRowid rowidOf rowid) p s.index) = true ∧ op.eqOnly = true
      · rw [if_pos hstop]
        obtain ⟨split, hsplit, hnearest⟩ := hunique.exists_split hi
          (eq_of_found hstop.2 hstop.1) hstop.2
        refine ⟨split, hsplit, ?_⟩
        rw [leafOutcome, hnearest, ← h.searching.index_eq hopen]
      · rw [if_neg hstop]
        refine @ih _ (hsize ▸ LeafPageBinarySearchState.step_lt hopen _ _ _) _
          (h.step of_decide_eq_true hasc hopen (.inl rfl)) (fun hop => ?_) rfl
        -- a search for an equal cell goes on only where there was none
        have hmiss : op.found (cmpAt (cmpRowid rowidOf rowid) p s.index) = false :=
          Bool.not_eq_true _ ▸ fun hf => hstop ⟨hf, hop⟩
        rw [LeafPageBinarySearchState.step_toState of_decide_eq_true, hmiss]
        exact hno hop

theorem leafOutcome_spec (op : SeekOp) (cmp : ℕ → Ordering) (n split : ℕ) :
    (leafOutcome op cmp n split).cellIndex =
        (nearestAt op cmp n split).elim (targetAt op n split) (fun nearest => nearest) ∧
      (leafOutcome op cmp n split).result = (if (nearestAt op cmp n split).isSome then .found
          else if op.eqOnly = true ∧ false = false then .notFound else .tryAdvance) ∧
      ((nearestAt op cmp n split).isSome = true →
        (leafOutcome op cmp n split).hasRecord = some true) := by
  rw [leafOutcome]
  cases nearestAt op cmp n split with
  | some nearest => exact ⟨rfl, rfl, fun _ => rfl⟩
  | none => cases hop : op.eqOnly <;> simp

end

/-! ## The run of a search -/

section
variable {op : SeekOp} {table : Table Payload} {rowid : ℤ} {base : SeekCursor} {height id : ℕ}
  {trail : List (ℕ × ℕ)} {cellIdx : ℤ} {cellCount : Option ℤ} {seekState : CursorSeekState}

theorem SeekOp.mark_table (op : SeekOp) (t : Table Payload) :
    op.mark t.toTree = forwardNode t.store := by
  rw [mark]
  cases op.iterationDirection with
  | forwards => rfl
  | backwards =>
    funext step
    simp [backwardNode, forwardNode, t.isTable]

theorem Table.records_ascending (t : Table Payload) (rowid : ℤ) :
    Ascending (t.cmp rowid) t.records := by
  refine t.ascending.imp fun {a b} hlt => ?_
  rw [cmpRowid_eq_gt, cmpRowid_eq_gt, cmpRowid_eq_lt, cmpRowid_eq_lt]
  omega

theorem Path.eqUnique (hpath : Path table.toTree 0 id trail) :
    EqUnique (cmpAt (table.cmp rowid) (table.store id)) (table.store id).cellCount := by
  intro low high hlow hhigh
  have hrs := table.ascending
  rw [← Tree.records, hpath.records_eq] at hrs
  have hcells := (pairwise_append.1 (pairwise_append.1 hrs).2.1).1
  rw [entries] at hcells
  have hlt := pairwise_iff_getElem.1 hcells low high
    (by simpa [Page.cellCount] using hlow.trans hhigh) (by simpa [Page.cellCount] using hhigh) hlow
  rw [getElem_map, getElem_map] at hlt
  rw [cmpAt_of_lt hhigh, cmpAt_of_lt (hlow.trans hhigh), cmpRowid_eq_eq, cmpRowid_eq_eq,
    cmpRowid_eq_gt, cmpRowid_eq_lt]
  simp only [get_eq_getElem]
  omega

/-- A seek for a rowid lands, and leaves the cursor ready for the next one. -/
abbrev Table.Lands (table : Table Payload) (op : SeekOp) (rowid : ℤ) (final : SeekCursor) : Prop :=
  BTree.Lands op table.toTree final (denoted op (table.cmp rowid) table.records) ∧
    Ready table.toTree { final with seekState := .start }

/-- The search on a leaf lands. -/
theorem searchTableLeaf_lands (h : Descended op table.toTree (table.cmp rowid) false 0 id trail)
    (hfresh : base.Fresh table.toTree) (hmove : base.moveToState = .start) :
    ∃ final, searchTableLeaf table.rowidOf rowid op table.store
        (base.onPage op table.toTree trail ⟨id, cellIdx, cellCount⟩ seekState)
        (leafPageBinarySearchStart op (table.store id).cellCount false) = .done final ∧
      table.Lands op rowid final := by
  have hasc := table.records_ascending rowid
  obtain ⟨split, hsplit, houtcome⟩ := @tablebtreeLeafSearch_spec _ table.rowidOf rowid op
    (table.store id) (h.entries_ascending hasc).cells h.path.eqUnique _
    (.start op _ _ _ false) fun _ => rfl
  obtain ⟨hcellIndex, hres, hhasRecord⟩ := leafOutcome_spec op
    (cmpAt (table.cmp rowid) (table.store id)) (table.store id).cellCount split
  set outcome := leafOutcome op (cmpAt (table.cmp rowid) (table.store id))
    (table.store id).cellCount split
  refine ⟨{ base.onPage op table.toTree trail ⟨id, outcome.cellIndex, cellCount⟩ seekState with
    hasRecord := outcome.hasRecord.getD base.hasRecord
    seekResult := some outcome.result }, ?_, ?_, ?_⟩
  · simp only [searchTableLeaf, onPage, houtcome]
    rfl
  · refine h.lands hasc hsplit ⟨⟨cellCount, ?_⟩, hfresh.goingUpwards_eq, hfresh.pendingDescent_eq,
      hfresh.advanceState_eq, fun hsome => ?_, congrArg some hres⟩
    · rw [← hcellIndex]
      rfl
    · rw [hhasRecord hsome]
      rfl
  · refine Fresh.ready (hfresh.congr rfl rfl rfl rfl) hmove fun _ _ => ?_
    exact ⟨_, trail, by rw [← op.mark_table]; rfl, h.path⟩

/-- The search on an interior page, and the child it goes on with. -/
theorem tableChild (h : Descended op table.toTree (table.cmp rowid) false (height + 1) id trail) :
    ∃ closed split, tablebtreeSearchInterior table.rowidOf rowid op (table.store id)
        ⟨⟨0, (table.store id).cellCount - 1, none⟩, false⟩ = some closed ∧
      closed.eqSeen = false ∧ InteriorEnd (table.store id).cellCount split closed ∧
      Descended op table.toTree (table.cmp rowid) false height ((table.store id).child split)
        ((id, split) :: trail) := by
  have hkind : table.toTree.isIndex = false := table.isTable
  have hwell := h.path.wellFormed
  have hseparated := h.path.separated table.separated
  rw [hkind] at hwell
  have hmax : ∀ i < (table.store id).cellCount,
      cellRowid table.rowidOf (table.store id) i < i64Max := by
    intro i hi
    obtain ⟨row, hrow, hlt⟩ := cell_lt_row hwell hseparated hi
    rw [cellRowid_of_lt hi]
    refine hlt.trans_le (table.inRange row ?_).2
    rw [← Tree.records, h.path.records_eq, hkind]
    exact mem_append_right _ (mem_append_left _ hrow)
  have hmono : Monotone (fun i =>
      op.goesLeft (cellRowid table.rowidOf (table.store id) i) rowid)
      (table.store id).cellCount := by
    intro low high hle hlt hleft
    refine goesLeft_mono ?_ hleft
    rcases hle.eq_or_lt with rfl | hlow
    · exact le_rfl
    · rw [cellRowid_of_lt hlt, cellRowid_of_lt (hlow.trans hlt)]
      exact (cells_lt hwell hseparated hlow hlt).le
  obtain ⟨closed, split, hsearch, hseen, he, hsplit⟩ :=
    @tablebtreeSearchInterior_spec _ table.rowidOf rowid op (table.store id) hmono hmax
      ⟨⟨0, (table.store id).cellCount - 1, none⟩, false⟩ (.start _ _ _) (.start _ _)
  refine ⟨closed, split, hsearch, hseen, he, ?_⟩
  -- the rows to the left of the child are at most the cell before it
  have hahead : ∀ row ∈ ahead false (entries table.store false height) (table.store id) split,
      op.inLeftSubtree (table.cmp rowid row) = false ∧ (op = .le true → table.cmp rowid row ≠ .eq) := by
    intro row hrow
    cases split with
    | zero => cases hrow
    | succ last =>
      have hlast : last < (table.store id).cellCount := he.le
      have hright := hsplit.before last (Nat.lt_succ_self _)
      refine right_of_le hright ?_
      rw [cellRowid_of_lt hlast]
      exact (hseparated.1 last hlast).1 row hrow
  -- and those to its right are greater than the cell after it
  have hbehind : ∀ row ∈ behind false (entries table.store false height) (table.store id) split,
      op.inLeftSubtree (table.cmp rowid row) = true ∧ (op = .ge true → table.cmp rowid row ≠ .eq) := by
    intro row hrow
    rcases he.le.eq_or_lt with rfl | hlt
    · rw [behind_cellCount] at hrow
      cases hrow
    · have hleft := hsplit.after split le_rfl hlt
      refine left_of_lt hleft ?_
      rw [cellRowid_of_lt hlt]
      exact (hseparated.1 split hlt).2 row hrow
  refine h.child he.le ?_ ?_ ?_ ?_
  · rw [hkind]
    exact fun row hrow => (hahead row hrow).1
  · rw [hkind]
    exact fun row hrow => (hbehind row hrow).1
  · intro hop
    rw [hkind]
    simpa using fun row hrow => (hbehind row hrow).2 hop
  · intro hop
    rw [hkind]
    simpa using fun row hrow => (hahead row hrow).2 hop

/-- On its way, a turn searches the page on top of the stack. -/
theorem tablebtreeSeek_onPage {node : Node} (hmove : base.moveToState = .moveToPage)
    (hs : seekState = .movingBetweenPages false ∨
      ∃ state, seekState = .interiorPageBinarySearch state) (ans : List ReadAnswer) :
    table.seek op rowid ans (base.onPage op table.toTree trail node seekState) =
      tablebtreeMoveTo table.rowidOf rowid op table.store ans
        (base.onPage op table.toTree trail node seekState) := by
  have hmove' : (base.onPage op table.toTree trail node seekState).moveToState = .moveToPage := hmove
  have hseek : (base.onPage op table.toTree trail node seekState).seekState = seekState := rfl
  rcases hs with rfl | ⟨state, rfl⟩ <;> simp only [tablebtreeSeek, hseek, moveTo, hmove']

/-- From every page of its way the search lands. -/
theorem table_lands (h : Descended op table.toTree (table.cmp rowid) false height id trail)
    (hfresh : base.Fresh table.toTree) (hmove : base.moveToState = .moveToPage) :
    ∃ final, Completes (table.seek op rowid)
        (base.onPage op table.toTree trail ⟨id, -1, none⟩ (.movingBetweenPages false)) final ∧
      table.Lands op rowid final := by
  induction height generalizing id trail with
  | zero =>
    have hleaf := h.path.wellFormed.isLeaf_zero
    -- the leaf is found
    have hf : ∀ answers, table.seek op rowid answers
        (base.onPage op table.toTree trail ⟨id, -1, none⟩ (.movingBetweenPages false)) =
        .again (({ base with moveToState := .start }).onPage op table.toTree trail ⟨id, -1, none⟩
          (.foundLeaf false)) answers := by
      intro answers
      rw [tablebtreeSeek_onPage hmove (.inl rfl)]
      simp only [tablebtreeMoveTo, onPage, hleaf, if_true]
    have hstill : Fresh table.toTree { base with moveToState := .start } :=
      hfresh.congr rfl rfl rfl rfl
    rcases Nat.eq_zero_or_pos (table.store id).cellCount with hempty | hpos
    · refine ⟨{ ({ base with moveToState := .start } : SeekCursor).onPage op table.toTree trail
          ⟨id, 0, none⟩ (.foundLeaf false) with
        hasRecord := false, seekResult := some .notFound },
        .again hf (.done fun answers => ?_), ?_, ?_⟩
      · simp [tablebtreeSeek, onPage, hempty, PageStack.setCellIndex]
      · rw [h.records_eq_nil hempty, denoted_nil]
        rfl
      · exact Fresh.ready (hfresh.congr rfl rfl rfl rfl) rfl fun _ => by simp
    · obtain ⟨final, hfinal, hlands⟩ := @searchTableLeaf_lands _ op table rowid _ id trail (-1)
        none (.foundLeaf false) h hstill rfl
      refine ⟨final, .again hf (.done fun answers => ?_), hlands⟩
      rw [← hfinal]
      simp [tablebtreeSeek, onPage, hpos.ne']
  | succ height ih =>
    have hinterior := h.path.wellFormed.isLeaf_succ
    obtain ⟨closed, split, hsearch, hseen, he, hchild⟩ := tableChild h
    obtain ⟨final, hfinal, hlands⟩ := ih hchild
    have hnearest : split < (table.store id).cellCount →
        (split : ℤ) = (op.mark table.toTree (id, split)).cellIdx := by
      intro hlt
      rw [op.mark_table]
      simp [forwardNode, hlt]
    have hturn : ∀ seekState, (seekState = .movingBetweenPages false ∨
        seekState = .interiorPageBinarySearch closed) → ∀ answers,
        table.seek op rowid answers (base.onPage op table.toTree trail ⟨id, -1, none⟩ seekState) =
        readAndPush table.store answers (⟨id, (op.mark table.toTree (id, split)).cellIdx, none⟩ ::
            trail.map (op.mark table.toTree))
          ((table.store id).child split) (-1)
          (base.onPage op table.toTree trail ⟨id, -1, none⟩ (.interiorPageBinarySearch closed))
          fun stack => { base with stack, seekState := .movingBetweenPages false } := by
      intro seekState hstate answers
      have hdescend := @descend_eq _ (base.onPage op table.toTree trail ⟨id, -1, none⟩ seekState)
        op table.toTree height id trail split closed h.path he
        (fun nearest => (nearest : ℤ)) hnearest answers (-1) none
      rw [hseen] at hdescend
      rcases hstate with rfl | rfl
      · rw [tablebtreeSeek_onPage hmove (.inl rfl)]
        simp only [tablebtreeMoveTo, onPage, hinterior, Bool.false_eq_true, if_false,
          CursorSeekState.interior, hsearch]
        exact hdescend
      · rw [tablebtreeSeek_onPage hmove (.inr ⟨closed, rfl⟩)]
        simp only [tablebtreeMoveTo, onPage, hinterior, Bool.false_eq_true, if_false,
          CursorSeekState.interior, tablebtreeSearchInterior_closed he.closed]
        exact hdescend
    exact ⟨final, completes_readAndPush (push_eq h.path he.le none) (hturn _ (.inl rfl))
      (hturn _ (.inr rfl)) rfl hfinal, hlands⟩

/-! ## The start of a seek -/

section
variable (hpath : Path table.toTree 0 id trail)
include hpath

/-- The rows before a leaf are smaller than its rows, and those after it greater. -/
theorem Path.rowids_around {cell : PageCell Payload} (hcell : cell ∈ (table.store id).cells) :
    (∀ row ∈ before table.toTree 0 trail, table.rowidOf row < table.rowidOf cell.payload) ∧
      ∀ row ∈ after table.toTree 0 trail, table.rowidOf cell.payload < table.rowidOf row := by
  have hrs := table.ascending
  rw [← Tree.records, hpath.records_eq, pairwise_append, pairwise_append] at hrs
  obtain ⟨-, ⟨-, -, hafter⟩, hb⟩ := hrs
  have hm : cell.payload ∈ entries table.store table.isIndex 0 id := mem_map_of_mem hcell
  exact ⟨fun row hrow => hb row hrow _ (mem_append_left _ hm), fun row hrow => hafter _ hm row hrow⟩

/-- A leaf with rows around the rowid is where a search from the root would have come. -/
theorem Path.descended_of_between {a last : PageCell Payload}
    (ha : (table.store id).cells.head? = some a)
    (hlast : (table.store id).cells.getLast? = some last) (hge : table.rowidOf a.payload ≤ rowid)
    (hle : rowid ≤ table.rowidOf last.payload) :
    Descended (.ge true) table.toTree (table.cmp rowid) false 0 id trail := by
  have hb := (hpath.rowids_around (mem_of_head? ha)).1
  have hafter := (hpath.rowids_around (mem_of_getLast? hlast)).2
  have hgreater : ∀ row ∈ after table.toTree 0 trail, table.cmp rowid row = .gt :=
    fun row hrow => cmpRowid_eq_gt.2 (hle.trans_lt (hafter row hrow))
  refine ⟨hpath, fun row hrow => ?_, fun row hrow => ?_, fun _ => ?_, nofun⟩
  · rw [Table.cmp, cmpRowid_eq_lt.2 ((hb row hrow).trans_le hge)]
    rfl
  · rw [hgreater row hrow]
    rfl
  · simpa using fun row hrow => by simp [hgreater row hrow]

/-- Behind the last row of the table there is no row. -/
theorem Path.denoted_eq_nil {last : PageCell Payload}
    (hlast : (table.store id).cells.getLast? = some last) (hlt : table.rowidOf last.payload < rowid)
    (hafter : after table.toTree 0 trail = []) :
    denoted (.ge true) (table.cmp rowid) table.records = [] := by
  obtain ⟨cells, hcells⟩ := getLast?_eq_some_iff.1 hlast
  have hrs : table.records =
      (before table.toTree 0 trail ++ cells.map PageCell.payload) ++ [last.payload] := by
    rw [hpath.records_eq, hafter, entries, hcells]
    simp
  have hascending := table.ascending
  rw [← Tree.records, hrs, pairwise_append] at hascending
  rw [hrs]
  refine dropWhile_eq_nil_iff.2 fun r hrow => ?_
  have hrowid : table.rowidOf r < rowid := by
    rcases mem_append.1 hrow with hrow | hrow
    · exact (hascending.2.2 r hrow _ (mem_singleton_self _)).trans hlt
    · rwa [mem_singleton.1 hrow]
  rw [Table.cmp, cmpRowid_eq_lt.2 hrowid]
  rfl

end

variable {cursor : SeekCursor}

/-- What `try_start_seek_on_current_table_leaf` finds: nothing, or a leaf whose rows are around
the rowid, or the last leaf with all its rows before the rowid. -/
theorem tryStart_cases (hready : cursor.Ready table.toTree) :
    table.tryStart op rowid cursor = some .searchFromRoot ∨
      op = .ge true ∧ cursor.goingUpwards = false ∧ ∃ node trail a last,
        cursor.stack = node :: trail.map (forwardNode table.store) ∧
        Path table.toTree 0 node.page trail ∧
        (table.store node.page).cells.head? = some a ∧
        (table.store node.page).cells.getLast? = some last ∧
        ((table.tryStart op rowid cursor = some .searchCurrentLeaf ∧
            table.rowidOf a.payload ≤ rowid ∧ rowid ≤ table.rowidOf last.payload) ∨
          (table.tryStart op rowid cursor = some .notFoundAtEnd ∧
            table.rowidOf last.payload < rowid ∧ after table.toTree 0 trail = [])) := by
  unfold Table.tryStart tryStartSeekOnCurrentTableLeaf
  cases hstack : cursor.stack with
  | nil => exact .inl rfl
  | cons node ancestors =>
    dsimp only
    split_ifs with hguard
    · exact .inl rfl
    · push Not at hguard
      obtain ⟨hop, hr, -, -, hleaf⟩ := hguard
      obtain ⟨hupwards, trail, hpath, rfl⟩ :=
        hready.onLeaf table.isTable hr node ancestors hstack hleaf
      cases ha : (table.store node.page).cells.head? with
      | none => exact .inl rfl
      | some a =>
        cases hlast : (table.store node.page).cells.getLast? with
        | none => exact .inl rfl
        | some last =>
          dsimp only
          split_ifs with he hin
          · obtain ⟨more, hmore⟩ := exists_ancestorPagesHaveMoreChildren table.store trail
            rw [hmore]
            cases more with
            | true => exact .inl rfl
            | false =>
              exact .inr ⟨hop, hupwards, node, trail, a, last, rfl, hpath, ha,
                hlast, .inr ⟨rfl, he, after_eq_nil hpath hmore⟩⟩
          · exact .inr ⟨hop, hupwards, node, trail, a, last, rfl, hpath, ha, hlast,
              .inl ⟨rfl, hin, not_lt.1 he⟩⟩
          · exact .inl rfl

/-- The turns that move the cursor to the root. -/
theorem tablebtreeSeek_searchFromRoot (hstart : cursor.seekState = .start)
    (hmove : cursor.moveToState = .start)
    (hroot : table.tryStart op rowid cursor = some .searchFromRoot) (ans : List ReadAnswer) :
    table.seek op rowid ans cursor =
      match moveToRootNonblock ans cursor.toBTreeCursor with
      | (.spill, tree, rest) => .yield { cursor with toBTreeCursor := tree } rest
      | (.onRoot loading, tree, rest) =>
        let cursor := { cursor with toBTreeCursor := tree, moveToState := .moveToPage }
        if loading then .yield cursor rest else .again cursor rest := by
  rcases hmoved : moveToRootNonblock ans cursor.toBTreeCursor with ⟨_ | _, _, _⟩ <;>
    simp only [tablebtreeSeek, hstart, hroot, moveTo, hmove, hmoved, if_true]

/-- A seek that starts at the root lands. -/
theorem tablebtreeSeek_fromRoot (hready : cursor.Ready table.toTree)
    (hroot : table.tryStart op rowid cursor = some .searchFromRoot) :
    ∃ final, Completes (table.seek op rowid) cursor final ∧ table.Lands op rowid final := by
  obtain ⟨final, hcompletes, hlands⟩ := @table_lands _ op table rowid
    { cursor with goingUpwards := false, moveToState := .moveToPage } _ _ _
    (.root op table.toTree _)
    { hready with goingUpwards_eq := rfl } rfl
  refine ⟨final, ?_, hlands⟩
  let onRoot : SeekCursor :=
    { cursor with toBTreeCursor := cursor.toBTreeCursor.onRoot, moveToState := .moveToPage }
  -- on the root the search goes on as after a descent
  have hnx : Completes (table.seek op rowid) onRoot final := by
    refine Completes.of_turn_eq (fun ans => ?_) hcompletes
    have hstart : onRoot.seekState = .start := hready.seekState_eq
    have hmove : onRoot.moveToState = .moveToPage := rfl
    have hstill : table.tryStart op rowid onRoot = some .searchFromRoot := by
      simp [tryStartSeekOnCurrentTableLeaf, onRoot, BTreeCursor.onRoot]
    simp only [tablebtreeSeek, hstart, hstill, moveTo, hmove]
    simp only [onRoot, tablebtreeMoveTo, onPage, BTreeCursor.onRoot, hready.rootPage_eq,
      hready.seekState_eq, map_nil]
    rfl
  -- the cursor waits until it is there
  refine @Completes.wait _ _ _ _ _ _ (fun s => ∃ upwards, s =
    { cursor with goingUpwards := upwards }) ?_ ⟨cursor.goingUpwards, rfl⟩ hnx
  rintro s ⟨upwards, rfl⟩ ans
  rw [@tablebtreeSeek_searchFromRoot _ op table rowid { cursor with goingUpwards := upwards }
    hready.seekState_eq hready.moveToState_eq hroot]
  rcases moveToRootNonblock_cases ans { cursor.toBTreeCursor with goingUpwards := upwards } with
    ⟨rest, heq⟩ | ⟨first, rest, rfl, heq | heq⟩
  · rw [heq]
    exact .inl ⟨rest, .again _ _⟩
  · rw [heq]
    exact .inl ⟨rest, .yield _ _⟩
  · rw [heq]
    exact .inr ⟨first, rest, _, rfl, ⟨false, rfl⟩, .yield _ _⟩

/-- A seek in a table lands where the operator points. -/
theorem tablebtreeSeek_lands (op : SeekOp) (rowid : ℤ) (hready : cursor.Ready table.toTree) :
    ∃ final, Completes (table.seek op rowid) cursor final ∧ table.Lands op rowid final := by
  rcases @tryStart_cases _ op table rowid cursor hready with
    hroot | ⟨rfl, hupwards, node, trail, first, last, hstack, hpath, hfirst, hlast, hcase⟩
  · exact tablebtreeSeek_fromRoot hready hroot
  · have hfresh : cursor.Fresh table.toTree := { hready with goingUpwards_eq := hupwards }
    simp only [Table.tryStart] at hcase
    rcases hcase with ⟨hcase, hge, hle⟩ | ⟨hcase, hlt, hafter⟩
    · -- the rowid is between those of the leaf
      have hdescended := hpath.descended_of_between hfirst hlast hge hle
      obtain ⟨final, hfinal, hlands⟩ := @searchTableLeaf_lands _ _ table rowid cursor node.page
        trail node.cellIdx node.cellCount .start hdescended hfresh hready.moveToState_eq
      refine ⟨final, .done fun ans => ?_, hlands⟩
      have hcursor : cursor.onPage (.ge true) table.toTree trail node .start = cursor := by
        rw [onPage, mark_table, ← hstack, ← hready.seekState_eq]
      rw [← hfinal, hcursor, Table.seek, tablebtreeSeek, hready.seekState_eq, hcase, hstack]
      rfl
    · -- all rowids of the table are smaller
      refine ⟨{ cursor with
        stack := cursor.stack.setCellIndex (table.store node.page).cellCount
        hasRecord := false
        seekResult := some .notFound }, .done fun ans => ?_, ?_, ?_⟩
      · rw [Table.seek, tablebtreeSeek, hready.seekState_eq, hcase, hstack]
        rfl
      · exact hpath.denoted_eq_nil hlast hlt hafter
      · exact Fresh.ready (hfresh.congr rfl rfl rfl rfl) hready.moveToState_eq fun _ => by simp

end

end Turso.BTree
