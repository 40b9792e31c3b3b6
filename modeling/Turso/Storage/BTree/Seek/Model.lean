import Turso.Foundation.Bisection
import Turso.Storage.BTree.Cursor

/-!
# Seeking

`seek` of the B-tree cursor (`core/storage/btree.rs`): move from the root to the leaf where
the key belongs, and find it there.  On every page the cell to go on with is found by
bisection.  As for the other operations, one turn is modelled; the state that is saved where
the source can yield is `SeekCursor`.

The two kinds of trees are searched by code of their own.  A table compares rowids and never
yields during a bisection.  An index compares records, and the payload of a cell that has
overflow pages has to be read, so that every comparison is a turn.  Interior cells of an index
are entries, so its search has to remember whether it has passed an equal one (`eqSeen`).
-/

namespace Turso.BTree

open Resumable

variable {Payload : Type}

/-! ## Operators and results -/

/-- `IterationDirection`. -/
inductive IterationDirection where
  | forwards
  | backwards
  deriving DecidableEq, Repr

/-- `SeekOp`. -/
inductive SeekOp where
  | ge (eqOnly : Bool)
  | gt
  | le (eqOnly : Bool)
  | lt
  deriving DecidableEq, Repr

namespace SeekOp

/-- `iteration_direction`. -/
def iterationDirection : SeekOp → IterationDirection
  | ge _ | gt => .forwards
  | le _ | lt => .backwards

/-- `eq_only`. -/
def eqOnly : SeekOp → Bool
  | ge eqOnly | le eqOnly => eqOnly
  | gt | lt => false

/-- `get_tie_breaker_from_seek_op`. -/
def tieBreaker : SeekOp → Ordering
  | ge true | le true => .eq
  | ge false => .gt
  | gt => .lt
  | le false => .lt
  | lt => .gt

/-- Whether a cell of a leaf that compares as `cmp` with the key matches. -/
def found : SeekOp → Ordering → Bool
  | gt, cmp => cmp.isGT
  | ge true, cmp => cmp.isEq
  | ge false, cmp => cmp.isGE
  | le true, cmp => cmp.isEq
  | le false, cmp => cmp.isLE
  | lt, cmp => cmp.isLT

end SeekOp

/-- `SeekResult`. -/
inductive SeekResult where
  | found
  | notFound
  | tryAdvance
  deriving DecidableEq, Repr

/-! ## Saved state -/

/-- `InteriorPageBinarySearchState`. -/
structure InteriorPageBinarySearchState extends Bisection.State where
  eqSeen : Bool
  deriving DecidableEq, Repr

/-- `LeafPageBinarySearchState`. -/
structure LeafPageBinarySearchState extends Bisection.State where
  eqSeen : Bool
  targetCellWhenNotFound : ℤ
  deriving DecidableEq, Repr

/-- `CursorSeekState`. -/
inductive CursorSeekState where
  | start
  | movingBetweenPages (eqSeen : Bool)
  | interiorPageBinarySearch (state : InteriorPageBinarySearchState)
  | foundLeaf (eqSeen : Bool)
  | leafPageBinarySearch (state : LeafPageBinarySearchState)
  deriving DecidableEq, Repr

/-- `MoveToState`. -/
inductive MoveToState where
  | start
  | moveToPage
  deriving DecidableEq, Repr

/-- The cursor with the state of its seeks, and what the last of them returned. -/
structure SeekCursor extends BTreeCursor where
  seekState : CursorSeekState := .start
  moveToState : MoveToState := .start
  seekResult : Option SeekResult := none
  deriving DecidableEq, Repr

/-- The state of the search on an interior page, a new one when the page was just entered. -/
def CursorSeekState.interior (seekState : CursorSeekState) (cellCount : ℕ) :
    InteriorPageBinarySearchState :=
  match seekState with
  | .interiorPageBinarySearch state => state
  | .movingBetweenPages eqSeen => ⟨⟨0, cellCount - 1, none⟩, eqSeen⟩
  | _ => ⟨⟨0, cellCount - 1, none⟩, false⟩

/-- The state at the start of the search on a leaf. -/
def leafPageBinarySearchStart (op : SeekOp) (cellCount : ℕ) (eqSeen : Bool) :
    LeafPageBinarySearchState where
  min := 0
  max := cellCount - 1
  eqSeen := eqSeen
  targetCellWhenNotFound :=
    match op.iterationDirection with
    | .forwards => cellCount
    | .backwards => -1

/-- One step of the search on a leaf, after the middle cell was compared.  `exactForward` is
the variant for tables that looks for an equal cell only, where the target is set at the end. -/
def LeafPageBinarySearchState.step (op : SeekOp) (exactForward : Bool) (cmp : Ordering)
    (state : LeafPageBinarySearchState) : LeafPageBinarySearchState :=
  if op.found cmp then
    match op.iterationDirection with
    | .forwards => { state with toState := state.narrow true true }
    | .backwards => { state with toState := state.narrow false true }
  else if cmp.isGT then
    { state with
      toState := state.narrow true false
      targetCellWhenNotFound :=
        if ¬ exactForward ∧ op = .ge true then min state.targetCellWhenNotFound state.middle
        else state.targetCellWhenNotFound }
  else if exactForward ∨ cmp.isLT then
    { state with
      toState := state.narrow false false
      targetCellWhenNotFound :=
        if op = .le true then max state.targetCellWhenNotFound state.middle
        else state.targetCellWhenNotFound }
  else
    match op.iterationDirection with
    | .forwards => { state with toState := state.narrow false false }
    | .backwards => { state with toState := state.narrow true false }

/-- Every step makes the range smaller. -/
theorem LeafPageBinarySearchState.step_lt {s : LeafPageBinarySearchState}
    (hopen : s.min ≤ s.max) (op : SeekOp) (exactForward : Bool) (cmp : Ordering) :
    ((s.step op exactForward cmp).max + 1 - (s.step op exactForward cmp).min).toNat <
      (s.max + 1 - s.min).toNat := by
  have hnarrow := Bisection.State.narrow_lt hopen
  unfold step
  split_ifs
  · cases op.iterationDirection with
    | forwards => exact hnarrow true true
    | backwards => exact hnarrow false true
  · exact hnarrow true false
  · exact hnarrow true false
  · exact hnarrow false false
  · exact hnarrow false false
  · cases op.iterationDirection with
    | forwards => exact hnarrow false false
    | backwards => exact hnarrow true false

/-- Read the page the search goes on with: the left child of the cell `nearest`, or the
rightmost one.  `atNearest` is the cell index the parent is left at. -/
def SeekCursor.descend (store : Store Payload) (answers : List ReadAnswer) (cursor : SeekCursor)
    (node : Node) (ancestors : PageStack) (state : InteriorPageBinarySearchState)
    (atNearest : ℕ → ℤ) : Turn SeekCursor ReadAnswer :=
  let page := store node.page
  let readPage (child : ℕ) (cellIdx : ℤ) :=
    readAndPush store answers ({ node with cellIdx } :: ancestors) child (-1)
      { cursor with seekState := .interiorPageBinarySearch state }
      fun stack => { cursor with stack, seekState := .movingBetweenPages state.eqSeen }
  match state.nearest with
  | some nearest =>
    match page.leftChildPage nearest with
    | none => .failed
    | some leftChild => readPage leftChild (atNearest nearest)
  | none =>
    match page.rightmostPointer with
    | none => .failed
    | some rightmost => readPage rightmost (page.cellCount + 1)

/-! ## Tables -/

/-- `i64::MAX`. -/
def i64Max : ℤ := 9223372036854775807

/-- The test of `tablebtree_search_interior`; `none` where `cell_rowid + 1` overflows. -/
def SeekOp.isOnLeft (op : SeekOp) (cellRowid rowid : ℤ) : Option Bool :=
  match op with
  | .ge _ | .le _ => some (rowid ≤ cellRowid)
  | .gt => some (rowid < cellRowid)
  | .lt => if cellRowid = i64Max then none else some (rowid ≤ cellRowid + 1)

section Table
variable (rowidOf : Payload → ℤ) (rowid : ℤ) (op : SeekOp)

/-- `tablebtree_search_interior`. -/
def tablebtreeSearchInterior (page : Page Payload) (state : InteriorPageBinarySearchState) :
    Option InteriorPageBinarySearchState :=
  if state.min ≤ state.max then
    match page.cells[state.index]? with
    | none => none
    | some cell =>
      match op.isOnLeft (rowidOf cell.payload) rowid with
      | none => none
      | some isOnLeft =>
        tablebtreeSearchInterior page { state with toState := state.narrow isOnLeft isOnLeft }
  else some state
  termination_by (state.max + 1 - state.min).toNat
  decreasing_by exact Bisection.State.narrow_lt (by assumption) _ _

/-- One turn of `tablebtree_move_to`, with `tablebtree_move_inner`. -/
def tablebtreeMoveTo (store : Store Payload) (answers : List ReadAnswer) (cursor : SeekCursor) :
    Turn SeekCursor ReadAnswer :=
  match cursor.stack with
  | [] => .failed
  | node :: ancestors =>
    let page := store node.page
    if page.isLeaf then
      .again { cursor with seekState := .foundLeaf false, moveToState := .start } answers
    else
      match tablebtreeSearchInterior rowidOf rowid op page
          (cursor.seekState.interior page.cellCount) with
      | none => .failed
      | some state => cursor.descend store answers node ancestors state fun nearest => nearest

/-- `move_to` of a table key. -/
def moveTo (store : Store Payload) (answers : List ReadAnswer) (cursor : SeekCursor) :
    Turn SeekCursor ReadAnswer :=
  match cursor.moveToState with
  | .moveToPage => tablebtreeMoveTo rowidOf rowid op store answers cursor
  | .start =>
    if cursor.seekState = .start then
      match moveToRootNonblock answers cursor.toBTreeCursor with
      | (.spill, tree, rest) => .yield { cursor with toBTreeCursor := tree } rest
      | (.onRoot loading, tree, rest) =>
        let cursor := { cursor with toBTreeCursor := tree, moveToState := .moveToPage }
        if loading then .yield cursor rest else .again cursor rest
    else .again { cursor with moveToState := .moveToPage } answers

/-- `CurrentTableLeafSeek`. -/
inductive CurrentTableLeafSeek where
  | searchFromRoot
  | searchCurrentLeaf
  | notFoundAtEnd
  deriving DecidableEq, Repr

/-- `try_start_seek_on_current_table_leaf`: a seek for an equal rowid may stay on its leaf. -/
def tryStartSeekOnCurrentTableLeaf (store : Store Payload) (cursor : SeekCursor) :
    Option CurrentTableLeafSeek :=
  match cursor.stack with
  | [] => some .searchFromRoot
  | node :: ancestors =>
    let page := store node.page
    if op ≠ .ge true ∨ ¬ cursor.hasRecord ∨ cursor.moveToState ≠ .start ∨ ¬ page.isTable ∨
        ¬ page.isLeaf then
      some .searchFromRoot
    else
      match page.cells.head?, page.cells.getLast? with
      | some first, some last =>
        if rowidOf last.payload < rowid then
          (ancestorPagesHaveMoreChildren ancestors).map fun more =>
            if more then .searchFromRoot else .notFoundAtEnd
        else if rowidOf first.payload ≤ rowid then some .searchCurrentLeaf
        else some .searchFromRoot
      | _, _ => some .searchFromRoot

/-- `LeafSearchOutcome`. -/
structure LeafSearchOutcome where
  cellIndex : ℤ
  hasRecord : Option Bool
  result : SeekResult
  deriving DecidableEq, Repr

/-- `leaf_search`. -/
def leafSearch (exactForward : Bool) (page : Page Payload) (state : LeafPageBinarySearchState) :
    Option LeafSearchOutcome :=
  if state.min ≤ state.max then
    match page.cells[state.index]? with
    | none => none
    | some cell =>
      let cmp := compare (rowidOf cell.payload) rowid
      if op.found cmp ∧ op.eqOnly then some ⟨state.middle, some true, .found⟩
      else leafSearch exactForward page (state.step op exactForward cmp)
  else
    let target := if exactForward then state.min else state.targetCellWhenNotFound
    match exactForward, state.nearest with
    | false, some nearest => some ⟨nearest, some true, .found⟩
    | _, _ =>
      -- a range seek may find its match on the next leaf
      if op.eqOnly then some ⟨target, some (0 ≤ target && target < page.cellCount), .notFound⟩
      else some ⟨target, none, .tryAdvance⟩
  termination_by (state.max + 1 - state.min).toNat
  decreasing_by exact LeafPageBinarySearchState.step_lt (by assumption) _ _ _

/-- `tablebtree_leaf_search`. -/
def tablebtreeLeafSearch (page : Page Payload) (state : LeafPageBinarySearchState) :
    Option LeafSearchOutcome :=
  leafSearch rowidOf rowid op (decide (op = .ge true)) page state

/-- The end of `tablebtree_seek`: search the leaf on top of the stack. -/
def searchTableLeaf (store : Store Payload) (cursor : SeekCursor)
    (state : LeafPageBinarySearchState) : Turn SeekCursor ReadAnswer :=
  match cursor.stack with
  | [] => .failed
  | node :: _ =>
    match tablebtreeLeafSearch rowidOf rowid op (store node.page) state with
    | none => .failed
    | some outcome =>
      .done { cursor with
        stack := cursor.stack.setCellIndex outcome.cellIndex
        hasRecord := outcome.hasRecord.getD cursor.hasRecord
        seekResult := some outcome.result }

/-- `tablebtree_seek`. -/
def tablebtreeSeek (store : Store Payload) (answers : List ReadAnswer) (cursor : SeekCursor) :
    Turn SeekCursor ReadAnswer :=
  let cellCount := (cursor.stack.head?.map fun node => (store node.page).cellCount).getD 0
  match cursor.seekState with
  | .start =>
    match tryStartSeekOnCurrentTableLeaf rowidOf rowid op store cursor with
    | none => .failed
    | some .searchFromRoot => moveTo rowidOf rowid op store answers cursor
    | some .searchCurrentLeaf =>
      searchTableLeaf rowidOf rowid op store cursor
        (leafPageBinarySearchStart op cellCount false)
    | some .notFoundAtEnd =>
      .done { cursor with
        stack := cursor.stack.setCellIndex cellCount
        hasRecord := false
        seekResult := some .notFound }
  | .movingBetweenPages _ | .interiorPageBinarySearch _ =>
    moveTo rowidOf rowid op store answers cursor
  | .foundLeaf _ =>
    if cellCount = 0 then
      .done { cursor with
        stack := cursor.stack.setCellIndex 0, hasRecord := false, seekResult := some .notFound }
    else
      searchTableLeaf rowidOf rowid op store cursor (leafPageBinarySearchStart op cellCount false)
  | .leafPageBinarySearch state => searchTableLeaf rowidOf rowid op store cursor state

end Table

/-! ## Indexes -/

/-- How the cells of an index compare with the key that is sought, for a given tie-breaker, and
which of them have overflow pages. -/
structure IndexKey (Payload : Type) where
  comparePayload : Payload → Ordering → Ordering
  overflows : Payload → Bool

/-- Read the payload of a cell: if it has overflow pages the reading may yield any number of
times, and the operation then starts again at the same cell. -/
def readCellPayload {State : Type} (overflows : Bool) (answers : List ReadAnswer) (waiting : State)
    (compared : List ReadAnswer → Turn State ReadAnswer) : Turn State ReadAnswer :=
  match overflows, answers with
  | true, .spill :: rest => .yield waiting rest
  | true, .ready true :: rest => .yield waiting rest
  | true, .ready false :: rest => compared rest
  | _, answers => compared answers

section Index
variable (key : IndexKey Payload) (op : SeekOp)

/-- Whether the search goes on in the left subtree of a cell that compares as `cmp`. -/
def SeekOp.inLeftSubtree : SeekOp → Ordering → Bool
  | .gt, cmp => cmp.isGT
  | .ge _, cmp => cmp.isGE
  | .le _, cmp => cmp.isGT
  | .lt, cmp => cmp.isGE

section
variable (store : Store Payload)

section
variable (answers : List ReadAnswer)

/-- One turn of `indexbtree_move_to_internal`, with `indexbtree_move_to_inner`. -/
def indexbtreeMoveTo (cursor : SeekCursor) : Turn SeekCursor ReadAnswer :=
  match cursor.stack with
  | [] => .failed
  | node :: ancestors =>
    let page := store node.page
    if page.isLeaf then
      let eqSeen := match cursor.seekState with
        | .movingBetweenPages eqSeen => eqSeen
        | _ => false
      .again { cursor with seekState := .foundLeaf eqSeen } answers
    else
      let state := cursor.seekState.interior page.cellCount
      if state.min ≤ state.max then
        match page.cells[state.index]? with
        | none => .failed
        | some cell =>
          let cursor := { cursor with stack := cursor.stack.setCellIndex state.middle }
          readCellPayload (key.overflows cell.payload) answers
            { cursor with seekState := .interiorPageBinarySearch state } fun rest =>
              let cmp := key.comparePayload cell.payload op.tieBreaker
              let left := op.inLeftSubtree cmp
              .again { cursor with
                seekState := .interiorPageBinarySearch
                  ⟨state.narrow left left, state.eqSeen || cmp.isEq⟩ } rest
      else
        -- backwards, the parent steps back before its left child is entered
        cursor.descend store answers node ancestors state fun nearest =>
          match op.iterationDirection with
          | .forwards => nearest
          | .backwards => nearest - 1

/-- One turn of `indexbtree_seek_impl`. -/
def indexbtreeSeekImpl (cursor : SeekCursor) (state : LeafPageBinarySearchState) :
    Turn SeekCursor ReadAnswer :=
  match cursor.stack with
  | [] => .failed
  | node :: _ =>
    let page := store node.page
    if state.min ≤ state.max then
      match page.cells[state.index]? with
      | none => .failed
      | some cell =>
        let cursor := { cursor with stack := cursor.stack.setCellIndex state.middle }
        readCellPayload (key.overflows cell.payload) answers
          { cursor with seekState := .leafPageBinarySearch state } fun rest =>
            let cmp := key.comparePayload cell.payload op.tieBreaker
            .again { cursor with
              seekState := .leafPageBinarySearch (state.step op false cmp) } rest
    else
      match state.nearest with
      | some nearest =>
        .done { cursor with
          stack := cursor.stack.setCellIndex nearest
          hasRecord := true
          seekResult := some .found }
      | none =>
        let target := state.targetCellWhenNotFound
        .done { cursor with
          stack := cursor.stack.setCellIndex target
          hasRecord := decide (0 ≤ target) && decide (target < page.cellCount)
          seekResult := some (if op.eqOnly ∧ ¬ state.eqSeen then .notFound else .tryAdvance) }

/-- `indexbtree_seek_internal`. -/
def indexbtreeSeek (cursor : SeekCursor) : Turn SeekCursor ReadAnswer :=
  match cursor.seekState with
  | .start =>
    match moveToRootNonblock answers cursor.toBTreeCursor with
    | (.spill, tree, rest) => .yield { cursor with toBTreeCursor := tree } rest
    | (.onRoot true, tree, rest) => .yield { cursor with toBTreeCursor := tree } rest
    | (.onRoot false, tree, rest) =>
      indexbtreeMoveTo key op store rest { cursor with toBTreeCursor := tree }
  | .movingBetweenPages _ | .interiorPageBinarySearch _ =>
    indexbtreeMoveTo key op store answers cursor
  | .foundLeaf eqSeen =>
    let cellCount := (cursor.stack.head?.map fun node => (store node.page).cellCount).getD 0
    if cellCount = 0 then
      .done { cursor with hasRecord := false, seekResult := some .notFound }
    else
      .again { cursor with
        seekState := .leafPageBinarySearch (leafPageBinarySearchStart op cellCount eqSeen) }
        answers
  | .leafPageBinarySearch state => indexbtreeSeekImpl key op store answers cursor state

end

end

end Index

/-! ## The operation -/

/-- `SeekKey`, with how cells are compared with it. -/
inductive SeekKey (Payload : Type) where
  | tableRowId (rowidOf : Payload → ℤ) (rowid : ℤ)
  | indexKey (key : IndexKey Payload)

/-- `seek`, with `do_seek`. -/
def seek (store : Store Payload) (key : SeekKey Payload) (op : SeekOp) (answers : List ReadAnswer)
    (cursor : SeekCursor) : Turn SeekCursor ReadAnswer :=
  (match key with
    | .tableRowId rowidOf rowid => tablebtreeSeek rowidOf rowid op store answers cursor
    | .indexKey key => indexbtreeSeek key op store answers cursor).map id
      ({ · with seekState := .start })

end Turso.BTree
