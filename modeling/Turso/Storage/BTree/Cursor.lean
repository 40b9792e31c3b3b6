import Turso.Foundation.Resumable
import Turso.Storage.BTree.Page

/-!
# The B-tree cursor

The page stack of a cursor and the four operations that iterate (`core/storage/btree.rs`).
Each operation is a loop over saved state, and is modelled by one turn of that loop.  A page
read answers in one of three ways: it has to write out other pages first and must be repeated
(`spill`), or it returns the page, which may still have to be loaded (`ready true`).

The cursor is not disturbed by writes in the meantime.  So the state that serves to find a
lost position again (`context`, `valid_state`, `skip_advance`) and the one that serves to
read a long record (`read_overflow_state`) stay as they are, and are left out.
-/

namespace Turso.BTree

open Resumable

variable {Payload : Type}

/-! ## The page stack -/

/-- A page of the stack with its `BTreeNodeState`. -/
structure Node where
  page : ℕ
  cellIdx : ℤ
  cellCount : Option ℤ := none
  deriving DecidableEq, Repr

/-- `PageStack`, from the top to the root. -/
abbrev PageStack := List Node

/-- `i32::MAX`, the cell index of a page that is entered from its end. -/
def i32Max : ℤ := 2147483647

/-- `PageStack::_push`; `none` where it reports corruption or its assertion fails. -/
def PageStack.push (store : Store Payload) (stack : PageStack) (page : ℕ) (startingCellIdx : ℤ) :
    Option PageStack :=
  if stack.any (·.page = page) then none
  else if maxDepth ≤ stack.length then none
  else
    -- `populate_parent_cell_count`
    let parents := match stack with
      | [] => []
      | parent :: rest => { parent with cellCount := some (store parent.page).cellCount } :: rest
    some (⟨page, startingCellIdx, none⟩ :: parents)

/-- `set_cell_index`. -/
def PageStack.setCellIndex (stack : PageStack) (index : ℤ) : PageStack :=
  match stack with
  | [] => []
  | node :: rest => { node with cellIdx := index } :: rest

/-- `ancestor_pages_have_more_children`, over the pages below the top; `none` where a cell
count that is not set is asked for. -/
def ancestorPagesHaveMoreChildren : PageStack → Option Bool
  | [] => some false
  | node :: rest =>
    match node.cellCount with
    | none => none
    | some cellCount =>
      -- `is_at_end`
      if node.cellIdx = cellCount + 1 then ancestorPagesHaveMoreChildren rest else some true

/-! ## The cursor -/

/-- `IterationPendingDescent`. -/
inductive PendingDescent where
  | forwards (target : ℕ)
  | backwards (target : ℕ)
  deriving DecidableEq, Repr

/-- The state that `get_next_record` and `get_prev_record` work on. -/
structure Iteration where
  stack : PageStack := []
  goingUpwards : Bool := false
  pendingDescent : Option PendingDescent := none
  hasRecord : Bool := false
  deriving DecidableEq, Repr

/-- `AdvanceState`. -/
inductive AdvanceState where
  | start
  | advance
  deriving DecidableEq, Repr

/-- `RewindState`. -/
inductive RewindState where
  | start
  | nextRecord
  deriving DecidableEq, Repr

/-- `MoveToRightState`. -/
inductive MoveToRightState where
  | start
  | processPage
  deriving DecidableEq, Repr

/-- `BTreeCursor`. -/
structure BTreeCursor extends Iteration where
  rootPage : ℕ
  advanceState : AdvanceState := .start
  rewindState : RewindState := .start
  moveToRightState : MoveToRightState := .start
  rightmostPageId : Option ℕ := none
  deriving DecidableEq, Repr

/-- The answer to a page read. -/
inductive ReadAnswer where
  | spill
  | ready (loading : Bool)
  deriving DecidableEq, Repr

/-- The record the cursor is on. -/
def Iteration.record (store : Store Payload) (iteration : Iteration) : Option Payload :=
  match iteration.hasRecord, iteration.stack with
  | true, node :: _ => ((store node.page).cells[node.cellIdx.toNat]?).map PageCell.payload
  | _, _ => none

/-- Read the page `target` and push it on the stack.  `waiting` is what is saved if the read
must be repeated, and `pushed` the state with the new stack; a page that is still loading is
waited for after it was pushed. -/
def readAndPush {State : Type} (store : Store Payload) (answers : List ReadAnswer)
    (stack : PageStack) (target : ℕ) (startingCellIdx : ℤ) (waiting : State)
    (pushed : PageStack → State) : Turn State ReadAnswer :=
  match answers with
  | .spill :: rest => .yield waiting rest
  | .ready loading :: rest =>
    match stack.push store target startingCellIdx with
    | none => .failed
    | some stack => if loading then .yield (pushed stack) rest else .again (pushed stack) rest
  | [] =>
    match stack.push store target startingCellIdx with
    | none => .failed
    | some stack => .again (pushed stack) []

variable (iteration : Iteration)

/-- `descend` and `descend_backwards`, which differ in the cell index they push. -/
def Iteration.descend (stack : PageStack) : Iteration :=
  { iteration with stack, goingUpwards := false }

/-- `pop_upwards`. -/
def Iteration.popUpwards : Iteration :=
  { iteration with stack := iteration.stack.tail, goingUpwards := true }

/-- One turn of the loop of `get_next_record`. -/
def getNextRecord (store : Store Payload) (answers : List ReadAnswer) (iteration : Iteration) :
    Turn Iteration ReadAnswer :=
  match iteration.stack with
  | [] => .done { iteration with hasRecord := false }
  | node :: ancestors =>
    match iteration.pendingDescent with
    | some (.forwards target) =>
      readAndPush store answers iteration.stack target (-1) iteration
        ({ iteration with pendingDescent := none }).descend
    | _ =>
      let page := store node.page
      let cellCount : ℤ := page.cellCount
      if node.cellIdx ≠ -1 ∧ page.isLeaf ∧ node.cellIdx + 1 < cellCount then
        .done { iteration with
          stack := { node with cellIdx := node.cellIdx + 1 } :: ancestors, hasRecord := true }
      else if page.isIndex ∧ iteration.goingUpwards ∧ 0 ≤ node.cellIdx ∧
          node.cellIdx < cellCount then
        .done { iteration with goingUpwards := false, hasRecord := true }
      else
        let cellIdx := node.cellIdx + 1
        let iteration := { iteration with stack := { node with cellIdx } :: ancestors }
        if cellCount ≤ cellIdx then
          match page.rightmostPointer, decide (cellCount < cellIdx) with
          | some rightmost, false =>
            let iteration :=
              { iteration with stack := { node with cellIdx := cellIdx + 1 } :: ancestors }
            readAndPush store answers iteration.stack rightmost (-1)
              { iteration with pendingDescent := some (.forwards rightmost) }
              iteration.descend
          | _, _ =>
            match ancestorPagesHaveMoreChildren ancestors with
            | none => .failed
            | some true => .again iteration.popUpwards answers
            | some false => .done { iteration with hasRecord := false }
        else if page.isLeaf then .done { iteration with hasRecord := true }
        else if page.isIndex ∧ iteration.goingUpwards then
          .done { iteration with goingUpwards := false, hasRecord := true }
        else
          match page.leftChildPage cellIdx.toNat with
          | none => .failed
          | some leftChild =>
            readAndPush store answers iteration.stack leftChild (-1)
              { iteration with pendingDescent := some (.forwards leftChild) }
              iteration.descend

/-- The inner loop of `get_prev_record`: leave pages whose cells are all visited.  An index
page that is left at the cell whose left child was entered steps back by one more. -/
def retreatUpwards (store : Store Payload) : PageStack → PageStack
  | [] => []
  | [node] => [node]
  | child :: parent :: rest =>
    if 0 ≤ child.cellIdx then child :: parent :: rest
    else
      let page := store parent.page
      let cameFromLeftChild := page.pageType = .indexInterior ∧ 0 ≤ parent.cellIdx ∧
        parent.cellIdx < page.cellCount ∧
        page.leftChildPage parent.cellIdx.toNat = some child.page
      let cellIdx := if cameFromLeftChild then parent.cellIdx - 1 else parent.cellIdx
      retreatUpwards store ({ parent with cellIdx } :: rest)
  termination_by stack => stack.length

section
variable (store : Store Payload)

section
variable (answers : List ReadAnswer)

/-- One turn of the loop of `get_prev_record`. -/
def getPrevRecord (iteration : Iteration) : Turn Iteration ReadAnswer :=
  match iteration.stack with
  -- `current` asserts that there is a page
  | [] => .failed
  | node :: ancestors =>
    match iteration.pendingDescent with
    | some (.backwards target) =>
      readAndPush store answers iteration.stack target i32Max iteration
        ({ iteration with pendingDescent := none }).descend
    | _ =>
      let page := store node.page
      let cellCount : ℤ := page.cellCount
      match decide (node.cellIdx = i32Max) && !iteration.goingUpwards,
          page.rightmostPointer with
      | true, some rightmost =>
        -- nothing is changed before the page is there
        readAndPush store answers ({ node with cellIdx := cellCount + 1 } :: ancestors)
          rightmost i32Max iteration iteration.descend
      | _, _ =>
        if ¬ cellCount ≤ node.cellIdx ∧ 0 ≤ node.cellIdx ∧ page.isIndex ∧
            iteration.goingUpwards then
          .done { iteration with goingUpwards := false, hasRecord := true }
        else
          let cellIdx :=
            if cellCount ≤ node.cellIdx then cellCount - 1
            else if 0 ≤ node.cellIdx ∧ page.pageType ≠ .indexInterior then node.cellIdx - 1
            else node.cellIdx
          let stack : PageStack := { node with cellIdx } :: ancestors
          if cellIdx < 0 then
            let upwards := retreatUpwards store stack
            let iteration :=
              { iteration with
                stack := upwards
                goingUpwards := iteration.goingUpwards || !ancestors.isEmpty }
            if upwards.head?.any (0 ≤ ·.cellIdx) then .again iteration answers
            else .done { iteration with hasRecord := false }
          else if page.isLeaf then .done { iteration with stack, hasRecord := true }
          else if page.isIndex ∧ iteration.goingUpwards then
            .done { iteration with stack, goingUpwards := false, hasRecord := true }
          else
            match page.leftChildPage cellIdx.toNat with
            | none => .failed
            | some leftChild =>
              let cellIdx := if page.pageType = .indexInterior then cellIdx - 1 else cellIdx
              let iteration := { iteration with stack := { node with cellIdx } :: ancestors }
              readAndPush store answers iteration.stack leftChild i32Max
                { iteration with pendingDescent := some (.backwards leftChild) }
                iteration.descend

/-! ## The operations -/

section
variable (cursor : BTreeCursor)

/-- `has_pending_advance_state`. -/
def BTreeCursor.hasPendingAdvanceState : Bool :=
  cursor.advanceState ≠ .start || !cursor.hasRecord || cursor.pendingDescent.isSome

/-- `can_advance_within_leaf`. -/
def BTreeCursor.canAdvanceWithinLeaf : Bool :=
  !cursor.hasPendingAdvanceState &&
    match cursor.stack with
    | [] => false
    | node :: _ => 0 ≤ node.cellIdx && (store node.page).isLeaf &&
        node.cellIdx + 1 < (store node.page).cellCount

/-- `is_on_last_cell_of_tree`. -/
def BTreeCursor.isOnLastCellOfTree : Bool :=
  !cursor.hasPendingAdvanceState &&
    match cursor.stack with
    | [] => false
    | node :: ancestors => 0 ≤ node.cellIdx && (store node.page).isLeaf &&
        node.cellIdx + 1 = (store node.page).cellCount &&
        ancestorPagesHaveMoreChildren ancestors = some false

/-- `PageStack::advance`. -/
def PageStack.advance (stack : PageStack) : PageStack :=
  match stack with
  | [] => []
  | node :: rest => { node with cellIdx := node.cellIdx + 1 } :: rest

/-- `next`. -/
def next : Turn BTreeCursor ReadAnswer :=
  if cursor.canAdvanceWithinLeaf store then
    .done { cursor with stack := cursor.stack.advance }
  else if cursor.isOnLastCellOfTree store then
    .done { cursor with stack := cursor.stack.advance, hasRecord := false }
  else
    match cursor.advanceState with
    | .start => .again { cursor with advanceState := .advance } answers
    | .advance =>
      (getNextRecord store answers cursor.toIteration).map
        (fun iteration => { cursor with toIteration := iteration })
        (fun iteration => { cursor with toIteration := iteration, advanceState := .start })

/-- `prev`. -/
def prev : Turn BTreeCursor ReadAnswer :=
  match cursor.advanceState with
  | .start => .again { cursor with advanceState := .advance } answers
  | .advance =>
    (getPrevRecord store answers cursor.toIteration).map
      (fun iteration => { cursor with toIteration := iteration })
      (fun iteration => { cursor with toIteration := iteration, advanceState := .start })

end

end

/-- What `move_to_root_nonblock` finds: pages have to be written out first, or the cursor is on
the root, which may still be loading. -/
inductive RootRead where
  | spill
  | onRoot (loading : Bool)
  deriving DecidableEq, Repr

variable (answers : List ReadAnswer)

/-- `move_to_root_nonblock`. -/
def moveToRootNonblock (cursor : BTreeCursor) : RootRead × BTreeCursor × List ReadAnswer :=
  let cursor := { cursor with goingUpwards := false }
  let onRoot := { cursor with stack := [⟨cursor.rootPage, -1, none⟩] }
  -- `holds_root` and `pop_to_root`, or a read of the root
  if cursor.stack.getLast?.any (·.page = cursor.rootPage) then (.onRoot false, onRoot, answers)
  else
    match answers with
    | .spill :: rest => (.spill, cursor, rest)
    | .ready loading :: rest => (.onRoot loading, onRoot, rest)
    | [] => (.onRoot false, onRoot, [])

/-- A turn that moves to the root, where `entered` is the cursor once it is there. -/
def moveToRoot (cursor : BTreeCursor) (entered : BTreeCursor → BTreeCursor) :
    Turn BTreeCursor ReadAnswer :=
  match moveToRootNonblock answers cursor with
  | (.spill, cursor, rest) => .yield cursor rest
  | (.onRoot true, cursor, rest) => .yield (entered cursor) rest
  | (.onRoot false, cursor, rest) => .again (entered cursor) rest

/-- `rewind`. -/
def rewind (answers : List ReadAnswer) (cursor : BTreeCursor) : Turn BTreeCursor ReadAnswer :=
  match cursor.rewindState with
  | .start => moveToRoot answers cursor ({ · with rewindState := .nextRecord })
  | .nextRecord =>
    (getNextRecord store answers cursor.toIteration).map
      (fun iteration => { cursor with toIteration := iteration })
      (fun iteration => { cursor with toIteration := iteration, rewindState := .start })

/-- `last`, with the loop of `move_to_rightmost`. -/
def last (answers : List ReadAnswer) (cursor : BTreeCursor) : Turn BTreeCursor ReadAnswer :=
  match cursor.moveToRightState with
  | .start =>
    match cursor.rightmostPageId, cursor.stack with
    | some _, [] => .failed
    | some rightmostPageId, node :: ancestors =>
      if node.page = rightmostPageId then
        let cellCount := (store node.page).cellCount
        .done { cursor with
          stack := { node with cellIdx := cellCount - 1 } :: ancestors
          hasRecord := 0 < cellCount }
      else moveToRoot answers cursor ({ · with moveToRightState := .processPage })
    | none, _ => moveToRoot answers cursor ({ · with moveToRightState := .processPage })
  | .processPage =>
    match cursor.stack with
    | [] => .failed
    | node :: ancestors =>
      let page := store node.page
      if page.isLeaf then
        let cursor :=
          { cursor with moveToRightState := .start, rightmostPageId := some node.page }
        if 0 < page.cellCount then
          .done { cursor with
            stack := { node with cellIdx := page.cellCount - 1 } :: ancestors
            hasRecord := true }
        else .done { cursor with hasRecord := false }
      else
        match page.rightmostPointer with
        | none => .failed
        | some rightmost =>
          readAndPush store answers
            ({ node with cellIdx := page.cellCount + 1 } :: ancestors) rightmost (-1) cursor
            fun stack => { cursor with stack }

end

end Turso.BTree
