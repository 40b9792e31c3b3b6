import Turso.Storage.BTree.Backward
import Turso.Storage.BTree.Forward

/-!
# Iteration visits every record once

`rewind` and `next`, `last` and `prev` on a well-formed tree.  `rewind` puts the cursor where
all records are to come, and `next` from a record where the rest are to come; so after `n`
steps the cursor is on record `n` of the tree, and past the last one it reports the end.
Going backwards it is the same with the records reversed.

All statements are about operations run to completion under any answers of the pager
(`Completes`), so that they hold wherever the operations yield.
-/

namespace Turso.BTree

open BTreeCursor List Resumable

variable {Payload : Type} {tree : Tree Payload}
variable {cursor : BTreeCursor} {entries : List Payload} {trail : List (ℕ × ℕ)}

/-- A cursor between two operations.  If it remembers the rightmost page and is on it, its
stack is the path of rightmost children. -/
structure BTreeCursor.Idle (tree : Tree Payload) (cursor : BTreeCursor) : Prop where
  rootPage_eq : cursor.rootPage = tree.root
  advanceState_eq : cursor.advanceState = .start
  rewindState_eq : cursor.rewindState = .start
  moveToRightState_eq : cursor.moveToRightState = .start
  pendingDescent_eq : cursor.pendingDescent = none
  rightmost : ∀ id, cursor.rightmostPageId = some id → ∃ node ancestors,
    cursor.stack = node :: ancestors ∧ (node.page = id → cursor.goingUpwards = false ∧
      ∃ trail, Path tree 0 id trail ∧
        ancestors = trail.map tree.backwardNode ∧
        ∀ step ∈ trail, step.2 = (tree.store step.1).cellCount)

/-! ## Moving to the root -/

/-- The cursor on the root. -/
def BTreeCursor.onRoot (cursor : BTreeCursor) : BTreeCursor :=
  { cursor with goingUpwards := false, stack := [⟨cursor.rootPage, -1, none⟩] }

/-- `move_to_root_nonblock` reaches the root, or uses up an answer. -/
theorem moveToRootNonblock_cases (ans : List ReadAnswer) (cursor : BTreeCursor) :
    (∃ rest, moveToRootNonblock ans cursor = (.onRoot false, cursor.onRoot, rest)) ∨
      ∃ a rest, ans = a :: rest ∧
        (moveToRootNonblock ans cursor = (.onRoot true, cursor.onRoot, rest) ∨
          moveToRootNonblock ans cursor =
            (.spill, { cursor with goingUpwards := false }, rest)) := by
  unfold moveToRootNonblock
  dsimp only
  split
  · exact .inl ⟨ans, rfl⟩
  · cases ans with
    | nil => exact .inl ⟨[], rfl⟩
    | cons answer rest =>
      rcases answer with _ | (_ | _)
      · exact .inr ⟨_, rest, rfl, .inr rfl⟩
      · exact .inl ⟨rest, rfl⟩
      · exact .inr ⟨_, rest, rfl, .inl rfl⟩

variable {turn : List ReadAnswer → BTreeCursor → Turn BTreeCursor ReadAnswer}

theorem completes_moveToRoot
    {final : BTreeCursor} (entered : BTreeCursor → BTreeCursor)
    (hturn : ∀ upwards ans, turn ans { cursor with goingUpwards := upwards } =
      moveToRoot ans { cursor with goingUpwards := upwards } entered)
    (hnx : Completes turn (entered cursor.onRoot) final) : Completes turn cursor final := by
  refine @Completes.wait _ _ turn _ _ _
    (fun s => ∃ upwards, s = { cursor with goingUpwards := upwards }) ?_ ⟨cursor.goingUpwards, rfl⟩ hnx
  rintro s ⟨upwards, rfl⟩ ans
  rw [hturn, moveToRoot]
  rcases moveToRootNonblock_cases ans { cursor with goingUpwards := upwards } with
    ⟨rest, heq⟩ | ⟨first, rest, rfl, heq | heq⟩
  · rw [heq]
    exact .inl ⟨rest, .again _ _⟩
  · rw [heq]
    exact .inl ⟨rest, .yield _ _⟩
  · rw [heq]
    exact .inr ⟨first, rest, _, rfl, ⟨false, rfl⟩, .yield _ _⟩

/-- The operation completes where `positioned` holds, between two steps. -/
def Leads (turn : List ReadAnswer → BTreeCursor → Turn BTreeCursor ReadAnswer)
    (cursor : BTreeCursor) (positioned : Iteration → Prop) : Prop :=
  ∃ final, Completes turn cursor final ∧ positioned final.toIteration ∧
    final.advanceState = .start

/-- A step that starts with a turn of its own and goes on as `record` does. -/
theorem leads_of_advance
    {record : List ReadAnswer → Iteration → Turn Iteration ReadAnswer}
    {positioned : Iteration → Prop}
    (hstart : ∀ ans, turn ans cursor = .again { cursor with advanceState := .advance } ans)
    (hadvance : ∀ ans iteration,
      turn ans { cursor with toIteration := iteration, advanceState := .advance } =
        (record ans iteration).map
          (fun iteration => { cursor with toIteration := iteration, advanceState := .advance })
          (fun iteration => { cursor with toIteration := iteration, advanceState := .start }))
    (hreaches : ∃ final, Completes record cursor.toIteration final ∧ positioned final) :
    Leads turn cursor positioned := by
  obtain ⟨final, hcompletes, hfinal⟩ := hreaches
  exact ⟨{ cursor with toIteration := final, advanceState := .start },
    .again hstart (hcompletes.lift hadvance), hfinal, rfl⟩

/-! ## Forwards -/

/-- `rewind` puts the cursor where all records are to come. -/
theorem rewind_positioned (hidle : cursor.Idle tree) :
    Leads (rewind tree.store) cursor (Positioned tree · tree.records) := by
  obtain ⟨final, hcompletes, hfinal⟩ := Reaches.enter (@Path.root _ tree) cursor.hasRecord
  rw [← hidle.rootPage_eq] at hcompletes
  refine ⟨{ cursor with toIteration := final, rewindState := .start }, ?_, ?_,
    hidle.advanceState_eq⟩
  · refine completes_moveToRoot ({ · with rewindState := .nextRecord }) (fun upwards ans => ?_) ?_
    · rw [rewind, hidle.rewindState_eq]
    · simp only [onRoot, hidle.pendingDescent_eq]
      exact @Completes.lift _ _ _ _ (rewind tree.store)
        (fun iteration => { cursor with toIteration := iteration, rewindState := .nextRecord })
        (fun iteration => { cursor with toIteration := iteration, rewindState := .start })
        (fun _ _ => rfl) _ _ hcompletes
  · simpa [after, Tree.records] using hfinal

theorem next_of_reaches (hstart : cursor.advanceState = .start)
    (hleaf : cursor.canAdvanceWithinLeaf tree.store = false)
    (hlast : cursor.isOnLastCellOfTree tree.store = false)
    (hreaches : Reaches tree cursor.toIteration entries) :
    Leads (next tree.store) cursor (Positioned tree · entries) := by
  refine leads_of_advance (fun ans => ?_) (fun _ _ => rfl) hreaches
  rw [next, hleaf, hlast, hstart]
  rfl

theorem BTreeCursor.fast_paths_eq_false {id : ℕ} {cellIdx : ℤ} {cellCount : Option ℤ}
    {ancestors : PageStack} (hstack : cursor.stack = ⟨id, cellIdx, cellCount⟩ :: ancestors)
    (hleaf : (tree.store id).isLeaf = false) :
    cursor.canAdvanceWithinLeaf tree.store = false ∧
      cursor.isOnLastCellOfTree tree.store = false := by
  simp [canAdvanceWithinLeaf, isOnLastCellOfTree, hstack, hleaf]

/-- `next` goes from a record to where the rest are to come. -/
theorem next_positioned {e : Payload} {rest : List Payload}
    (hstart : cursor.advanceState = .start) (hon : OnEntry tree cursor.toIteration e rest) :
    Leads (next tree.store) cursor (Positioned tree · rest) := by
  obtain ⟨iteration, rootPage, advanceState, rewindState, moveToRightState, rightmostPageId⟩ :=
    cursor
  subst hstart
  cases hon with
  | @leaf id i trail cellCount hpath hi =>
    have hleaf := hpath.wellFormed.isLeaf_zero
    rcases Nat.lt_or_ge (i + 1) (tree.store id).cellCount with hlt | hge
    · -- the next cell of the same leaf
      refine ⟨_, .done fun ans => if_pos ?_, ?_, rfl⟩
      · simp [canAdvanceWithinLeaf, hasPendingAdvanceState, hleaf]
        omega
      · have hdrop : (tree.store id).cells.drop (i + 1) = (tree.store id).cells.get ⟨i + 1, hlt⟩ ::
              (tree.store id).cells.drop (i + 1 + 1) := drop_eq_getElem_cons hlt
        rw [hdrop]
        have hnx := @OnEntry.leaf _ tree id (i + 1) trail cellCount hpath hlt
        exact hnx
    · have hdrop : (tree.store id).cells.drop (i + 1) = [] := drop_eq_nil_of_le hge
      rw [hdrop, map_nil, nil_append]
      have hnot : ¬ (i : ℤ) + 1 < (tree.store id).cellCount := by omega
      obtain ⟨more, hmore⟩ := exists_ancestorPagesHaveMoreChildren tree.store trail
      have hleaving : Leaving (tree.store id) 0 i false :=
        ⟨by omega, fun h => absurd rfl h, .inl rfl⟩
      cases more with
      | false =>
        -- the last cell of the tree
        have heq : (i : ℤ) + 1 = (tree.store id).cellCount := by omega
        rw [after_eq_nil hpath hmore]
        refine ⟨_, .done fun ans => (if_neg ?_).trans (if_pos ?_), rfl, rfl⟩
        · simp [canAdvanceWithinLeaf, hnot]
        · simp [isOnLastCellOfTree, hasPendingAdvanceState, hleaf, heq,
            hmore]
      | true =>
        refine next_of_reaches rfl ?_ ?_ (Reaches.leave hpath hleaving)
        · simp [canAdvanceWithinLeaf, hnot]
        · simp [isOnLastCellOfTree, hmore]
  | @divider height id i trail cellCount hpath hi =>
    have hleaf := hpath.wellFormed.isLeaf_succ
    refine next_of_reaches rfl ?_ ?_ (Reaches.walk hpath hi (.inr rfl))
    · exact (fast_paths_eq_false rfl hleaf).1
    · exact (fast_paths_eq_false rfl hleaf).2

/-! ## Backwards -/

/-- If every child entered is a rightmost one, nothing comes after the path. -/
theorem after_eq_nil_of_rightmost {height : ℕ}
    (hright : ∀ step ∈ trail, step.2 = (tree.store step.1).cellCount) :
    after tree height trail = [] := by
  induction trail generalizing height with
  | nil => rfl
  | cons step trail ih =>
    obtain ⟨id, i⟩ := step
    have hi : i = (tree.store id).cellCount := hright _ mem_cons_self
    rw [after, hi, behind_cellCount, ih fun x hx => hright x (mem_cons_of_mem _ hx)]
    rfl

/-- The last cell of the rightmost leaf: all records are to come. -/
theorem positionedBack_rightmost {id : ℕ} (hpath : Path tree 0 id trail)
    (hright : ∀ step ∈ trail, step.2 = (tree.store step.1).cellCount) (cellCount : Option ℤ) :
    PositionedBack tree ⟨⟨id, ((tree.store id).cellCount : ℤ) - 1, cellCount⟩ ::
        trail.map tree.backwardNode, false, none,
        decide (0 < (tree.store id).cellCount)⟩ tree.records.reverse := by
  rw [hpath.records_eq, after_eq_nil_of_rightmost hright, append_nil, entries]
  rcases Nat.eq_zero_or_pos (tree.store id).cellCount with hzero | hpos
  · have hnil : (tree.store id).cells = [] := length_eq_zero_iff.1 hzero
    rw [hnil, hpath.trail_eq_nil hnil, hzero]
    rfl
  · obtain ⟨last, hlast⟩ := Nat.exists_eq_add_one.2 hpos
    have hlt : last < (tree.store id).cellCount := by omega
    have hcast : ((tree.store id).cellCount : ℤ) - 1 = last := by omega
    rw [reverse_append_cells hlt hlast, hcast, decide_eq_true hpos]
    exact .leaf hpath hlt

/-- The descent of `move_to_rightmost`. -/
theorem last_processPage {height id : ℕ} {rootPage : ℕ} {r : Bool} {rewindState : RewindState}
    {rightmostPageId : Option ℕ} (hpath : Path tree height id trail)
    (hright : ∀ step ∈ trail, step.2 = (tree.store step.1).cellCount) :
    Leads (last tree.store) ⟨⟨⟨id, -1, none⟩ :: trail.map tree.backwardNode, false, none, r⟩,
        rootPage, .start, rewindState, .processPage, rightmostPageId⟩
      (PositionedBack tree · tree.records.reverse) := by
  induction height generalizing id trail with
  | zero =>
    have hleaf := hpath.wellFormed.isLeaf_zero
    have hpositioned := positionedBack_rightmost hpath hright none
    refine ⟨⟨_, rootPage, .start, rewindState, .start, some id⟩, .done fun ans => ?_,
      hpositioned, rfl⟩
    simp only [last, hleaf, if_true]
    rcases Nat.eq_zero_or_pos (tree.store id).cellCount with hzero | hpos
    · simp [hzero]
    · simp [hpos]
  | succ height ih =>
    have hwell := hpath.wellFormed
    have hpush := @Path.push _ tree height id (tree.store id).cellCount trail hpath le_rfl
      tree.backwardNode (fun _ => rfl) ((tree.store id).cellCount + 1) (-1)
      none
    have hchild := hpath.child (le_refl (tree.store id).cellCount)
    rw [Page.child_cellCount] at hpush hchild
    obtain ⟨final, hcompletes, hfinal⟩ := ih hchild (forall_mem_cons.2 ⟨rfl, hright⟩)
    rw [map_cons, Tree.backwardNode, backwardNode_cellCount] at hcompletes
    let cursor : BTreeCursor := ⟨⟨⟨id, -1, none⟩ :: trail.map tree.backwardNode, false, none, r⟩,
      rootPage, .start, rewindState, .processPage, rightmostPageId⟩
    have hturn : ∀ ans, last tree.store ans cursor =
        readAndPush tree.store ans (⟨id, (tree.store id).cellCount + 1, none⟩ ::
          trail.map tree.backwardNode) (tree.store id).rightmost (-1) cursor
          fun stack => { cursor with stack := stack } := by
      intro ans
      simp only [cursor, last, hwell.isLeaf_succ, hwell.rightmostPointer_succ, Bool.false_eq_true,
        if_false]
    exact ⟨final, completes_readAndPush hpush hturn hturn rfl hcompletes, hfinal⟩

/-- `last` puts the cursor where all records are to come, the last one first. -/
theorem last_positioned (hidle : cursor.Idle tree) :
    Leads (last tree.store) cursor (PositionedBack tree · tree.records.reverse) := by
  obtain ⟨⟨stack, upwards, pendingDescent, r⟩, rootPage, advanceState, rewindState,
    moveToRightState, rightmostPageId⟩ := cursor
  obtain ⟨hroot, hadvance, -, hmove, hpending, hcache⟩ := hidle
  subst hroot hadvance hmove hpending
  obtain ⟨final, hcompletes, hfinal⟩ := @last_processPage _ tree _ _ _ tree.root r rewindState
    rightmostPageId (@Path.root _ tree) (by simp)
  -- the descent from the root, unless the cursor is on the page it remembers
  have hdescend : (∀ upwards ans, last tree.store ans
      ⟨⟨stack, upwards, none, r⟩, tree.root, .start, rewindState, .start, rightmostPageId⟩ =
        moveToRoot ans
          ⟨⟨stack, upwards, none, r⟩, tree.root, .start, rewindState, .start, rightmostPageId⟩
          ({ · with moveToRightState := .processPage })) →
      Leads (last tree.store)
        ⟨⟨stack, upwards, none, r⟩, tree.root, .start, rewindState, .start, rightmostPageId⟩
        (PositionedBack tree · tree.records.reverse) := by
    intro hturn
    exact ⟨final, completes_moveToRoot _ hturn hcompletes, hfinal⟩
  cases rightmostPageId with
  | none => exact hdescend fun upwards ans => rfl
  | some rightmost =>
    obtain ⟨node, ancestors, rfl, honPage⟩ := hcache rightmost rfl
    by_cases hp : node.page = rightmost
    · obtain ⟨rfl, trail, hpath, rfl, hright⟩ := honPage hp
      subst hp
      refine ⟨_, .done fun ans => if_pos rfl,
        positionedBack_rightmost hpath hright node.cellCount, rfl⟩
    · exact hdescend fun upwards ans => if_neg hp

theorem prev_of_reaches (hstart : cursor.advanceState = .start)
    (hreaches : ReachesBack tree cursor.toIteration entries) :
    Leads (prev tree.store) cursor (PositionedBack tree · entries) := by
  refine leads_of_advance (fun ans => ?_) (fun _ _ => rfl) hreaches
  rw [prev, hstart]

/-! ## Whole scans -/

/-- A scan: `first` starts it, and after `step` was repeated `count` times the cursor is on
entry number `count` of `entries`, and at the end after the last. -/
def Scans (store : Store Payload) (first step : List ReadAnswer → BTreeCursor →
    Turn BTreeCursor ReadAnswer) (cursor : BTreeCursor) (entries : List Payload) : Prop :=
  ∃ start, Completes first cursor start ∧ ∀ count ≤ entries.length, ∃ reached,
    Repeats step count start reached ∧ reached.record store = entries[count]? ∧
      reached.hasRecord = decide (count < entries.length)

/-- A scan whose steps go through `positioned`, what is to come at each position. -/
theorem Scans.of_steps {u step : List ReadAnswer → BTreeCursor → Turn BTreeCursor ReadAnswer}
    {positioned : Iteration → List Payload → Prop}
    (hu : Leads u cursor (positioned · entries))
    (hstep : ∀ {s : BTreeCursor} {e rest}, s.advanceState = .start →
      positioned s.toIteration (e :: rest) → Leads step s (positioned · rest))
    (hno : ∀ {iteration}, positioned iteration [] → iteration.hasRecord = false)
    (hon : ∀ {iteration e rest}, positioned iteration (e :: rest) →
      iteration.record tree.store = some e) :
    Scans tree.store u step cursor entries := by
  obtain ⟨start, hcompletes, hpositioned, hadvance⟩ := hu
  -- after some steps, the entries from there on are to come
  have hrepeats : ∀ n ≤ entries.length, ∃ reached, Repeats step n start reached ∧
      positioned reached.toIteration (entries.drop n) ∧ reached.advanceState = .start := by
    intro n hn
    induction n with
    | zero => exact ⟨start, .zero start, by simpa using hpositioned, hadvance⟩
    | succ n ih =>
      obtain ⟨s, hrepeats, hs, hidle⟩ := ih (by omega)
      rw [drop_eq_getElem_cons (by omega)] at hs
      obtain ⟨final, hcompletes, hfinal⟩ := hstep hidle hs
      exact ⟨final, .succ hrepeats hcompletes, hfinal⟩
  refine ⟨start, hcompletes, fun n hn => ?_⟩
  obtain ⟨reached, hrepeated, hreached, -⟩ := hrepeats n hn
  refine ⟨reached, hrepeated, ?_⟩
  rcases hn.eq_or_lt with rfl | hlt
  · rw [drop_length] at hreached
    simp [Iteration.record, hno hreached]
  · rw [drop_eq_getElem_cons hlt] at hreached
    have hrecord := hon hreached
    refine ⟨by rw [hrecord, getElem?_eq_getElem hlt], ?_⟩
    rw [decide_eq_true hlt]
    by_contra hhas
    simp [Iteration.record, hhas] at hrecord

/-- **Iteration is complete and in order.**  On every well-formed tree, `rewind` and repeated
`next` visit all records in order and then report the end, and `last` and repeated `prev`
visit them in reverse, wherever the operations yield. -/
theorem iteration_complete (tree : Tree Payload) {cursor : BTreeCursor} (hidle : cursor.Idle tree) :
    Scans tree.store (rewind tree.store) (next tree.store) cursor tree.records ∧
      Scans tree.store (last tree.store) (prev tree.store) cursor tree.records.reverse :=
  ⟨.of_steps (rewind_positioned hidle) next_positioned (fun h => h) OnEntry.record_eq,
    .of_steps (last_positioned hidle) (fun hstart hon => prev_of_reaches hstart hon.reaches)
      (fun h => h) OnEntryBack.record_eq⟩

/-- An index with one interior entry between two leaves. -/
def twoLeavesStore : Store ℕ
  | 1 => ⟨.indexInterior, [⟨2, 20⟩], 3⟩
  | 2 => ⟨.indexLeaf, [⟨0, 10⟩, ⟨0, 11⟩], 0⟩
  | _ => ⟨.indexLeaf, [⟨0, 30⟩], 0⟩

def twoLeaves : Tree ℕ where
  store := twoLeavesStore
  isIndex := true
  root := 1
  height := 1
  wellFormed := by
    refine ⟨⟨rfl, by decide⟩, fun index hindex => ?_⟩
    have hcases : index = 0 ∨ index = 1 := by
      have : (twoLeavesStore 1).cellCount = 1 := rfl
      omega
    rcases hcases with rfl | rfl
    · exact ⟨⟨rfl, by decide⟩, fun _ => cons_ne_nil _ _⟩
    · exact ⟨⟨rfl, by decide⟩, fun _ => cons_ne_nil _ _⟩
  nodup := by decide
  height_lt := by decide

theorem iteration_complete_twoLeaves :
    Scans twoLeavesStore (rewind twoLeavesStore) (next twoLeavesStore) { rootPage := 1 }
        [10, 11, 20, 30] ∧
      Scans twoLeavesStore (last twoLeavesStore) (prev twoLeavesStore) { rootPage := 1 }
        [30, 20, 11, 10] :=
  iteration_complete twoLeaves ⟨rfl, rfl, rfl, rfl, rfl, nofun⟩

end Turso.BTree
