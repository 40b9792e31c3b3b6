import Mathlib.Data.List.Induction
import Mathlib.Algebra.Order.Ring.Int

/-!
# Automatic rowids

Every table has a counter that automatic rowids are taken from (`RowidAllocator` in
`core/mvcc/database/mod.rs`, `start_new_rowid` and `initialize_max_rowid` in `core/mvcc/cursor.rs`).
It starts at 0, an insert with a rowid of its own raises it, and the first transaction that asks for
an automatic rowid seeds it with the largest rowid that it sees.

The table is the committed rows and, for each open transaction, the rows that it began with and the
ones it has inserted and deleted since.  A rowid is an `i64`; the counter stops at the largest.
-/

namespace Turso.Mvcc

open List

structure RowidAllocator where
  maxRowid : ℤ := 0
  initialized : Bool := false
  deriving DecidableEq, Repr

namespace RowidAllocator

variable (allocator : RowidAllocator)

/-- The new rowid, with the one before it unless the table was empty. -/
def getNextRowid : Option (ℤ × Option ℤ) :=
  if allocator.maxRowid = 2 ^ 63 - 1 then none
  else some (allocator.maxRowid + 1,
    if allocator.maxRowid = 0 then none else some allocator.maxRowid)

def insertRowIdMaybeUpdate (rowid : ℤ) : RowidAllocator :=
  if rowid ≤ allocator.maxRowid then allocator else { allocator with maxRowid := rowid }

def initializeMaxRowid (rowid : Option ℤ) : RowidAllocator where
  maxRowid :=
    match rowid with
    | some rowid => if allocator.maxRowid = 0 then rowid else max allocator.maxRowid rowid
    | none => allocator.maxRowid
  initialized := true

end RowidAllocator

/-- What a transaction sees of the table. -/
structure TableView where
  snapshot : List ℤ
  inserted : List ℤ := []
  deleted : List ℤ := []
  deriving DecidableEq, Repr

/-- The rowid that `seek_to_last` finds. -/
def TableView.maxRowid (view : TableView) : Option ℤ :=
  (view.snapshot.filter (· ∉ view.deleted) ++ view.inserted).max?

/-- A table; `handedOut` are the automatic rowids so far. -/
structure RowidTable where
  committed : List ℤ
  views : ℕ → Option TableView := fun _ => none
  allocator : RowidAllocator := {}
  handedOut : List ℤ := []

inductive RowidOperation where
  | begin (tx : ℕ)
  | insert (tx : ℕ) (rowid : ℤ)
  | delete (tx : ℕ) (rowid : ℤ)
  | commit (tx : ℕ)
  | rollback (tx : ℕ)
  | initializeMaxRowid (tx : ℕ)
  | newRowid
  deriving DecidableEq, Repr

namespace RowidTable

section
variable (table : RowidTable) (tx : ℕ)

def setView (view : Option TableView) : RowidTable :=
  { table with views := fun id => if id = tx then view else table.views id }

/-- What an open transaction does. -/
def onView (act : TableView → RowidTable) : RowidTable :=
  match table.views tx with
  | some view => act view
  | none => table

def step : RowidOperation → RowidTable
  | .begin tx => table.setView tx (some { snapshot := table.committed })
  | .insert tx rowid => table.onView tx fun view =>
    { table.setView tx (some { view with inserted := rowid :: view.inserted }) with
      allocator := table.allocator.insertRowIdMaybeUpdate rowid }
  | .delete tx rowid => table.onView tx fun view => table.setView tx (some { view with
      inserted := view.inserted.filter (· ≠ rowid)
      deleted := rowid :: view.deleted })
  | .commit tx => table.onView tx fun view => { table.setView tx none with
      committed := table.committed.filter (· ∉ view.deleted) ++ view.inserted }
  | .rollback tx => table.onView tx fun view =>
    -- the rows that come back are bumped over
    { table.setView tx none with
      allocator := view.deleted.foldl RowidAllocator.insertRowIdMaybeUpdate table.allocator }
  | .initializeMaxRowid tx => table.onView tx fun view =>
    if table.allocator.initialized then table
    else { table with allocator := table.allocator.initializeMaxRowid view.maxRowid }
  | .newRowid =>
    match table.allocator.initialized, table.allocator.getNextRowid with
    | true, some (rowid, _) => { table with
        allocator := { table.allocator with maxRowid := rowid }
        handedOut := rowid :: table.handedOut }
    | _, _ => table

/-- The table after the operations, from the rows in the B-tree on. -/
def run (rows : List ℤ) (operations : List RowidOperation) : RowidTable :=
  operations.foldl step { committed := rows }

/-- A row of the table, committed or not. -/
def Holds (rowid : ℤ) : Prop :=
  rowid ∈ table.committed ∨ ∃ tx, ∃ view ∈ table.views tx, rowid ∈ view.inserted

/-- Every row is at most the largest rowid that the transaction sees, or at most the counter.  A
counter of 0 counts only if the transaction sees no row. -/
def Seeds (view : TableView) : Prop :=
  ∀ rowid, table.Holds rowid → (∃ seen ∈ view.maxRowid, rowid ≤ seen) ∨
    (view.maxRowid = none ∨ table.allocator.maxRowid ≠ 0) ∧ rowid ≤ table.allocator.maxRowid

/-- The next automatic rowid is new: it was not handed out before, it is not in the table, and no
open transaction has inserted it. -/
def Fresh : Prop :=
  table.allocator.initialized = true →
    ∀ rowid previous, table.allocator.getNextRowid = some (rowid, previous) →
      rowid ∉ table.handedOut ∧ ¬ table.Holds rowid

/-! ## From the initialisation on, the counter is above all rows -/

structure Above : Prop where
  initialized : table.allocator.initialized = true
  handedOut : ∀ rowid ∈ table.handedOut, rowid ≤ table.allocator.maxRowid
  holds : ∀ rowid, table.Holds rowid → rowid ≤ table.allocator.maxRowid

end

variable {table : RowidTable} (allocator : RowidAllocator)

theorem le_insertRowIdMaybeUpdate (rowid : ℤ) :
    rowid ≤ (allocator.insertRowIdMaybeUpdate rowid).maxRowid ∧
      allocator.maxRowid ≤ (allocator.insertRowIdMaybeUpdate rowid).maxRowid ∧
      (allocator.insertRowIdMaybeUpdate rowid).initialized = allocator.initialized := by
  unfold RowidAllocator.insertRowIdMaybeUpdate
  split_ifs with h
  · exact ⟨h, le_rfl, rfl⟩
  · exact ⟨le_rfl, (not_le.mp h).le, rfl⟩

theorem le_foldl_insertRowIdMaybeUpdate (rowids : List ℤ) :
    allocator.maxRowid ≤ (rowids.foldl RowidAllocator.insertRowIdMaybeUpdate allocator).maxRowid ∧
      (rowids.foldl RowidAllocator.insertRowIdMaybeUpdate allocator).initialized =
        allocator.initialized := by
  induction rowids generalizing allocator with
  | nil => exact ⟨le_rfl, rfl⟩
  | cons rowid rest ih =>
    obtain ⟨-, hle, hinit⟩ := le_insertRowIdMaybeUpdate allocator rowid
    exact ⟨hle.trans (ih _).1, (ih _).2.trans hinit⟩

variable {allocator : RowidAllocator}

theorem lt_getNextRowid {rowid : ℤ} {previous : Option ℤ}
    (hnext : allocator.getNextRowid = some (rowid, previous)) : allocator.maxRowid < rowid := by
  grind [RowidAllocator.getNextRowid]

/-- A transaction changes its view, raises the counter, or changes the rows of the table. -/
theorem Above.setView (h : table.Above) {tx : ℕ} {new : Option TableView} {committed : List ℤ}
    (hle : table.allocator.maxRowid ≤ allocator.maxRowid)
    (hinitialized : allocator.initialized = table.allocator.initialized)
    (hinserted : ∀ view ∈ new, ∀ rowid ∈ view.inserted, rowid ≤ allocator.maxRowid)
    (hcom : ∀ rowid ∈ committed, table.Holds rowid) :
    Above { table.setView tx new with allocator := allocator, committed := committed } := by
  refine ⟨hinitialized.trans h.initialized, fun rowid hm => (h.handedOut rowid hm).trans hle, ?_⟩
  rintro rowid (hm | ⟨id, view, hview, hm⟩)
  · exact (h.holds rowid (hcom rowid hm)).trans hle
  · simp only [RowidTable.setView] at hview
    split_ifs at hview
    · exact hinserted view hview rowid hm
    · exact (h.holds rowid (.inr ⟨id, view, hview, hm⟩)).trans hle

theorem Above.onView (h : table.Above) {tx : ℕ} {act : TableView → RowidTable}
    (hact : ∀ view ∈ table.views tx, (act view).Above) : (table.onView tx act).Above := by
  unfold RowidTable.onView
  split
  · exact hact _ ‹_›
  · exact h

theorem Above.step (h : table.Above) (operation : RowidOperation) :
    (table.step operation).Above := by
  have hinserted {tx : ℕ} {view : TableView} (hview : view ∈ table.views tx) {rowid : ℤ}
      (hm : rowid ∈ view.inserted) : table.Holds rowid := .inr ⟨tx, view, hview, hm⟩
  cases operation with
  | begin tx => exact h.setView le_rfl rfl (by simp) fun _ => .inl
  | insert tx rowid =>
    refine h.onView fun view hview => ?_
    obtain ⟨hrowid, hle, hinitialized⟩ := le_insertRowIdMaybeUpdate table.allocator rowid
    refine h.setView hle hinitialized ?_ fun _ => .inl
    rintro _ ⟨⟩ inserted (_ | ⟨_, hm⟩)
    · exact hrowid
    · exact (h.holds inserted (hinserted hview hm)).trans hle
  | delete tx rowid =>
    refine h.onView fun view hview => h.setView le_rfl rfl ?_ fun _ => .inl
    rintro _ ⟨⟩ inserted hm
    exact h.holds inserted (hinserted hview (mem_filter.mp hm).1)
  | commit tx =>
    refine h.onView fun view hview => h.setView le_rfl rfl nofun fun rowid hm => ?_
    obtain hm | hm := mem_append.mp hm
    · exact .inl (mem_filter.mp hm).1
    · exact hinserted hview hm
  | rollback tx =>
    refine h.onView fun view hview => ?_
    obtain ⟨hle, hinitialized⟩ := le_foldl_insertRowIdMaybeUpdate table.allocator view.deleted
    exact h.setView hle hinitialized nofun fun _ => .inl
  | initializeMaxRowid tx =>
    refine h.onView fun view hview => ?_
    rwa [if_pos h.initialized]
  | newRowid =>
    simp only [RowidTable.step]
    split
    · have hlt := lt_getNextRowid ‹_›
      refine ⟨h.initialized, ?_, fun rowid hm => (h.holds rowid hm).trans hlt.le⟩
      rintro rowid (_ | ⟨_, hm⟩)
      · exact le_rfl
      · exact (h.handedOut rowid hm).trans hlt.le
    · exact h

theorem Above.foldl (h : table.Above) (operations : List RowidOperation) :
    (operations.foldl RowidTable.step table).Above := by
  induction operations generalizing table with
  | nil => exact h
  | cons operation rest ih => exact ih (h.step operation)

theorem Above.fresh (h : table.Above) : table.Fresh := by
  intro _ rowid previous hnext
  have hlt := lt_getNextRowid hnext
  exact ⟨fun hm => (h.handedOut rowid hm).not_gt hlt, fun hm => (h.holds rowid hm).not_gt hlt⟩

/-! ## The initialisation -/

theorem le_initializeMaxRowid {seen : Option ℤ} {rowid : ℤ} :
    rowid ≤ (allocator.initializeMaxRowid seen).maxRowid ↔
      (∃ largest ∈ seen, rowid ≤ largest) ∨
        (seen = none ∨ allocator.maxRowid ≠ 0) ∧ rowid ≤ allocator.maxRowid := by
  cases seen with
  | none => simp [RowidAllocator.initializeMaxRowid]
  | some largest =>
    simp only [RowidAllocator.initializeMaxRowid]
    split_ifs with hzero
    · simp [hzero]
    · simp [hzero, or_comm]

/-- No rowid is handed out before the initialisation. -/
theorem handedOut_run (rows : List ℤ) (operations : List RowidOperation)
    (hinitialized : (run rows operations).allocator.initialized = false) :
    (run rows operations).handedOut = [] := by
  induction operations using reverseRecOn with
  | nil => rfl
  | append_singleton before operation ih =>
    rw [run, foldl_append] at hinitialized ⊢
    change ((run rows before).step operation).allocator.initialized = false at hinitialized
    change ((run rows before).step operation).handedOut = []
    generalize run rows before = table at *
    have hbump := fun rowid => (le_insertRowIdMaybeUpdate table.allocator rowid).2.2
    have hbumps := fun rowids => (le_foldl_insertRowIdMaybeUpdate table.allocator rowids).2
    cases operation <;> grind [RowidTable.step, RowidTable.onView, RowidTable.setView,
      RowidAllocator.initializeMaxRowid]

/-- The counter reaches a row above it, one rowid at a time. -/
theorem exists_not_fresh (table : RowidTable) {rowid : ℤ}
    (hinitialized : table.allocator.initialized = true) (hholds : table.Holds rowid)
    (hlt : table.allocator.maxRowid < rowid) (hrowid : rowid < 2 ^ 63) :
    ∃ after : List RowidOperation, ¬ (after.foldl RowidTable.step table).Fresh := by
  obtain ⟨steps, hsteps⟩ := Int.le.dest (Int.add_one_le_of_lt hlt)
  induction steps generalizing table with
  | zero =>
    obtain rfl : table.allocator.maxRowid + 1 = rowid := by omega
    have hnext : table.allocator.getNextRowid = some (_, _) := if_neg (by omega)
    exact ⟨[], fun hfresh => (hfresh hinitialized _ _ hnext).2 hholds⟩
  | succ steps ih =>
    let next : RowidTable := { table with
      allocator := { table.allocator with maxRowid := table.allocator.maxRowid + 1 }
      handedOut := (table.allocator.maxRowid + 1) :: table.handedOut }
    have hstep : table.step .newRowid = next := by
      rw [RowidTable.step, hinitialized, RowidAllocator.getNextRowid, if_neg (by omega)]
    obtain ⟨after, hfresh⟩ := ih next hinitialized hholds (by dsimp only [next]; omega)
      (by dsimp only [next]; omega)
    exact ⟨.newRowid :: after, by rwa [foldl_cons, hstep]⟩

variable {rows : List ℤ} {before : List RowidOperation} {tx : ℕ} {view : TableView}

/-- After the initialisation every automatic rowid is new, exactly if the rows that the transaction
did not see allow it. -/
theorem new_rowid_fresh (hinitialized : (run rows before).allocator.initialized = false)
    (hview : (run rows before).views tx = some view)
    (hrowids : ∀ rowid, (run rows before).Holds rowid → rowid < 2 ^ 63) :
    (∀ after, (run rows (before ++ .initializeMaxRowid tx :: after)).Fresh) ↔
      (run rows before).Seeds view := by
  have hrun (after : List RowidOperation) : run rows (before ++ .initializeMaxRowid tx :: after) =
      after.foldl RowidTable.step { run rows before with
        allocator := (run rows before).allocator.initializeMaxRowid view.maxRowid } := by
    rw [run, foldl_append, foldl_cons]
    change after.foldl _ ((run rows before).step _) = _
    simp [RowidTable.step, onView, hview, hinitialized]
  simp only [hrun]
  refine ⟨fun hfresh rowid hholds => ?_, fun hseeds after => Above.fresh (Above.foldl ?_ after)⟩
  · by_contra hnot
    rw [← le_initializeMaxRowid, not_le] at hnot
    obtain ⟨after, hafter⟩ := exists_not_fresh { run rows before with
      allocator := (run rows before).allocator.initializeMaxRowid view.maxRowid }
      rfl hholds hnot (hrowids rowid hholds)
    exact hafter (hfresh after)
  · refine ⟨rfl, fun rowid hm => ?_, fun rowid hm => le_initializeMaxRowid.mpr (hseeds rowid hm)⟩
    rw [show _ = _ from handedOut_run rows before hinitialized] at hm
    cases hm

/-- In a table with the rows -11 and -12 the counter is seeded with -11. -/
theorem new_rowid_fresh_seeded :
    (run [-11, -12] [.begin 0, .initializeMaxRowid 0, .newRowid]).Fresh := by
  have hholds : ∀ rowid, (run [-11, -12] [.begin 0]).Holds rowid → rowid ≤ -11 := by
    rintro rowid (hm | ⟨tx, view, hview, hm⟩)
    · rcases hm with _ | ⟨_, _ | ⟨_, ⟨⟩⟩⟩ <;> decide
    · simp only [run, foldl, step, setView] at hview
      split_ifs at hview <;> cases hview
      cases hm
  refine (@new_rowid_fresh _ [.begin 0] 0 _ rfl rfl fun rowid hm => ?_).mpr
    (fun rowid hm => .inl ⟨-11, rfl, hholds rowid hm⟩) [.newRowid]
  exact (hholds rowid hm).trans_lt (by decide)

/-- The row -9 is inserted by another transaction when the counter goes down to -10.  The row 4 is
in the table when the counter is seeded by a transaction that has deleted it. -/
theorem seeds_below_rows :
    let table := run [-10] [.begin 0, .begin 1, .insert 1 (-9), .initializeMaxRowid 0]
    let other := run [2, 3, 4]
      [.begin 0, .delete 0 3, .delete 0 4, .initializeMaxRowid 0, .newRowid]
    table.allocator.getNextRowid = some (-9, some (-10)) ∧
      (table.views 1).map (·.inserted) = some [-9] ∧
      other.allocator.getNextRowid = some (4, some 3) ∧ 4 ∈ other.committed := by
  decide

end RowidTable

end Turso.Mvcc
