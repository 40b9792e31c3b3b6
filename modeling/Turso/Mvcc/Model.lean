import Turso.Mvcc.Version
import Mathlib.Data.List.Basic
import Mathlib.Data.Int.Notation

/-!
# The steps of transactions

Transactions over a shared version store, in steps that may interleave in any order.  A step is
what no other thread can observe halfway: a load of a state, a section under a lock, a timestamp
drawn together with what is published under the lock of the clock.

* An operation on a row locks the chain of the row and runs a check over its versions, a
  `Session`: the states of other transactions may change between two loads of the check, the
  chain may not.
* A commit goes through the states of `CommitStateMachine`.  What happens between
  `BuildLogRecord` and `EndCommitLogicalLog` is one state here.  Meanwhile the statement may be
  dropped, and the transaction left to the leader of its group (`abandon_if_issued`).
* A rollback tells the dependents, then undoes one chain after the other.

A transaction may be rolled back at any time before it is committed: on request, on an error, or
because its statement is dropped.
-/

namespace Turso.Mvcc

variable {RowId Row Key : Type}

/-- What a session is for. -/
inductive Purpose (Row : Type) where
  /-- `read_from_table_or_index` -/
  | read
  /-- `query_btree_version_is_valid` -/
  | probeBtree
  /-- `delete_from_table_or_index`, with the record of the B-tree if the row is there -/
  | delete (btreeRecord : Option Row)
  /-- `check_version_conflicts` at commit -/
  | validate

abbrev Purpose.Finding : Purpose Row → Type
  | .read => Option (RowVersion Row)
  | .probeBtree => Bool
  | .delete _ => DeleteOutcome
  | .validate => Bool

/-- A check that is under way while the chain of `row` is locked. -/
structure Session (RowId Row : Type) where
  row : RowId
  purpose : Purpose Row
  check : Check purpose.Finding

/-- The states of `CommitStateMachine`; the end timestamp that they carry is that of the state of
the transaction.  `commit` has the rows of the write set that are not validated yet, and the
chains to look at for the current one. -/
inductive CommitState (RowId : Type) where
  | initial
  | commit (rows chains : List RowId)
  | waitForDependencies
  | dependenciesResolved
  | logicalLog
  | rewriteLiveVersions (left : List RowId)
  | failed
  | rollback (left : List RowId)
  | finished
  | panicked
  deriving DecidableEq, Repr

/-- `Transaction`.  `toNotify` are the dependents that were taken out of `commitDepSet` and have
not been told yet; `vacant` is the row that the last operation left without a visible version. -/
structure Transaction (RowId Row : Type) where
  beginTs : Timestamp
  state : TransactionState := .active
  writeSet : List RowId := []
  headerDirty : Bool := false
  commitDepCounter : ℤ := 0
  abortNow : Bool := false
  commitDepSet : List TxId := []
  commitState : CommitState RowId := .initial
  session : Option (Session RowId Row) := none
  vacant : Option RowId := none
  toNotify : List TxId := []
  abandoned : Bool := false

/-- `MvStore`: the clock, the transactions, the timestamps of those that committed and were
removed, and the version chains. -/
structure MvStore (RowId Row : Type) where
  clock : Timestamp
  nextTx : TxId
  nextVersion : ℕ
  txs : TxId → Option (Transaction RowId Row)
  finalizedTxStates : TxId → Option Timestamp
  keys : List RowId
  rows : RowId → List (RowVersion Row)

/-- A store without transactions and versions. -/
def MvStore.empty : MvStore RowId Row where
  clock := 0
  nextTx := 0
  nextVersion := 0
  txs := fun _ => none
  finalizedTxStates := fun _ => none
  keys := []
  rows := fun _ => []

namespace MvStore

variable [DecidableEq RowId] (store : MvStore RowId Row)

/-- `lookup_tx_state`. -/
def lookupTxState (id : TxId) : Option TransactionState :=
  match store.txs id with
  | some tx => some tx.state
  | none => (store.finalizedTxStates id).map .committed

/-- `resolve_begin_timestamp`; the transaction of a stamp is in the map. -/
def resolveBeginTimestamp : Option TxTimestampOrId → Timestamp
  | some (.timestamp ts) => ts
  | some (.txId id) => ((store.txs id).map (·.beginTs)).getD 0
  | none => 0

def modifyTx (id : TxId) (f : Transaction RowId Row → Transaction RowId Row) : MvStore RowId Row :=
  { store with txs := Function.update store.txs id ((store.txs id).map f) }

def setRow (row : RowId) (versions : List (RowVersion Row)) : MvStore RowId Row :=
  { store with rows := Function.update store.rows row versions }

/-! ## Locks -/

/-- Another transaction than `me` has a session on `row`, for a purpose among those given. -/
def LockedFor (among : Purpose Row → Bool) (me : TxId) (row : RowId) : Prop :=
  ∃ other < store.nextTx, other ≠ me ∧
    ∃ tx ∈ store.txs other, ∃ session ∈ tx.session, session.row = row ∧ among session.purpose

instance (among : Purpose Row → Bool) (me : TxId) (row : RowId) :
    Decidable (store.LockedFor among me row) :=
  inferInstanceAs (Decidable (∃ other < store.nextTx, _))

end MvStore

/-- Who searches for a version to delete has the chain locked for writing. -/
def Purpose.writes : Purpose Row → Bool
  | .delete _ => true
  | _ => false

namespace MvStore

variable [DecidableEq RowId] (store : MvStore RowId Row)

/-- The write lock of the chain of `row` is free for `me`. -/
def MayWrite (me : TxId) (row : RowId) : Prop :=
  ¬ store.LockedFor (fun _ => true) me row

/-- The read lock of the chain of `row` is free for `me`. -/
def MayRead (me : TxId) (row : RowId) : Prop :=
  ¬ store.LockedFor Purpose.writes me row

instance (me : TxId) (row : RowId) : Decidable (store.MayWrite me row) :=
  inferInstanceAs (Decidable (¬ _))

instance (me : TxId) (row : RowId) : Decidable (store.MayRead me row) :=
  inferInstanceAs (Decidable (¬ _))

end MvStore

/-! ## Operations on rows -/

def Transaction.insertToWriteSet [DecidableEq RowId] (tx : Transaction RowId Row) (row : RowId) :
    Transaction RowId Row :=
  { tx with writeSet := if row ∈ tx.writeSet then tx.writeSet else tx.writeSet ++ [row] }

/-- The end timestamp of a transaction that is preparing. -/
def Transaction.endTs (tx : Transaction RowId Row) : Timestamp :=
  match tx.state with
  | .preparing endTs | .committed endTs => endTs
  | _ => 0

/-- The check of a session of the transaction `me`. -/
def Purpose.check (me : TxId) (tx : Transaction RowId Row) (versions : List (RowVersion Row)) :
    (purpose : Purpose Row) → Check purpose.Finding
  | .read => findVisible me tx.beginTs versions.reverse
  | .probeBtree => anyInvalidating me tx.beginTs versions.reverse
  | .delete _ => findDeletable me tx.beginTs versions.reverse
  | .validate => checkVersionConflicts me tx.beginTs tx.endTs versions.reverse

/-- Operations are for active transactions, validation is for the chain that is next. -/
def Transaction.mayStart [DecidableEq RowId] (tx : Transaction RowId Row) (row : RowId) :
    Purpose Row → Bool
  | .validate =>
    match tx.commitState with
    | .commit _ (chain :: _) => chain = row
    | _ => false
  | .read | .probeBtree | .delete _ => tx.state = .active

namespace MvStore

variable [DecidableEq RowId] (store : MvStore RowId Row) (id : TxId) (row : RowId)

/-- Locks the chain of `row` for a check. -/
def start (purpose : Purpose Row) : Option (MvStore RowId Row) :=
  (store.txs id).bind fun tx =>
    if tx.session.isNone ∧ tx.mayStart row purpose ∧
        (if purpose.writes then store.MayWrite id row else store.MayRead id row) then
      some (store.modifyTx id fun tx =>
        { tx with
          session := some ⟨row, purpose, purpose.check id tx (store.rows row)⟩
          vacant := none })
    else
      none

/-- The session goes on with the answer to its question. -/
def resume (session : Session RowId Row) : MvStore RowId Row :=
  store.modifyTx id fun tx => { tx with session := some session }

/-- The check loads the state of a transaction. -/
def load (id : TxId) : Option (MvStore RowId Row) :=
  (store.txs id).bind fun tx =>
    match tx.session with
    | some ⟨row, purpose, .ask (.load other) next⟩ =>
      some (store.resume id ⟨row, purpose, next (store.lookupTxState other)⟩)
    | _ => none

/-- The check inspects the state of a transaction. -/
def inspect (id : TxId) : Option (MvStore RowId Row) :=
  (store.txs id).bind fun tx =>
    match tx.session with
    | some ⟨row, purpose, .ask (.inspect other) next⟩ =>
      some (store.resume id ⟨row, purpose, next (store.lookupTxState other)⟩)
    | _ => none

/-- `register_commit_dependency`, under the lock of the dependency set of `other`. -/
def registerCommitDependency (dependent other : TxId) : MvStore RowId Row :=
  { store with
    txs :=
      match store.txs other with
      | none => store.txs
      | some dependedOn =>
        match dependedOn.state with
        | .preparing _ =>
          if dependent ∈ dependedOn.commitDepSet then
            store.txs
          else
            ((store.modifyTx other fun tx =>
              { tx with commitDepSet := dependent :: tx.commitDepSet }).modifyTx dependent
                fun tx => { tx with commitDepCounter := tx.commitDepCounter + 1 }).txs
        | .aborted | .terminated =>
          (store.modifyTx dependent fun tx => { tx with abortNow := true }).txs
        | .active | .committed _ => store.txs }

/-- The check registers a dependency. -/
def register (id : TxId) : Option (MvStore RowId Row) :=
  (store.txs id).bind fun tx =>
    match tx.session with
    | some ⟨row, purpose, .ask (.register other) next⟩ =>
      some ((store.registerCommitDependency id other).resume id ⟨row, purpose, next ()⟩)
    | _ => none

/-- `insert_version` or `insert_tombstone`, and the entry in the write set. -/
def addVersion (version : RowVersion Row) : MvStore RowId Row :=
  { (store.setRow row
        (insertVersionRaw store.resolveBeginTimestamp (store.rows row) version)).modifyTx id
      fun tx => tx.insertToWriteSet row with
    nextVersion := store.nextVersion + 1
    keys := if row ∈ store.keys then store.keys else store.keys ++ [row] }

/-- The end of a session: what the operation does with the finding, and the unlocking. -/
def finishSession : Session RowId Row → Option (MvStore RowId Row)
  | ⟨row, .read, .done found⟩ =>
    some (store.modifyTx id fun tx =>
      { tx with session := none, vacant := if found.isNone then some row else none })
  | ⟨_, .probeBtree, .done _⟩ | ⟨_, .delete _, .done .conflict⟩ | ⟨_, .delete none, .done .absent⟩ =>
    some (store.modifyTx id fun tx => { tx with session := none })
  | ⟨row, .delete _, .done (.found target)⟩ =>
    some ((store.setRow row (endVersion id target (store.rows row))).modifyTx id fun tx =>
      { tx.insertToWriteSet row with session := none, vacant := some row })
  | ⟨row, .delete (some record), .done .absent⟩ =>
    some ((store.addVersion id row
      ⟨store.nextVersion, none, some (.txId id), record, true⟩).modifyTx id fun tx =>
        { tx with session := none })
  | ⟨_, .validate, .done conflict⟩ =>
    some (store.modifyTx id fun tx =>
      { tx with
        session := none
        commitState :=
          match tx.commitState with
          | .commit rows chains => if conflict then .failed else .commit rows chains.tail
          | other => other })
  | ⟨_, _, .ask _ _⟩ => none

def finish : Option (MvStore RowId Row) :=
  (store.txs id).bind fun tx => tx.session.bind (store.finishSession id)

/-- `insert_to_table_or_index` and `insert_btree_resident_to_table_or_index`.  The cursor inserts
after a read that found nothing, and an update inserts after the delete. -/
def insert (value : Row) (btreeResident : Bool) : Option (MvStore RowId Row) :=
  (store.txs id).bind fun tx =>
    if tx.session.isNone ∧ tx.state = .active ∧ tx.vacant = some row ∧ store.MayWrite id row then
      some ((store.addVersion id row
        ⟨store.nextVersion, some (.txId id), none, value, btreeResident⟩).modifyTx id fun tx =>
          { tx with vacant := none })
    else
      none

end MvStore

/-! ## Beginning and committing -/

/-- A commit that has nothing to log. -/
def Transaction.isReadOnly (tx : Transaction RowId Row) : Bool :=
  tx.writeSet.isEmpty && !tx.headerDirty

namespace MvStore

section Commit
variable [DecidableEq RowId] (store : MvStore RowId Row)

/-- `begin_tx`: the transaction is in the map when the lock of the clock is released. -/
def beginTx : MvStore RowId Row :=
  { store with
    clock := store.clock + 1
    nextTx := store.nextTx + 1
    txs := Function.update store.txs store.nextTx (some { beginTs := store.clock + 1 }) }

/-- A timestamp that is drawn for nothing, as by a commit that is refused. -/
def tick : MvStore RowId Row :=
  { store with clock := store.clock + 1 }

variable (id : TxId)

/-- `with_header_mut`. -/
def dirtyHeader : Option (MvStore RowId Row) :=
  (store.txs id).bind fun tx =>
    if tx.state = .active then
      some (store.modifyTx id fun tx => { tx with headerDirty := true })
    else
      none

/-- `CommitState::Initial`: the end timestamp is published under the lock of the clock.  A
read-only commit looks at its dependencies next, as in `WaitForDependencies`. -/
def prepare : Option (MvStore RowId Row) :=
  (store.txs id).bind fun tx =>
    if tx.session.isNone ∧ tx.state = .active then
      some (store.tick.modifyTx id fun tx =>
        { tx with
          state := .preparing (store.clock + 1)
          commitState :=
            if tx.isReadOnly then .waitForDependencies else .commit tx.writeSet [] })
    else
      none

/-- The chains that a commit of `row` looks at: that of a row of a table, those of all keys of a
unique index with the same indexed columns (`check_rowid_for_conflicts`,
`check_index_for_conflicts`). -/
def chainsToCheck [DecidableEq Key] (conflictKey : RowId → Option Key) (row : RowId) : List RowId :=
  match conflictKey row with
  | none => []
  | some key => store.keys.filter fun other => conflictKey other = some key

/-- `CommitState::Commit`: on to the next row of the write set. -/
def nextRow [DecidableEq Key] (conflictKey : RowId → Option Key) (id : TxId) :
    Option (MvStore RowId Row) :=
  (store.txs id).bind fun tx =>
    match tx.commitState with
    | .commit [] [] =>
      some (store.modifyTx id fun tx => { tx with commitState := .waitForDependencies })
    | .commit (row :: rows) [] =>
      some (store.modifyTx id fun tx =>
        { tx with commitState := .commit rows (store.chainsToCheck conflictKey row) })
    | _ => none

/-- `CommitState::WaitForDependencies`, up to the second look at `abort_now`. -/
def waitForDependencies (id : TxId) : Option (MvStore RowId Row) :=
  (store.txs id).bind fun tx =>
    if tx.commitState = .waitForDependencies then
      if tx.abortNow then
        some (store.modifyTx id fun tx => { tx with commitState := .failed })
      else if tx.commitDepCounter > 0 then
        some store
      else
        some (store.modifyTx id fun tx => { tx with commitState := .dependenciesResolved })
    else
      none

/-- The second look at `abort_now`, and the end of a read-only commit. -/
def dependenciesResolved (id : TxId) : Option (MvStore RowId Row) :=
  (store.txs id).bind fun tx =>
    if tx.commitState = .dependenciesResolved then
      some (store.modifyTx id fun tx =>
        if tx.abortNow then
          { tx with commitState := .failed }
        else if tx.isReadOnly then
          { tx with state := .committed tx.endTs, commitState := .finished }
        else
          { tx with commitState := .logicalLog })
    else
      none

/-- The statement is dropped while the leader of its group writes its record
(`abandon_if_issued`). -/
def abandon : Option (MvStore RowId Row) :=
  (store.txs id).bind fun tx =>
    if tx.commitState = .logicalLog then
      some (store.modifyTx id fun tx => { tx with abandoned := true })
    else
      none

/-- `CommitState::CommitEnd`, and the same step of `cleanup_dropped_commit` and
`finish_abandoned_group_waiter`. -/
def commitEnd : Option (MvStore RowId Row) :=
  (store.txs id).bind fun tx =>
    if tx.commitState = .logicalLog then
      some (store.modifyTx id fun tx =>
        { tx with
          state := .committed tx.endTs
          commitState := .rewriteLiveVersions tx.writeSet })
    else
      none

/-- `CommitState::RewriteLiveVersions`, for one row. -/
def rewriteLiveVersions (id : TxId) : Option (MvStore RowId Row) :=
  (store.txs id).bind fun tx =>
    match tx.commitState with
    | .rewriteLiveVersions (row :: left) =>
      if store.MayWrite id row then
        some ((store.setRow row
          ((store.rows row).map (·.rewriteTxIdToTimestamp id tx.endTs))).modifyTx id fun tx =>
            { tx with commitState := .rewriteLiveVersions left })
      else
        none
    | _ => none

/-- `notify_committed_dependents` takes the dependents.  `finish_abandoned_group_waiter` does not
call it. -/
def finalizeCommit : Option (MvStore RowId Row) :=
  (store.txs id).bind fun tx =>
    if tx.commitState = .rewriteLiveVersions [] then
      some (store.modifyTx id fun tx =>
        if tx.abandoned then
          { tx with commitState := .finished }
        else
          { tx with commitDepSet := [], toNotify := tx.commitDepSet, commitState := .finished })
    else
      none

/-- One dependent is told: its counter goes down. -/
def notify : Option (MvStore RowId Row) :=
  (store.txs id).bind fun tx =>
    match tx.toNotify with
    | dependent :: left =>
      some ((store.modifyTx id fun tx => { tx with toNotify := left }).modifyTx dependent fun tx =>
        { tx with commitDepCounter := tx.commitDepCounter - 1 })
    | [] => none

/-- `remove_tx` keeps the timestamp of a committed writer. -/
def finalizeTxState (tx : Transaction RowId Row) : MvStore RowId Row :=
  { store with
    finalizedTxStates :=
      match tx.state with
      | .committed ts =>
        if tx.writeSet.isEmpty then store.finalizedTxStates
        else Function.update store.finalizedTxStates id (some ts)
      | _ => store.finalizedTxStates }

/-- `remove_tx`, with its assertion that the dependents were told. -/
def removeTx : Option (MvStore RowId Row) :=
  (store.txs id).bind fun tx =>
    if tx.commitState = .finished ∧ tx.toNotify = [] then
      if tx.commitDepSet = [] then
        some { store.finalizeTxState id tx with txs := Function.update store.txs id none }
      else
        some ((store.finalizeTxState id tx).modifyTx id fun tx =>
          { tx with commitDepSet := [], commitState := .panicked })
    else
      none

end Commit

end MvStore

/-! ## Rolling back -/

/-- `is_tx_rollbackable`. -/
def TransactionState.isRollbackable : TransactionState → Bool
  | .active | .preparing _ => true
  | .aborted | .terminated | .committed _ => false

namespace MvStore

section Rollback
variable [DecidableEq RowId] (store : MvStore RowId Row)

/-- The dependents of a transaction that aborts have to abort as well. -/
def tellToAbort (dependents : List TxId) : MvStore RowId Row :=
  { store with
    txs := fun id =>
      if id ∈ dependents then
        (store.txs id).map fun tx => { tx with abortNow := true }
      else
        store.txs id }

variable (id : TxId)

/-- `rollback_tx_inner`, the section under the lock of the dependency set: the dependents are told
to abort, and no further one can register. -/
def abort : Option (MvStore RowId Row) :=
  (store.txs id).bind fun tx =>
    if tx.session.isNone ∧ tx.state.isRollbackable then
      some ((store.tellToAbort tx.commitDepSet).modifyTx id fun tx =>
        { tx with
          state := .aborted
          commitDepSet := []
          toNotify := tx.commitDepSet
          writeSet := []
          commitState := .rollback tx.writeSet })
    else
      none

/-- `rollback_tx_inner`, the chain of one row of the write set. -/
def rollBack : Option (MvStore RowId Row) :=
  (store.txs id).bind fun tx =>
    match tx.commitState with
    | .rollback (row :: left) =>
      if tx.toNotify = [] ∧ store.MayWrite id row then
        some ((store.setRow row (rollbackVersionChain id (store.rows row))).modifyTx id fun tx =>
          { tx with commitState := .rollback left })
      else
        none
    | _ => none

/-- `rollback_tx_inner`, the end; `remove_tx` follows. -/
def terminate : Option (MvStore RowId Row) :=
  (store.txs id).bind fun tx =>
    if tx.commitState = .rollback [] ∧ tx.toNotify = [] then
      some (store.modifyTx id fun tx => { tx with state := .terminated, commitState := .finished })
    else
      none

end Rollback

end MvStore

/-! ## The system -/

/-- The steps, and whose they are. -/
inductive Step (RowId Row : Type) where
  | beginTx
  | tick
  | start (id : TxId) (row : RowId) (purpose : Purpose Row)
  | load (id : TxId)
  | inspect (id : TxId)
  | register (id : TxId)
  | finish (id : TxId)
  | insert (id : TxId) (row : RowId) (value : Row) (btreeResident : Bool)
  | dirtyHeader (id : TxId)
  | prepare (id : TxId)
  | nextRow (id : TxId)
  | waitForDependencies (id : TxId)
  | dependenciesResolved (id : TxId)
  | abandon (id : TxId)
  | commitEnd (id : TxId)
  | rewriteLiveVersions (id : TxId)
  | finalizeCommit (id : TxId)
  | notify (id : TxId)
  | removeTx (id : TxId)
  | abort (id : TxId)
  | rollBack (id : TxId)
  | terminate (id : TxId)

variable [DecidableEq RowId] [DecidableEq Key]

/-- The store after a step, if the step is possible. -/
def MvStore.step (conflictKey : RowId → Option Key) (store : MvStore RowId Row) :
    Step RowId Row → Option (MvStore RowId Row)
  | .beginTx => some store.beginTx
  | .tick => some store.tick
  | .start id row purpose => store.start id row purpose
  | .load id => store.load id
  | .inspect id => store.inspect id
  | .register id => store.register id
  | .finish id => store.finish id
  | .insert id row value btreeResident => store.insert id row value btreeResident
  | .dirtyHeader id => store.dirtyHeader id
  | .prepare id => store.prepare id
  | .nextRow id => store.nextRow conflictKey id
  | .waitForDependencies id => store.waitForDependencies id
  | .dependenciesResolved id => store.dependenciesResolved id
  | .abandon id => store.abandon id
  | .commitEnd id => store.commitEnd id
  | .rewriteLiveVersions id => store.rewriteLiveVersions id
  | .finalizeCommit id => store.finalizeCommit id
  | .notify id => store.notify id
  | .removeTx id => store.removeTx id
  | .abort id => store.abort id
  | .rollBack id => store.rollBack id
  | .terminate id => store.terminate id

end Turso.Mvcc
