import Turso.Foundation.Interaction

/-!
# Row versions and who sees them

The version store of `core/mvcc/database/mod.rs`.  A version of a row carries the stamps of the
transaction that created it and of the one that deleted it.  A stamp is the id of a transaction
while that runs and is rewritten to its commit timestamp later, so who sees a version depends on
the states of other transactions.

A transaction that is `Preparing` has its end timestamp but may still fail.  A reader that began
after that timestamp takes its outcome for granted and registers a commit dependency.  The states
are loaded one at a time while other transactions go on, and registering loads the state again.
The checks are therefore programs that put one question after the other to the transaction table.
-/

namespace Turso.Mvcc

open Interaction (Program)

abbrev TxId := ℕ

abbrev Timestamp := ℕ

/-- `TxTimestampOrID`. -/
inductive TxTimestampOrId where
  | timestamp (ts : Timestamp)
  | txId (id : TxId)
  deriving DecidableEq, Repr

/-- `RowVersion`, with its `begin` and `end`. -/
structure RowVersion (Row : Type) where
  id : ℕ
  beginning : Option TxTimestampOrId
  ending : Option TxTimestampOrId
  row : Row
  btreeResident : Bool
  deriving DecidableEq, Repr

/-- `TransactionState`. -/
inductive TransactionState where
  | active
  | preparing (endTs : Timestamp)
  | aborted
  | terminated
  | committed (ts : Timestamp)
  deriving DecidableEq, Repr

/-- What a check asks of the transaction table.  `load` and `inspect` are both
`lookup_tx_state`: a check that loads a state decides by it what is visible, one that inspects it
looks for a conflict. -/
inductive Question where
  | load (id : TxId)
  | inspect (id : TxId)
  | register (id : TxId)

abbrev Question.Answer : Question → Type
  | .load _ => Option TransactionState
  | .inspect _ => Option TransactionState
  | .register _ => Unit

abbrev Check := Program Question Question.Answer

def load (id : TxId) : Check (Option TransactionState) :=
  Program.query (Question.load id)

def inspect (id : TxId) : Check (Option TransactionState) :=
  Program.query (Question.inspect id)

def register (id : TxId) : Check Unit :=
  Program.query (Question.register id)

variable {Row : Type}

/-! ## Visibility, for the transaction `me` that began at `beginTs` -/

section Visibility
variable (me : TxId) (beginTs : Timestamp)

section
variable (version : RowVersion Row)

/-- `is_begin_visible`. -/
def isBeginVisible : Check Bool :=
  match version.beginning with
  | some (.timestamp ts) => pure (ts < beginTs)
  | some (.txId creator) => do
    match ← load creator with
    | some .active => pure (me = creator ∧ version.ending = none)
    | some (.preparing endTs) =>
      if endTs < beginTs then
        register creator
        pure true
      else
        pure false
    | some (.committed ts) => pure (ts < beginTs)
    | some .aborted | some .terminated | none => pure false
  | none => pure false

/-- `is_end_visible`. -/
def isEndVisible : Check Bool :=
  match version.ending with
  | some (.timestamp ts) => pure (beginTs < ts)
  | some (.txId deleter) => do
    match ← load deleter with
    | some .active => pure (me ≠ deleter)
    | some (.preparing endTs) =>
      if beginTs < endTs then
        pure true
      else
        register deleter
        pure false
    | some (.committed ts) => pure (beginTs < ts)
    | some .aborted | some .terminated | none => pure true
  | none => pure true

/-- `is_visible_to`. -/
def isVisibleTo : Check Bool := do
  if ← isBeginVisible me beginTs version then isEndVisible me beginTs version else pure false

/-- The part of `is_btree_invalidating_version` that looks at the end of a version that is not
visible. -/
def endInvalidatesBtree : Check Bool :=
  match version.ending with
  | some (.timestamp ts) => pure (ts < beginTs)
  | some (.txId deleter) =>
    if deleter = me then
      pure true
    else do
      match ← load deleter with
      | some (.committed ts) => pure (ts < beginTs)
      | some (.preparing endTs) =>
        if endTs < beginTs then
          register deleter
          pure true
        else
          pure false
      | some .active | some .aborted | some .terminated | none => pure false
  | none => pure false

/-- `is_btree_invalidating_version`. -/
def isBtreeInvalidatingVersion : Check Bool := do
  if ← isVisibleTo me beginTs version then pure true else endInvalidatesBtree me beginTs version

end

/-- The search of `read_from_table_or_index`, from the newest version on. -/
def findVisible : List (RowVersion Row) → Check (Option (RowVersion Row))
  | [] => pure none
  | version :: older => do
    if ← isVisibleTo me beginTs version then pure (some version) else findVisible older

/-- The search of `chain_leaves_btree_row_valid`, from the newest version on. -/
def anyInvalidating : List (RowVersion Row) → Check Bool
  | [] => pure false
  | version :: older => do
    if ← isBtreeInvalidatingVersion me beginTs version then pure true else anyInvalidating older

/-! ## Conflicts -/

/-- `is_write_write_conflict`. -/
def isWriteWriteConflict (version : RowVersion Row) : Check Bool :=
  match version.ending with
  | some (.txId deleter) =>
    if deleter = me then
      pure false
    else do
      match ← inspect deleter with
      | some .aborted | some .terminated => pure false
      | some .active | some (.preparing _) | some (.committed _) => pure true
      | none => pure true
  | some (.timestamp ts) => pure (beginTs < ts)
  | none => pure false

/-- What the search of `delete_from_table_or_index` comes to. -/
inductive DeleteOutcome where
  | conflict
  | found (version : ℕ)
  | absent
  deriving DecidableEq, Repr

/-- Whether deleting meets a conflict at a version: only those that are visible and the deletion
markers of B-tree rows are looked at. -/
def deleteConflicts (visible : Bool) (version : RowVersion Row) : Check Bool :=
  if visible || version.beginning.isNone then isWriteWriteConflict me beginTs version
  else pure false

/-- The search of `delete_from_table_or_index`, from the newest version on. -/
def findDeletable : List (RowVersion Row) → Check DeleteOutcome
  | [] => pure .absent
  | version :: older => do
    let visible ← isVisibleTo me beginTs version
    let conflict ← deleteConflicts me beginTs visible version
    if conflict then pure .conflict
    else if visible then pure (.found version.id)
    else findDeletable older

variable (endTs : Timestamp)

/-- What `check_version_conflicts` says of a live version: whether its begin is a conflict. -/
def beginConflicts (version : RowVersion Row) : Check Bool :=
  match version.beginning with
  | some (.txId other) =>
    if other = me then
      pure false
    else do
      match ← inspect other with
      | some (.committed _) => pure true
      | some (.preparing otherEndTs) => pure (otherEndTs < endTs)
      | some .active | some .aborted | some .terminated => pure false
      | none => pure true
  | some (.timestamp _) => pure true
  | none => pure false

/-- The body of the loop of `check_version_conflicts`. -/
def versionConflicts (version : RowVersion Row) : Check Bool :=
  match version.beginning, version.ending with
  | none, some (.timestamp ts) => pure (beginTs < ts)
  | none, some (.txId other) =>
    -- a tombstone over a row of the B-tree is a write lock
    if other = me then
      pure false
    else do
      match ← inspect other with
      | some (.committed _) => pure true
      | some (.preparing otherEndTs) => pure (otherEndTs < endTs)
      | some .active | some .aborted | some .terminated | none => pure false
  | none, none => pure false
  | some _, some (.timestamp ts) => pure (beginTs < ts)
  | some _, some (.txId deleter) =>
    if deleter = me then
      pure false
    else do
      match ← inspect deleter with
      | some (.committed ts) => pure (beginTs < ts)
      | _ => beginConflicts me endTs version
  | some _, none => beginConflicts me endTs version

/-- `check_version_conflicts`, from the newest version on. -/
def checkVersionConflicts (endTs : Timestamp) : List (RowVersion Row) → Check Bool
  | [] => pure false
  | version :: older => do
    if ← versionConflicts me beginTs endTs version then pure true
    else checkVersionConflicts endTs older

end Visibility

/-! ## Changing a chain -/

/-- Whether `insert_version_raw` replaces the version that it finds: both begins are the same
timestamp. -/
def collapses (existing new : RowVersion Row) : Bool :=
  match existing.beginning, new.beginning with
  | some (.timestamp existingTs), some (.timestamp newTs) => existingTs = newTs
  | _, _ => false

/-- `insert_version_raw` on the reversed chain, in which `begins` are the resolved begins. -/
def insertNewestFirst (begins : Option TxTimestampOrId → Timestamp) (new : RowVersion Row) :
    List (RowVersion Row) → List (RowVersion Row)
  | [] => [new]
  | existing :: older =>
    if begins existing.beginning ≤ begins new.beginning then
      if collapses existing new then new :: older else new :: existing :: older
    else
      existing :: insertNewestFirst begins new older

/-- `insert_version_raw`. -/
def insertVersionRaw (begins : Option TxTimestampOrId → Timestamp) (versions : List (RowVersion Row))
    (new : RowVersion Row) : List (RowVersion Row) :=
  (insertNewestFirst begins new versions.reverse).reverse

variable (id : TxId) (endTs : Timestamp)

/-- The stamp that `rewrite_txid_to_timestamp` leaves. -/
def rewriteStamp (stamp : Option TxTimestampOrId) : Option TxTimestampOrId :=
  if stamp = some (.txId id) then some (.timestamp endTs) else stamp

/-- `rewrite_txid_to_timestamp`. -/
def RowVersion.rewriteTxIdToTimestamp (version : RowVersion Row) : RowVersion Row :=
  { version with
    beginning := rewriteStamp id endTs version.beginning
    ending := rewriteStamp id endTs version.ending }

/-- `rollback_version_chain`. -/
def rollbackVersionChain (versions : List (RowVersion Row)) : List (RowVersion Row) :=
  (versions.filter fun version => version.beginning ≠ some (.txId id)).map fun version =>
    if version.ending = some (.txId id) then { version with ending := none } else version

/-- What setting the end of the version `target` to the deleting transaction leaves of a chain. -/
def endVersion (deleter : TxId) (target : ℕ) (versions : List (RowVersion Row)) :
    List (RowVersion Row) :=
  versions.map fun version =>
    if version.id = target then { version with ending := some (.txId deleter) } else version

end Turso.Mvcc
