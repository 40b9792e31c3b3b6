import Turso.Mvcc.Model
import Turso.Foundation.Simulation

/-!
# What happened

A record of a run, kept beside the store and never read by a step: when each transaction began and
ended and how, what it wrote last to each row, whose outcome it took for granted, what its reads
returned, and which dependencies were registered and resolved.
-/

namespace Turso.Mvcc

variable {RowId Row Key : Type}

inductive Outcome where
  | pending
  | committed
  | aborted
  deriving DecidableEq, Repr

/-- What is known of a transaction.  The last write to a row is the row or, for a delete,
`none`. -/
structure Record (RowId Row : Type) where
  beginTs : Timestamp
  endTs : Option Timestamp := none
  outcome : Outcome := .pending
  relied : List TxId := []
  writes : RowId → Option (Option Row) := fun _ => none

/-- A read of `row`, with the last write of the reader itself before it. -/
structure ReadEvent (RowId Row : Type) where
  tx : TxId
  row : RowId
  own : Option (Option Row)
  result : Option Row

/-- Whether a transaction finds the row of the B-tree hidden. -/
structure ProbeEvent (RowId Row : Type) where
  tx : TxId
  row : RowId
  own : Option (Option Row)
  hidden : Bool

/-- The record of a run.  `ender ts` is the transaction whose end timestamp is `ts`; an edge
`(dependent, other)` is a dependency of `dependent` on `other`. -/
structure History (RowId Row : Type) where
  records : TxId → Option (Record RowId Row)
  ender : Timestamp → Option TxId
  reads : List (ReadEvent RowId Row)
  probes : List (ProbeEvent RowId Row)
  registered : List (TxId × TxId)
  notified : List (TxId × TxId)

/-- The outcome of a transaction is taken for granted if it is preparing and would commit before
the reader began. -/
def speculates (beginTs : Timestamp) : Option TransactionState → Bool
  | some (.preparing endTs) => endTs < beginTs
  | _ => false

namespace History

def empty : History RowId Row where
  records := fun _ => none
  ender := fun _ => none
  reads := []
  probes := []
  registered := []
  notified := []

variable [DecidableEq RowId] (history : History RowId Row)

section
variable (id : TxId)

def modify (f : Record RowId Row → Record RowId Row) : History RowId Row :=
  { history with records := Function.update history.records id ((history.records id).map f) }

def write (row : RowId) (value : Option Row) : History RowId Row :=
  history.modify id fun record =>
    { record with writes := Function.update record.writes row (some value) }

/-- The last write of a transaction to a row. -/
def lastWrite (row : RowId) : Option (Option Row) :=
  (history.records id).bind fun record => record.writes row

/-- A state is loaded, and the outcome of `other` is perhaps taken for granted. -/
def load (beginTs : Timestamp) (other : TxId) (answer : Option TransactionState) :
    History RowId Row :=
  if speculates beginTs answer then
    history.modify id fun record => { record with relied := other :: record.relied }
  else
    history

/-- A dependency on `other` is registered, if `other` still takes one. -/
def register (other : TxId) (dependedOn : Option (Transaction RowId Row)) : History RowId Row :=
  { history with
    registered :=
      match dependedOn with
      | some dependedOn =>
        match dependedOn.state with
        | .preparing _ =>
          if id ∈ dependedOn.commitDepSet then history.registered
          else (id, other) :: history.registered
        | _ => history.registered
      | none => history.registered }

/-- A session ends. -/
def finish : Session RowId Row → History RowId Row
  | ⟨row, .read, .done found⟩ =>
    { history with
      reads := ⟨id, row, history.lastWrite id row, found.map (·.row)⟩ :: history.reads }
  | ⟨row, .probeBtree, .done hidden⟩ =>
    { history with probes := ⟨id, row, history.lastWrite id row, hidden⟩ :: history.probes }
  | ⟨row, .delete _, .done (.found _)⟩ | ⟨row, .delete (some _), .done .absent⟩ =>
    history.write id row none
  | _ => history

end

/-- What is recorded of a step of the transaction `id`. -/
def observeTx (store : MvStore RowId Row) (id : TxId) (tx : Transaction RowId Row) :
    Step RowId Row → History RowId Row
  | .load _ =>
    match tx.session with
    | some ⟨_, _, .ask (.load other) _⟩ =>
      history.load id tx.beginTs other (store.lookupTxState other)
    | _ => history
  | .register _ =>
    match tx.session with
    | some ⟨_, _, .ask (.register other) _⟩ => history.register id other (store.txs other)
    | _ => history
  | .finish _ =>
    match tx.session with
    | some session => history.finish id session
    | none => history
  | .insert _ row value _ => history.write id row (some value)
  | .prepare _ =>
    { history.modify id fun record => { record with endTs := some (store.clock + 1) } with
      ender := Function.update history.ender (store.clock + 1) (some id) }
  | .dependenciesResolved _ =>
    if !tx.abortNow && tx.isReadOnly then
      history.modify id fun record => { record with outcome := .committed }
    else
      history
  | .commitEnd _ => history.modify id fun record => { record with outcome := .committed }
  | .notify _ =>
    match tx.toNotify with
    | dependent :: _ => { history with notified := (dependent, id) :: history.notified }
    | [] => history
  | .abort _ => history.modify id fun record => { record with outcome := .aborted }
  | _ => history

end History

/-- Whose step it is. -/
def Step.actor : Step RowId Row → Option TxId
  | .beginTx | .tick => none
  | .start id _ _ | .load id | .inspect id | .register id | .finish id | .insert id _ _ _
  | .dirtyHeader id | .prepare id | .nextRow id | .waitForDependencies id
  | .dependenciesResolved id | .abandon id | .commitEnd id | .rewriteLiveVersions id
  | .finalizeCommit id | .notify id | .removeTx id | .abort id | .rollBack id
  | .terminate id => some id

variable [DecidableEq RowId] [DecidableEq Key]

/-- What is recorded of a step that is taken in `store`. -/
def History.observe (history : History RowId Row) (store : MvStore RowId Row)
    (step : Step RowId Row) : History RowId Row :=
  match step with
  | .beginTx =>
    { history with
      records := Function.update history.records store.nextTx
        (some { beginTs := store.clock + 1 }) }
  | step =>
    match step.actor with
    | none => history
    | some id =>
      match store.txs id with
      | none => history
      | some tx => history.observeTx store id tx step

/-- A store and the record of how it came about. -/
structure System (RowId Row : Type) where
  store : MvStore RowId Row
  history : History RowId Row

namespace System

def empty : System RowId Row := ⟨.empty, .empty⟩

variable (conflictKey : RowId → Option Key)

def step (system : System RowId Row) (step : Step RowId Row) : Option (System RowId Row) :=
  (system.store.step conflictKey step).map fun store =>
    ⟨store, system.history.observe system.store step⟩

variable (steps : List (Step RowId Row))

/-- The steps lead from the empty store to `system`. -/
def Reaches (system : System RowId Row) : Prop :=
  Simulation.Run (fun before taken after => before.step conflictKey taken = some after)
    empty steps system

/-- The system after the given steps. -/
def run : Option (System RowId Row) :=
  steps.foldlM (step conflictKey) empty

theorem reaches_iff {conflictKey : RowId → Option Key} {steps : List (Step RowId Row)}
    {system : System RowId Row} :
    Reaches conflictKey steps system ↔ run conflictKey steps = some system := by
  unfold Reaches run
  generalize (empty : System RowId Row) = start
  induction steps generalizing start with
  | nil =>
    constructor
    · rintro ⟨⟩
      rfl
    · rintro ⟨⟩
      exact .nil _
  | cons a rest ih =>
    rw [List.foldlM_cons, Option.bind_eq_bind, Option.bind_eq_some_iff]
    constructor
    · rintro (_ | ⟨ha, hrest⟩)
      exact ⟨_, ha, (ih _).mp hrest⟩
    · rintro ⟨next, ha, hrest⟩
      exact .cons ha ((ih next).mpr hrest)

end System

end Turso.Mvcc
