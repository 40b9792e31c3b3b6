import Turso.Mvcc.Stamps
import Mathlib.Data.List.Nodup
import Mathlib.Data.Int.Basic

/-!
# Commit dependencies and who is told

An edge `(id, other)` is a dependency of `id` on `other`.  It is registered at most once and waits
at `other`, in the dependency set or among those being told, until `id` is told; the counter of
`id` is the number of its edges that are not resolved (`System.Edges`).  An edge is dropped only
where `remove_tx` fails its assertion.
-/

namespace Turso.Mvcc

open Transaction MvStore Function List

variable {RowId Row Key : Type}

/-! ## Entries before and after a step -/

/-- A step leaves an entry for each entry that it finds, and relates the two. -/
structure System.Tracks (rel : TxId → Transaction RowId Row → Transaction RowId Row → Prop)
    (s s' : System RowId Row) : Prop where
  from_old : ∀ {id tx'}, s'.store.txs id = some tx' → ∃ tx, s.store.txs id = some tx ∧ rel id tx tx'
  to_new : ∀ {id tx}, s.store.txs id = some tx → ∃ tx', s'.store.txs id = some tx'

section Tracks
variable {rel : TxId → Transaction RowId Row → Transaction RowId Row → Prop}
  {s s' : System RowId Row} {id : TxId} {tx : Transaction RowId Row}

variable {f : Transaction RowId Row → Transaction RowId Row}

theorem System.Tracks.modifyTx
    (htxs : s'.store.txs = (s.store.modifyTx id f).txs) (htx : s.store.txs id = some tx)
    (hrel : rel id tx (f tx)) (hothers : ∀ x tx, x ≠ id → rel x tx tx) :
    s.Tracks rel s' := by
  constructor
  · intro x tx' htx'
    rw [htxs] at htx'
    obtain ⟨rfl, rfl⟩ | ⟨hother, ho⟩ := modifyTx_cases htx htx'
    · exact ⟨tx, htx, hrel⟩
    · exact ⟨tx', ho, hothers x tx' hother⟩
  · intro x old ho
    rw [htxs]
    exact modifyTx_known ⟨old, ho⟩

theorem System.Tracks.of_old (h : s.Tracks rel s') (htx : s.store.txs id = some tx) :
    ∃ tx', s'.store.txs id = some tx' ∧ rel id tx tx' := by
  obtain ⟨tx', htx'⟩ := h.to_new htx
  obtain ⟨old, ho, hrel⟩ := h.from_old htx'
  rw [htx] at ho
  cases ho
  exact ⟨tx', htx', hrel⟩

end Tracks

/-! ## Edges -/

/-- The states in which dependents are told. -/
def CommitState.tells : CommitState RowId → Bool
  | .finished | .rollback _ => true
  | _ => false

variable (tx : Transaction RowId Row)

/-- Who waits to be told the outcome of the transaction. -/
def Transaction.dependents : List TxId :=
  tx.commitDepSet ++ tx.toNotify

/-- The dependencies of `id` that are registered and not resolved. -/
def History.unresolved (history : History RowId Row) (id : TxId) : List (TxId × TxId) :=
  history.registered.filter fun edge => edge.1 = id ∧ edge ∉ history.notified

structure System.Edges (s : System RowId Row) : Prop where
  known : ∀ {id other}, (id, other) ∈ s.history.registered →
    ∃ record, s.history.records id = some record
  registered_once : s.history.registered.Nodup
  notified_once : s.history.notified.Nodup
  notified_subset : s.history.notified ⊆ s.history.registered
  waiting : ∀ {id other tx}, s.store.txs other = some tx → id ∈ tx.dependents →
    (id, other) ∈ s.history.registered ∧ (id, other) ∉ s.history.notified
  once : ∀ {other tx}, s.store.txs other = some tx → tx.dependents.Nodup
  telling : ∀ {other tx}, s.store.txs other = some tx → tx.toNotify ≠ [] → tx.commitState.tells
  place : ∀ {id other}, (id, other) ∈ s.history.registered → (id, other) ∉ s.history.notified →
    ∃ tx, s.store.txs other = some tx ∧ (id ∈ tx.dependents ∨ tx.commitState = .panicked)
  decided : ∀ {id other}, (id, other) ∈ s.history.notified →
    ∃ record, s.history.records other = some record ∧ record.outcome ≠ .pending
  counter : ∀ {id tx}, s.store.txs id = some tx →
    tx.commitDepCounter = (s.history.unresolved id).length

theorem edges_empty : (System.empty : System RowId Row).Edges := by
  constructor <;> simp [System.empty, empty, History.empty]

/-- The dependents of an entry are the same, even if they are told now, and so is what it depends
on. -/
structure Transaction.SameEdges (tx' : Transaction RowId Row) : Prop where
  dependents : tx'.dependents = tx.dependents
  counter : tx'.commitDepCounter = tx.commitDepCounter
  telling : tx'.toNotify = tx.toNotify ∧ (tx.commitState.tells → tx'.commitState.tells) ∨
    tx'.commitState.tells
  panicked : tx.commitState = .panicked → tx'.commitState = .panicked

theorem Transaction.SameEdges.refl : tx.SameEdges tx :=
  ⟨rfl, rfl, .inl ⟨rfl, id⟩, id⟩

section
variable {tx tx' : Transaction RowId Row} (hset : tx'.commitDepSet = tx.commitDepSet)
  (htell : tx'.toNotify = tx.toNotify) (hcounter : tx'.commitDepCounter = tx.commitDepCounter)
include hset htell hcounter

theorem Transaction.SameEdges.of_fields (hcommit : tx'.commitState = tx.commitState) :
    tx.SameEdges tx' :=
  ⟨by simp only [Transaction.dependents, hset, htell], hcounter, .inl ⟨htell, hcommit ▸ id⟩,
    hcommit ▸ id⟩

theorem Transaction.SameEdges.of_silent (htells : tx.commitState.tells = false)
    (hpanicked : tx.commitState ≠ .panicked) : tx.SameEdges tx' :=
  ⟨by simp only [Transaction.dependents, hset, htell], hcounter, .inl ⟨htell, by simp [htells]⟩,
    fun h => absurd h hpanicked⟩

end

section Step
variable {conflictKey : RowId → Option Key} {s s' : System RowId Row} {taken : Step RowId Row}
  {id : TxId} {tx : Transaction RowId Row}

section
variable {history : History RowId Row} {x : TxId} {beginTs : Timestamp}
  {answer : Option TransactionState}

theorem History.load_registered :
    (history.load id beginTs x answer).registered = history.registered := by
  unfold History.load
  split <;> rfl

theorem History.load_notified : (history.load id beginTs x answer).notified = history.notified := by
  unfold History.load
  split <;> rfl

end

theorem History.Evolves.decided {clock : Timestamp} {old new : History RowId Row}
    (h : old.Evolves clock new)
    (hdecided : ∃ r, old.records id = some r ∧ r.outcome ≠ .pending) :
    ∃ r, new.records id = some r ∧ r.outcome ≠ .pending := by
  obtain ⟨r, hr, hdone⟩ := hdecided
  obtain ⟨r', hr', hev⟩ := h.records hr
  exact ⟨r', hr', hev.outcome hdone ▸ hdone⟩

section
variable (h : s.Edges) {clock : Timestamp} (hev : s.history.Evolves clock s'.history)
  (hregistered : s'.history.registered = s.history.registered)
  (hnotified : s'.history.notified = s.history.notified)
include h hev hregistered hnotified

/-- A step that registers and resolves no dependency: a new entry has none, and dependents are
forgotten by none but a transaction that fails its assertion. -/
theorem System.Edges.of_entries
    (he : ∀ {x tx'}, s'.store.txs x = some tx' → (∃ tx, s.store.txs x = some tx ∧
      tx'.dependents.Sublist tx.dependents ∧ (tx'.toNotify ≠ [] → tx'.commitState.tells) ∧
      tx'.commitDepCounter = tx.commitDepCounter) ∨
      tx'.dependents = [] ∧ tx'.toNotify = [] ∧ tx'.commitDepCounter = 0 ∧
      s.history.unresolved x = [])
    (hplace : ∀ {id x tx}, s.store.txs x = some tx →
      id ∈ tx.dependents ∨ tx.commitState = .panicked →
      ∃ tx', s'.store.txs x = some tx' ∧
      (id ∈ tx'.dependents ∨ tx'.commitState = .panicked)) : s'.Edges := by
  constructor
  case known =>
    intro id x hm
    rw [hregistered] at hm
    obtain ⟨r, hr⟩ := h.known hm
    exact (hev.records hr).imp fun _ => And.left
  case registered_once => exact hregistered ▸ h.registered_once
  case notified_once => exact hnotified ▸ h.notified_once
  case notified_subset => exact hregistered ▸ hnotified ▸ h.notified_subset
  case waiting =>
    intro id x tx' htx' hm
    rw [hregistered, hnotified]
    obtain ⟨tx, htx, hsublist, -⟩ | ⟨hno, -⟩ := he htx'
    · exact h.waiting htx (hsublist.subset hm)
    · simp [hno] at hm
  case once =>
    intro x tx' htx'
    obtain ⟨tx, htx, hsublist, -⟩ | ⟨hno, -⟩ := he htx'
    · exact (h.once htx).sublist hsublist
    · simp [hno]
  case telling =>
    intro x tx' htx'
    obtain ⟨tx, -, -, htelling, -⟩ | ⟨-, hno, -⟩ := he htx'
    · exact htelling
    · exact fun htelling => absurd hno htelling
  case place =>
    intro id x hm hopen
    rw [hregistered] at hm
    rw [hnotified] at hopen
    obtain ⟨tx, htx, ho⟩ := h.place hm hopen
    exact hplace htx ho
  case decided =>
    intro id x hm
    rw [hnotified] at hm
    exact hev.decided (h.decided hm)
  case counter =>
    intro id tx' htx'
    rw [History.unresolved, hregistered, hnotified]
    obtain ⟨tx, htx, -, -, hcounter⟩ | ⟨-, -, hcounter, hno⟩ := he htx'
    · exact hcounter.trans (h.counter htx)
    · exact hcounter.trans (congrArg (fun edges => (length edges : ℤ)) hno).symm

theorem System.Edges.of_same (htracks : s.Tracks (fun _ => SameEdges) s') : s'.Edges := by
  refine h.of_entries hev hregistered hnotified ?_ ?_
  · intro x tx' htx'
    obtain ⟨tx, htx, hsame⟩ := htracks.from_old htx'
    refine .inl ⟨tx, htx, hsame.dependents ▸ Sublist.refl _, fun htelling => ?_, hsame.counter⟩
    obtain ⟨htell, htells⟩ | htells := hsame.telling
    · exact htells (h.telling htx (htell ▸ htelling))
    · exact htells
  · intro id x tx htx hplace
    obtain ⟨tx', htx', hsame⟩ := htracks.of_old htx
    exact ⟨tx', htx', hplace.imp (hsame.dependents ▸ ·) hsame.panicked⟩

end

theorem System.Edges.modifyTx (h : s.Edges)
    {clock : Timestamp} (htx : s.store.txs id = some tx)
    (htxs : s'.store.txs = (s.store.modifyTx id f).txs) (hsame : tx.SameEdges (f tx))
    (hev : s.history.Evolves clock s'.history)
    (hregistered : s'.history.registered = s.history.registered)
    (hnotified : s'.history.notified = s.history.notified) : s'.Edges :=
  h.of_same hev hregistered hnotified (.modifyTx htxs htx hsame fun _ x _ => .refl x)

variable {history : History RowId Row} {edge : TxId × TxId}

theorem History.unresolved_notify (honce : history.registered.Nodup)
    (hm : edge ∈ history.registered) (hopen : edge ∉ history.notified) (id : TxId) :
    ({ history with notified := edge :: history.notified }.unresolved id).length =
      (history.unresolved id).length - if edge.1 = id then 1 else 0 := by
  have herase : { history with notified := edge :: history.notified }.unresolved id =
      (history.unresolved id).erase edge := by
    rw [History.unresolved, History.unresolved, (honce.filter _).erase_eq_filter, filter_filter]
    refine filter_congr fun x _ => ?_
    by_cases hx : x = edge <;> simp [hx, and_comm]
  rw [herase]
  split
  next hid =>
    simp [History.unresolved, hm, hid, hopen]
  next hid =>
    rw [erase_of_not_mem]
    · rfl
    · simp [History.unresolved, hid]

theorem History.unresolved_register (hopen : edge ∉ history.notified) (id : TxId) :
    ({ history with registered := edge :: history.registered }.unresolved id).length =
      (history.unresolved id).length + if edge.1 = id then 1 else 0 := by
  by_cases hid : edge.1 = id <;> simp [hid, hopen, History.unresolved]

/-- Nobody is told before the outcome is decided. -/
theorem System.Edges.silent (h : s.Edges) (htx : s.store.txs id = some tx)
    (htells : tx.commitState.tells = false) : tx.toNotify = [] := by
  by_contra htelling
  simp [h.telling htx htelling] at htells

/-- What registering comes to: a new edge, or an edge that is there already, or the order to abort,
or nothing if `x` is not preparing or gone. -/
theorem register_cases (s : System RowId Row) (id x : TxId) :
    (∃ dependedOn, s.store.txs x = some dependedOn ∧
      (∃ endTs, dependedOn.state = .preparing endTs) ∧ id ∉ dependedOn.commitDepSet ∧
      (s.store.registerCommitDependency id x).txs = ((s.store.modifyTx x fun tx =>
        { tx with commitDepSet := id :: tx.commitDepSet }).modifyTx id fun tx =>
          { tx with commitDepCounter := tx.commitDepCounter + 1 }).txs ∧
      s.history.register id x (s.store.txs x) =
        { s.history with registered := (id, x) :: s.history.registered }) ∨
    ∃ doomed : Bool, (s.store.registerCommitDependency id x).txs =
        (s.store.modifyTx id fun tx => { tx with abortNow := tx.abortNow || doomed }).txs ∧
      s.history.register id x (s.store.txs x) = s.history ∧
      ∀ {dependedOn}, s.store.txs x = some dependedOn →
        id ∈ dependedOn.commitDepSet ∨ doomed ∨ dependedOn.state = .active ∨
          ∃ ts, dependedOn.state = .committed ts := by
  have hsame : s.store.txs =
      (s.store.modifyTx id fun tx => { tx with abortNow := tx.abortNow || false }).txs := by
    simp [modifyTx]
  cases hx : s.store.txs x with
  | none =>
    refine .inr ⟨false, ?_, rfl, by simp⟩
    rw [← hsame, registerCommitDependency, hx]
  | some dependedOn =>
    cases hs : dependedOn.state with
    | preparing endTs =>
      by_cases hm : id ∈ dependedOn.commitDepSet
      · refine .inr ⟨false, ?_, ?_, ?_⟩
        · rw [← hsame]
          simp [registerCommitDependency, hx, hs, hm]
        · simp [History.register, hs, hm]
        · simp [hm]
      · refine .inl ⟨dependedOn, rfl, ⟨endTs, hs⟩, hm, ?_, ?_⟩
        · simp [registerCommitDependency, hx, hs, hm]
        · simp [History.register, hs, hm]
    | aborted | terminated =>
      refine .inr ⟨true, ?_, by simp [History.register, hs], by simp⟩
      simp [registerCommitDependency, hx, hs]
    | active | committed ts =>
      refine .inr ⟨false, ?_, by simp [History.register, hs], by simp [hs]⟩
      rw [← hsame]
      simp [registerCommitDependency, hx, hs]

variable [DecidableEq RowId] [DecidableEq Key]

/-- A transaction whose dependents are being told is decided. -/
theorem System.Agrees.decided_of_tells (h : s.Agrees) (htx : s.store.txs id = some tx)
    (htells : tx.commitState.tells) :
    tx.state.isRollbackable = false ∧
      ∃ r, s.history.records id = some r ∧ r.outcome ≠ .pending := by
  obtain ⟨r, hr, hmatches⟩ := h.known htx
  have hfits := hmatches.commitState
  have hmatch := hmatches.state
  refine ⟨?_, r, hr, ?_⟩
  all_goals
    cases hs : tx.state <;> cases hc : tx.commitState <;>
      simp_all [CommitState.tells, CommitState.Fits, TransactionState.Matches,
        TransactionState.isRollbackable]

theorem System.Agrees.ne_panicked (h : s.Agrees) (htx : s.store.txs id = some tx)
    (hs : tx.state.isRollbackable) : tx.commitState ≠ .panicked := by
  intro hpanicked
  obtain ⟨r, -, hmatches⟩ := h.known htx
  have hfits := hmatches.commitState
  rw [hpanicked] at hfits
  rcases hfits with ⟨endTs, hcom⟩ | hterminated <;> simp_all [TransactionState.isRollbackable]

section
variable (h : s.Edges) (hagrees : s.Agrees) (htx : s.store.txs id = some tx)
include h hagrees htx

/-- Nobody is told by a transaction that may still be rolled back. -/
theorem System.Edges.silent_of_rollbackable (hs : tx.state.isRollbackable) : tx.toNotify = [] := by
  refine h.silent htx (Bool.not_eq_true _ ▸ fun htells => ?_)
  simp [(hagrees.decided_of_tells htx htells).1] at hs

/-- Who depends on a transaction that may still be rolled back is in its dependency set. -/
theorem System.Edges.mem_commitDepSet (hs : tx.state.isRollbackable) {dependent : TxId}
    (hm : (dependent, id) ∈ s.history.registered) : dependent ∈ tx.commitDepSet := by
  have hopen : (dependent, id) ∉ s.history.notified := by
    intro hnotified
    obtain ⟨r, hr, hdone⟩ := h.decided hnotified
    exact hdone (hagrees.pending htx hs hr)
  obtain ⟨found, hf, hplace⟩ := h.place hm hopen
  rw [htx] at hf
  cases hf
  obtain hwaits | hpanicked := hplace
  · simpa [dependents, h.silent_of_rollbackable hagrees htx hs] using hwaits
  · exact absurd hpanicked (hagrees.ne_panicked htx hs)

/-- A dependent is told: `id` has one dependent fewer, the dependent one dependency fewer. -/
theorem System.Edges.resolve {dependent : TxId} {left : List TxId}
    (htell : tx.toNotify = dependent :: left)
    (hhistory : s'.history = { s.history with notified := (dependent, id) :: s.history.notified })
    (htracks : s.Tracks (fun x old new =>
      new.commitDepSet = old.commitDepSet ∧
      new.toNotify = (if x = id then left else old.toNotify) ∧
      new.commitState = old.commitState ∧
      new.commitDepCounter = old.commitDepCounter - if dependent = x then 1 else 0) s') :
    s'.Edges := by
  have hsplit : ∀ {waiter}, waiter ∈ tx.dependents ↔
      waiter = dependent ∨ waiter ∈ tx.commitDepSet ++ left := by
    intro waiter
    simp only [dependents, htell, mem_append, mem_cons]
    tauto
  have hnodup : (dependent :: (tx.commitDepSet ++ left)).Nodup := by
    have honce := h.once htx
    rw [dependents, htell] at honce
    exact nodup_middle.mp honce
  obtain ⟨hm, hopen⟩ := h.waiting htx (hsplit.mpr (.inl rfl))
  have he : ∀ {x tx'}, s'.store.txs x = some tx' → ∃ old, s.store.txs x = some old ∧
      (x = id ∧ old = tx ∧ tx'.dependents = tx.commitDepSet ++ left ∨
        x ≠ id ∧ tx'.dependents = old.dependents) := by
    intro x tx' htx'
    obtain ⟨old, ho, hset, htold, -⟩ := htracks.from_old htx'
    refine ⟨old, ho, ?_⟩
    by_cases hother : x = id
    · subst hother
      rw [htx] at ho
      cases ho
      exact .inl ⟨rfl, rfl, by rw [dependents, hset, htold, if_pos rfl]⟩
    · exact .inr ⟨hother, by
        rw [dependents, hset, htold, if_neg hother, dependents]⟩
  constructor
  case known => exact hhistory ▸ h.known
  case registered_once => exact hhistory ▸ h.registered_once
  case notified_once =>
    rw [hhistory]
    exact nodup_cons.mpr ⟨hopen, h.notified_once⟩
  case notified_subset =>
    rw [hhistory]
    exact cons_subset.mpr ⟨hm, h.notified_subset⟩
  case waiting =>
    intro waiter x tx' htx' hwaiter
    rw [hhistory]
    obtain ⟨old, ho, ⟨rfl, rfl, hdependents⟩ | ⟨hother, hdependents⟩⟩ := he htx' <;>
      rw [hdependents] at hwaiter
    · obtain ⟨hregistered, hunresolved⟩ := h.waiting htx (hsplit.mpr (.inr hwaiter))
      refine ⟨hregistered, not_mem_cons_of_ne_of_not_mem ?_ hunresolved⟩
      rintro ⟨rfl, -⟩
      exact (nodup_cons.mp hnodup).1 hwaiter
    · obtain ⟨hregistered, hunresolved⟩ := h.waiting ho hwaiter
      exact ⟨hregistered, not_mem_cons_of_ne_of_not_mem (by simp [hother]) hunresolved⟩
  case once =>
    intro x tx' htx'
    obtain ⟨old, ho, ⟨-, -, hdependents⟩ | ⟨-, hdependents⟩⟩ := he htx' <;> rw [hdependents]
    · exact hnodup.of_cons
    · exact h.once ho
  case telling =>
    intro x tx' htx' htelling
    obtain ⟨old, ho, -, htold, hcommit, -⟩ := htracks.from_old htx'
    rw [hcommit]
    refine h.telling ho fun hno => htelling ?_
    rw [htold]
    split
    next hother =>
      subst hother
      rw [htx] at ho
      cases ho
      simp [htell] at hno
    next => exact hno
  case place =>
    intro waiter x hregistered hunresolved
    rw [hhistory] at hregistered hunresolved
    obtain ⟨hne, hunresolved⟩ := ne_and_not_mem_of_not_mem_cons hunresolved
    obtain ⟨old, ho, hplace⟩ := h.place hregistered hunresolved
    obtain ⟨new, hnew, hset, htold, hcommit, -⟩ := htracks.of_old ho
    refine ⟨new, hnew, hcommit ▸ hplace.imp_left fun hwaiter => ?_⟩
    rw [dependents, hset, htold]
    split
    next hother =>
      subst hother
      rw [htx] at ho
      cases ho
      exact (hsplit.mp hwaiter).resolve_left fun hwaiter => hne (hwaiter ▸ rfl)
    next => exact hwaiter
  case decided =>
    intro waiter x hnotified
    rw [hhistory] at hnotified ⊢
    obtain hedge | hnotified := mem_cons.mp hnotified
    · cases hedge
      exact (hagrees.decided_of_tells htx (h.telling htx (by simp [htell]))).2
    · exact h.decided hnotified
  case counter =>
    intro x tx' htx'
    obtain ⟨old, ho, -, -, -, hcounter⟩ := htracks.from_old htx'
    have hpositive : dependent = x → 0 < (s.history.unresolved x).length := by
      rintro rfl
      exact length_pos_of_mem (a := (dependent, id)) (by simp [History.unresolved, hm, hopen])
    rw [hcounter, h.counter ho, hhistory, History.unresolved_notify h.registered_once hm hopen x]
    split_ifs with hself
    · have := hpositive hself
      omega
    · simp

end

theorem System.Edges.add (h : s.Edges) {x : TxId} {dependedOn : Transaction RowId Row}
    (htx : s.store.txs id = some tx) (hagrees : s.Agrees)
    (hx : s.store.txs x = some dependedOn)
    (hnew : (id, x) ∉ s.history.registered)
    (hhistory : s'.history = { s.history with registered := (id, x) :: s.history.registered })
    (htracks : s.Tracks (fun e old new =>
      new.commitDepSet = (if e = x then id :: old.commitDepSet else old.commitDepSet) ∧
      new.toNotify = old.toNotify ∧ new.commitState = old.commitState ∧
      new.commitDepCounter = old.commitDepCounter + if id = e then 1 else 0) s') :
    s'.Edges := by
  have hopen : (id, x) ∉ s.history.notified := fun hmem => hnew (h.notified_subset hmem)
  have hentry : ∀ {e tx'}, s'.store.txs e = some tx' → ∃ old, s.store.txs e = some old ∧
      tx'.dependents = if e = x then id :: old.dependents else old.dependents := by
    intro e tx' htx'
    obtain ⟨old, ho, hset, htold, -⟩ := htracks.from_old htx'
    refine ⟨old, ho, ?_⟩
    rw [dependents, hset, htold]
    split <;> rfl
  constructor
  case known =>
    intro dependent e hmem
    rw [hhistory] at hmem ⊢
    obtain hedge | hmem := mem_cons.mp hmem
    · cases hedge
      obtain ⟨r, hr, -⟩ := hagrees.known htx
      exact ⟨r, hr⟩
    · exact h.known hmem
  case registered_once =>
    rw [hhistory]
    exact nodup_cons.mpr ⟨hnew, h.registered_once⟩
  case notified_once => exact hhistory ▸ h.notified_once
  case notified_subset =>
    rw [hhistory]
    exact fun edge hmem => mem_cons_of_mem _ (h.notified_subset hmem)
  case waiting =>
    intro waiter e tx' htx' hwaiter
    obtain ⟨old, ho, hdependents⟩ := hentry htx'
    rw [hhistory]
    rw [hdependents] at hwaiter
    split at hwaiter
    next hentry =>
      subst hentry
      obtain rfl | hwaiter := mem_cons.mp hwaiter
      · exact ⟨mem_cons_self .., hopen⟩
      · exact (h.waiting ho hwaiter).imp_left (mem_cons_of_mem _)
    next => exact (h.waiting ho hwaiter).imp_left (mem_cons_of_mem _)
  case once =>
    intro e tx' htx'
    obtain ⟨old, ho, hdependents⟩ := hentry htx'
    rw [hdependents]
    split
    next hentry =>
      subst hentry
      exact nodup_cons.mpr ⟨fun hwaits => hnew (h.waiting ho hwaits).1, h.once ho⟩
    next => exact h.once ho
  case telling =>
    intro e tx' htx' htelling
    obtain ⟨old, ho, -, htold, hcommit, -⟩ := htracks.from_old htx'
    rw [hcommit]
    exact h.telling ho (htold ▸ htelling)
  case place =>
    intro waiter e hmem hunresolved
    rw [hhistory] at hmem hunresolved
    -- the new edge waits at `x`, the others where they did
    have hplace : ∃ old, s.store.txs e = some old ∧
        (e = x ∧ waiter = id ∨ waiter ∈ old.dependents ∨ old.commitState = .panicked) := by
      obtain hedge | hmem := mem_cons.mp hmem
      · cases hedge
        exact ⟨dependedOn, hx, .inl ⟨rfl, rfl⟩⟩
      · obtain ⟨old, ho, hplace⟩ := h.place hmem hunresolved
        exact ⟨old, ho, .inr hplace⟩
    obtain ⟨old, ho, hplace⟩ := hplace
    obtain ⟨new, hnew, hset, htold, hcommit, -⟩ := htracks.of_old ho
    refine ⟨new, hnew, ?_⟩
    rw [dependents, hset, htold, hcommit]
    obtain ⟨rfl, rfl⟩ | hwaiter | hpanicked := hplace
    · exact .inl (by simp)
    · rw [dependents] at hwaiter
      exact .inl (by split <;> simp [hwaiter])
    · exact .inr hpanicked
  case decided => exact hhistory ▸ h.decided
  case counter =>
    intro e tx' htx'
    obtain ⟨old, ho, -, -, -, hcounter⟩ := htracks.from_old htx'
    rw [hcounter, h.counter ho, hhistory, History.unresolved_register hopen e]
    split <;> simp

theorem System.Edges.step (h : s.Edges) (hagrees : s.Agrees)
    (ht : Transition conflictKey s taken s') : s'.Edges := by
  have hev := ht.evolves hagrees
  cases ht with
  | beginTx =>
    have hno : s.history.unresolved s.store.nextTx = [] := by
      rw [History.unresolved, filter_eq_nil_iff]
      rintro ⟨id, other⟩ hm hid
      simp only [decide_eq_true_eq] at hid
      obtain ⟨record, hrecord⟩ := h.known hm
      exact lt_irrefl _ (hid.1 ▸ hagrees.bound hrecord)
    refine h.of_entries hev rfl rfl ?_ ?_
    · intro other tx' htx'
      obtain ⟨rfl, rfl⟩ | ⟨-, ho⟩ := PartialMap.update_eq_some htx'
      · exact .inr ⟨rfl, rfl, rfl, hno⟩
      · exact .inl ⟨tx', ho, Sublist.refl _, h.telling ho, rfl⟩
    · intro id other tx htx hplace
      obtain ⟨record, hrecord, -⟩ := hagrees.known htx
      exact ⟨tx, (update_of_ne (hagrees.bound hrecord).ne ..).trans htx, hplace⟩
  | tick => exact h.of_same hev rfl rfl ⟨fun htx => ⟨_, htx, .refl _⟩, fun htx => ⟨_, htx⟩⟩
  | wait htx hstate hcounter => exact h
  | start htx hss hmay hlock | inspect htx hss | finishRead htx hss
  | finishProbe htx hss | finishNoDelete htx hss houtcome | finishDelete htx hss
  | dirtyHeader htx hactive | abandon htx hstate =>
    exact h.modifyTx htx rfl (.of_fields rfl rfl rfl rfl) hev rfl rfl
  | load htx hss =>
    refine h.modifyTx htx rfl (.of_fields rfl rfl rfl rfl) hev ?_ ?_
    · exact History.load_registered
    · exact History.load_notified
  | @register id tx r purpose other next htx hss =>
    obtain ⟨dependedOn, hother, ⟨endTs, hpreparing⟩, hset, htxs, hregistered⟩ |
      ⟨doomed, htxs, hregistered, -⟩ := register_cases s id other
    · refine h.add htx hagrees hother ?_ hregistered ⟨?_, ?_⟩
      · -- an edge that is there already would wait at `other`, which is not decided
        exact fun hm => hset (h.mem_commitDepSet hagrees hother (by rw [hpreparing]; rfl) hm)
      · intro entry tx' htx'
        obtain ⟨last, hlast, rfl⟩ := modifyTx_txs_eq_some.mp htx'
        rw [htxs] at hlast
        obtain ⟨middle, hmiddle, rfl⟩ := modifyTx_txs_eq_some.mp hlast
        obtain ⟨old, ho, rfl⟩ := modifyTx_txs_eq_some.mp hmiddle
        refine ⟨old, ho, ?_⟩
        by_cases hid : id = entry <;> by_cases hentry : entry = other <;> simp_all [eq_comm]
      · intro entry old ho
        refine modifyTx_known ?_
        rw [htxs]
        exact modifyTx_known (modifyTx_known ⟨old, ho⟩)
    · have hst : (resume (s.store.registerCommitDependency id other) id
          ⟨r, purpose, next ()⟩).txs = (s.store.modifyTx id fun tx => { tx with
            abortNow := tx.abortNow || doomed
            session := some ⟨r, purpose, next ()⟩ }).txs := by
        simp [resume, MvStore.modifyTx, htxs, comp_def]
      refine h.modifyTx htx hst (.of_fields rfl rfl rfl rfl) hev ?_ ?_ <;>
        simp [hregistered]
  | finishTombstone htx hss | insert htx hss hactive hvacant hlock =>
    exact h.modifyTx htx MvStore.addVersion_modifyTx_txs (.of_fields rfl rfl rfl rfl) hev
      rfl rfl
  | finishValidate htx hss =>
    obtain ⟨record, -, hmatches⟩ := hagrees.known htx
    obtain ⟨rows, chains, hstate⟩ := mayStart_validate.mp (hmatches.session _ hss)
    exact h.modifyTx htx rfl (.of_silent rfl rfl rfl (by rw [hstate]; rfl) (by simp [hstate]))
      hev rfl rfl
  | prepare htx hss hactive =>
    obtain ⟨record, -, hmatches⟩ := hagrees.known htx
    have hinitial := hmatches.initial hactive
    exact h.modifyTx htx rfl (.of_silent rfl rfl rfl (by rw [hinitial]; rfl)
      (by simp [hinitial])) hev rfl rfl
  | nextRow htx hstate | validated htx hstate | waited htx hstate hcounter
  | commitReadOnly htx hstate habort hreadOnly | resolved htx hstate habort
  | commitEnd htx hstate | rewrite htx hstate hlock | finishAbandoned htx hstate habandoned =>
    exact h.modifyTx htx rfl (.of_silent rfl rfl rfl (by rw [hstate]; rfl)
      (by simp [hstate])) hev rfl rfl
  | fail htx hstate =>
    rcases hstate with ⟨hstate, -⟩ | ⟨hstate, -⟩ <;>
    exact h.modifyTx htx rfl (.of_silent rfl rfl rfl (by rw [hstate]; rfl) (by simp [hstate]))
      hev rfl rfl
  | rollBack htx hstate htold hlock | terminate htx hstate htold =>
    exact h.modifyTx htx rfl ⟨rfl, rfl, .inr rfl, by simp [hstate]⟩ hev rfl rfl
  | finalizeCommit htx hstate habandoned =>
    have hno := h.silent htx (by rw [hstate]; rfl)
    exact h.modifyTx htx rfl ⟨by simp [dependents, hno], rfl, .inr rfl,
      by simp [hstate]⟩ hev rfl rfl
  | @abort id tx htx hss hstate =>
    have hno := h.silent_of_rollbackable hagrees htx hstate
    refine h.of_same hev rfl rfl ⟨?_, ?_⟩
    · intro other tx' htx'
      obtain ⟨middle, hmiddle, rfl⟩ := modifyTx_txs_eq_some.mp htx'
      obtain ⟨old, ho, rfl⟩ := MvStore.tellToAbort_txs_eq_some.mp hmiddle
      refine ⟨old, ho, ?_⟩
      split
      next hother =>
        subst hother
        rw [htx] at ho
        cases ho
        split <;> exact ⟨by simp [dependents, hno], rfl, .inr rfl,
          fun hpanicked => absurd hpanicked (hagrees.ne_panicked htx hstate)⟩
      next => split <;> exact .of_fields rfl rfl rfl rfl
    · intro other old ho
      refine ⟨_, modifyTx_txs_eq_some.mpr ⟨_, MvStore.tellToAbort_txs_eq_some.mpr
        ⟨old, ho, rfl⟩, rfl⟩⟩
  | @panic id tx htx hstate htold hset =>
    refine h.of_entries hev rfl rfl ?_ ?_
    · intro other tx' htx'
      obtain ⟨rfl, rfl⟩ | ⟨-, ho⟩ := MvStore.modifyTx_cases htx htx'
      · exact .inl ⟨tx, htx, by simp [dependents, htold], by simp [htold], rfl⟩
      · exact .inl ⟨tx', ho, Sublist.refl _, h.telling ho, rfl⟩
    · intro dependent other old ho hplace
      refine ⟨_, modifyTx_txs_eq_some.mpr ⟨old, ho, rfl⟩, ?_⟩
      split
      · exact .inr rfl
      · exact hplace
  | @remove id tx htx hstate htold hset =>
    have hothers : ∀ {other}, other ≠ id → (System.store ⟨{ s.store.finalizeTxState id tx with
        txs := update s.store.txs id none }, s.history⟩).txs other =
          s.store.txs other := fun hother => update_of_ne hother ..
    refine h.of_entries hev rfl rfl ?_ ?_
    · intro other tx' htx'
      have hother : other ≠ id := by
        rintro rfl
        simp at htx'
      rw [hothers hother] at htx'
      exact .inl ⟨tx', htx', Sublist.refl _, h.telling htx', rfl⟩
    · intro dependent other old ho hplace
      have hother : other ≠ id := by
        rintro rfl
        rw [htx] at ho
        cases ho
        simp [dependents, htold, hset, hstate] at hplace
      exact ⟨old, (hothers hother).trans ho, hplace⟩
  | @notify id tx dependent left htx htell =>
    refine h.resolve hagrees htx htell rfl ⟨?_, ?_⟩
    · intro other tx' htx'
      obtain ⟨middle, hmiddle, rfl⟩ := modifyTx_txs_eq_some.mp htx'
      obtain ⟨old, ho, rfl⟩ := modifyTx_txs_eq_some.mp hmiddle
      refine ⟨old, ho, ?_⟩
      by_cases hid : other = id <;> by_cases hdependent : dependent = other <;> simp_all [eq_comm]
    · intro other old ho
      exact modifyTx_known (modifyTx_known ⟨old, ho⟩)

end Step

end Turso.Mvcc
