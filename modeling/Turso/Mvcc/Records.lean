import Turso.Foundation.PartialMap
import Turso.Mvcc.Transition
import Mathlib.Order.Basic
import Mathlib.Data.Nat.Basic

/-!
# Transactions and their records

The record of a transaction says what the store says of it, as long as it is in the map; once it
is removed it has an outcome.  Timestamps are drawn one after the other: no end is drawn twice and
none is the begin of a transaction.
-/

namespace Turso.Mvcc

open CommitState MvStore Transaction Function PartialMap Nat

variable {RowId Row Key : Type}
variable {row : RowId} {record' : Record RowId Row} {commitState : CommitState RowId}
  {g : Record RowId Row → Record RowId Row}

/-! ## Looking up what a step leaves -/

section Store
variable {st : MvStore RowId Row} {id other : TxId} {tx tx' : Transaction RowId Row}
  {f : Transaction RowId Row → Transaction RowId Row}

theorem MvStore.modifyTx_txs : (st.modifyTx id f).txs other =
    if other = id then (st.txs other).map f else st.txs other := by
  unfold modifyTx
  by_cases h : other = id
  · subst h
    simp
  · simp [h]

/-- An entry after a change comes from an entry before it. -/
theorem MvStore.modifyTx_txs_eq_some : (st.modifyTx id f).txs other = some tx' ↔
    ∃ tx, st.txs other = some tx ∧ tx' = if other = id then f tx else tx := by
  rw [modifyTx_txs]
  split <;> simp [@eq_comm _ tx']

theorem MvStore.modifyTx_self (htx : st.txs id = some tx) :
    (st.modifyTx id f).txs id = some (f tx) :=
  modifyTx_txs_eq_some.mpr ⟨tx, htx, (if_pos rfl).symm⟩

theorem MvStore.eq_of_modifyTx_self (htx' : (st.modifyTx id f).txs id = some tx')
    (htx : st.txs id = some tx) : tx' = f tx :=
  Option.some.inj (htx'.symm.trans (modifyTx_self htx))

theorem MvStore.modifyTx_known (htx : ∃ tx, st.txs other = some tx) :
    ∃ tx', (st.modifyTx id f).txs other = some tx' := by
  obtain ⟨tx, htx⟩ := htx
  exact ⟨_, modifyTx_txs_eq_some.mpr ⟨tx, htx, rfl⟩⟩

theorem MvStore.modifyTx_cases (htx : st.txs id = some tx)
    (htx' : (st.modifyTx id f).txs other = some tx') :
    other = id ∧ tx' = f tx ∨ other ≠ id ∧ st.txs other = some tx' := by
  obtain ⟨old, ho, rfl⟩ := modifyTx_txs_eq_some.mp htx'
  split
  next hother =>
    subst hother
    rw [htx] at ho
    cases ho
    exact .inl ⟨rfl, rfl⟩
  next hother => exact .inr ⟨hother, ho⟩

theorem MvStore.modifyTx_txs_eq_none :
    (st.modifyTx id f).txs other = none ↔ st.txs other = none := by
  rw [modifyTx_txs]
  split <;> simp

variable {dependents : List TxId}

theorem MvStore.tellToAbort_txs_eq_some :
    (st.tellToAbort dependents).txs other = some tx' ↔ ∃ tx, st.txs other = some tx ∧
        tx' = if other ∈ dependents then { tx with abortNow := true } else tx := by
  unfold tellToAbort
  split <;> simp [*, @eq_comm _ tx']

theorem MvStore.tellToAbort_txs_eq_none :
    (st.tellToAbort dependents).txs other = none ↔ st.txs other = none := by
  unfold tellToAbort
  by_cases h : other ∈ dependents <;> simp [h]

theorem MvStore.addVersion_modifyTx_txs [DecidableEq RowId] {version : RowVersion Row} :
    ((st.addVersion id row version).modifyTx id f).txs =
      (st.modifyTx id fun tx => f (tx.insertToWriteSet row)).txs := by
  funext other
  simp only [addVersion, modifyTx_txs]
  split <;> simp [setRow, comp_def, *]

/-- What another transaction may change of an entry: the dependents, the counter, and perhaps the
order to abort. -/
def Transaction.Touched (tx tx' : Transaction RowId Row) : Prop :=
  ∃ commitDepSet counter, ∃ abortNow : Bool, (tx.abortNow → abortNow) ∧ tx' =
    { tx with commitDepSet := commitDepSet, commitDepCounter := counter, abortNow := abortNow }

theorem Transaction.Touched.refl (tx : Transaction RowId Row) : tx.Touched tx :=
  ⟨_, _, _, fun h => h, rfl⟩

variable {dependent : TxId}

theorem MvStore.registerCommitDependency_touched
    (h : (st.registerCommitDependency dependent id).txs other = some tx') :
    ∃ tx, st.txs other = some tx ∧ tx.Touched tx' := by
  unfold registerCommitDependency at h
  split at h
  · exact ⟨tx', h, .refl tx'⟩
  split at h
  · split at h
    · exact ⟨tx', h, .refl tx'⟩
    · obtain ⟨middle, hmiddle, rfl⟩ := modifyTx_txs_eq_some.mp h
      obtain ⟨tx, htx, rfl⟩ := modifyTx_txs_eq_some.mp hmiddle
      refine ⟨tx, htx, ?_⟩
      split <;> split <;> exact ⟨_, _, _, fun h => h, rfl⟩
  · obtain ⟨tx, htx, rfl⟩ := modifyTx_txs_eq_some.mp h
    refine ⟨tx, htx, ?_⟩
    split
    · exact ⟨_, _, _, fun _ => rfl, rfl⟩
    · exact .refl tx
  · obtain ⟨tx, htx, rfl⟩ := modifyTx_txs_eq_some.mp h
    refine ⟨tx, htx, ?_⟩
    split
    · exact ⟨_, _, _, fun _ => rfl, rfl⟩
    · exact .refl tx
  · exact ⟨tx', h, .refl tx'⟩
  · exact ⟨tx', h, .refl tx'⟩

theorem MvStore.registerCommitDependency_txs_eq_none
    (h : (st.registerCommitDependency dependent id).txs other = none) : st.txs other = none := by
  unfold registerCommitDependency at h
  split at h
  · exact h
  split at h
  · split at h
    · exact h
    · exact modifyTx_txs_eq_none.mp (modifyTx_txs_eq_none.mp h)
  · exact modifyTx_txs_eq_none.mp h
  · exact modifyTx_txs_eq_none.mp h
  · exact h
  · exact h

end Store

variable [DecidableEq RowId] [DecidableEq Key]

/-! ## Agreement -/

/-- What the state of a transaction says of its record. -/
def TransactionState.Matches (record : Record RowId Row) : TransactionState → Prop
  | .active => record.endTs = none ∧ record.outcome = .pending
  | .preparing endTs => record.endTs = some endTs ∧ record.outcome = .pending
  | .committed endTs => record.endTs = some endTs ∧ record.outcome = .committed
  | .aborted | .terminated => record.outcome = .aborted

/-- In which state the transaction is at each state of its commit. -/
def CommitState.Fits (state : TransactionState) : CommitState RowId → Prop
  | .initial => state = .active
  | .commit _ _ | .waitForDependencies | .dependenciesResolved | .logicalLog | .failed =>
    ∃ endTs, state = .preparing endTs
  | .rewriteLiveVersions _ => ∃ endTs, state = .committed endTs
  | .rollback _ => state = .aborted
  | .finished | .panicked => (∃ endTs, state = .committed endTs) ∨ state = .terminated

/-- When a session may be open: while the transaction is active, or for the chain that is
validated next. -/
def Transaction.SessionFits (tx : Transaction RowId Row) : Prop :=
  ∀ session ∈ tx.session, tx.mayStart session.row session.purpose

structure Transaction.Matches (tx : Transaction RowId Row) (record : Record RowId Row) : Prop where
  beginTs : record.beginTs = tx.beginTs
  state : tx.state.Matches record
  commitState : tx.commitState.Fits tx.state
  session : tx.SessionFits

/-- The map of transactions and the records agree, and the timestamps are in order. -/
structure Agreement (clock : Timestamp) (nextTx : TxId)
    (txs : TxId → Option (Transaction RowId Row)) (records : TxId → Option (Record RowId Row))
    (ender : Timestamp → Option TxId) : Prop where
  known : ∀ {id tx}, txs id = some tx → ∃ record, records id = some record ∧ tx.Matches record
  gone : ∀ {id record}, records id = some record → txs id = none → record.outcome ≠ .pending
  bound : ∀ {id record}, records id = some record → id < nextTx
  begin_le : ∀ {id record}, records id = some record → record.beginTs ≤ clock
  begin_lt_end : ∀ {id record endTs}, records id = some record → record.endTs = some endTs →
    record.beginTs < endTs
  end_le : ∀ {id record endTs}, records id = some record → record.endTs = some endTs →
    endTs ≤ clock
  ender_iff : ∀ {ts id}, ender ts = some id ↔
    ∃ record, records id = some record ∧ record.endTs = some ts
  begin_ne_end : ∀ {id other record record'}, records id = some record →
    records other = some record' → record'.endTs ≠ some record.beginTs
  committed_end : ∀ {id record}, records id = some record → record.outcome = .committed →
    record.endTs ≠ none

/-- The record of a system agrees with its store. -/
def System.Agrees (s : System RowId Row) : Prop :=
  Agreement s.store.clock s.store.nextTx s.store.txs s.history.records s.history.ender

theorem agrees_empty : (System.empty : System RowId Row).Agrees := by
  constructor <;> simp [System.empty, empty, History.empty]

omit [DecidableEq RowId] in
/-- A record after a change comes from a record before it. -/
theorem History.modify_records_eq_some {history : History RowId Row} {id other : TxId}
    {f : Record RowId Row → Record RowId Row} :
    (history.modify id f).records other = some record' ↔
      ∃ record, history.records other = some record ∧
        record' = if other = id then f record else record := by
  unfold History.modify
  by_cases hother : other = id
  · subst hother
    simp [@eq_comm _ record']
  · simp [hother]

section Agreement
variable {clock : Timestamp} {nextTx : TxId} {txs txs' : TxId → Option (Transaction RowId Row)}
  {rs : TxId → Option (Record RowId Row)} {ender : Timestamp → Option TxId}

section
variable (h : Agreement clock nextTx txs rs ender)
include h

/-- A step that changes entries but no record keeps the agreement, if each entry matches what it
matched before. -/
theorem Agreement.of_txs (hsome : ∀ {id tx'}, txs' id = some tx' → ∃ tx, txs id = some tx ∧
      ∀ {record}, tx.Matches record → tx'.Matches record)
    (hno : ∀ {id record}, txs' id = none → rs id = some record →
      txs id = none ∨ record.outcome ≠ .pending) :
    Agreement clock nextTx txs' rs ender where
  known := by
    intro id tx' htx'
    obtain ⟨tx, htx, hmatches⟩ := hsome htx'
    obtain ⟨record, hrecord, ho⟩ := h.known htx
    exact ⟨record, hrecord, hmatches ho⟩
  gone := by
    intro id record hrecord htx'
    rcases hno htx' hrecord with htx | hdone
    · exact h.gone hrecord htx
    · exact hdone
  bound := h.bound
  begin_le := h.begin_le
  begin_lt_end := h.begin_lt_end
  end_le := h.end_le
  ender_iff := h.ender_iff
  begin_ne_end := h.begin_ne_end
  committed_end := h.committed_end

/-- A step that sets one record, and an entry with it. -/
theorem Agreement.update {id nextTx' : TxId} {clock' : Timestamp} {ender' : Timestamp → Option TxId}
    (hclock : clock ≤ clock') (hnx : nextTx ≤ nextTx') (hid : id < nextTx')
    (hsome : ∀ {other tx'}, txs' other = some tx' → other = id ∧ tx'.Matches record' ∨
      other ≠ id ∧ ∃ tx, txs other = some tx ∧ ∀ {record}, tx.Matches record → tx'.Matches record)
    (hno : ∀ {other}, txs' other = none → other ≠ id ∧ txs other = none)
    (hbg : record'.beginTs ≤ clock')
    (he : ∀ {endTs}, record'.endTs = some endTs → record'.beginTs < endTs ∧ endTs ≤ clock')
    (hender : ∀ {ts other}, ender' ts = some other ↔
      if other = id then record'.endTs = some ts else ender ts = some other)
    (hdiffer : ∀ {other record}, other ≠ id → rs other = some record →
      record.endTs ≠ some record'.beginTs ∧ record'.endTs ≠ some record.beginTs)
    (hcom : record'.outcome = .committed → record'.endTs ≠ none) :
    Agreement clock' nextTx' txs' (update rs id (some record')) ender' := by
  constructor
  case known =>
    intro other tx htx
    rcases hsome htx with ⟨rfl, hmatches⟩ | ⟨hother, old, hold, hkeeps⟩
    · exact ⟨record', update_self .., hmatches⟩
    · obtain ⟨found, hf, hmatches⟩ := h.known hold
      exact ⟨found, by rwa [update_of_ne hother], hkeeps hmatches⟩
  case gone =>
    intro other found hf htx
    obtain ⟨hother, htx⟩ := hno htx
    rw [update_of_ne hother] at hf
    exact h.gone hf htx
  case bound =>
    intro other found hf
    obtain ⟨rfl, -⟩ | ⟨-, hold⟩ := update_eq_some hf
    · exact hid
    · exact (h.bound hold).trans_le hnx
  case begin_le =>
    intro other found hf
    obtain ⟨-, rfl⟩ | ⟨-, hold⟩ := update_eq_some hf
    · exact hbg
    · exact (h.begin_le hold).trans hclock
  case begin_lt_end =>
    intro other found endTs hf hendTs
    obtain ⟨-, rfl⟩ | ⟨-, hold⟩ := update_eq_some hf
    · exact (he hendTs).1
    · exact h.begin_lt_end hold hendTs
  case end_le =>
    intro other found endTs hf hendTs
    obtain ⟨-, rfl⟩ | ⟨-, hold⟩ := update_eq_some hf
    · exact (he hendTs).2
    · exact (h.end_le hold hendTs).trans hclock
  case ender_iff =>
    intro ts other
    rw [hender]
    split
    next hother => simp [hother]
    next hother => rw [h.ender_iff, update_of_ne hother]
  case begin_ne_end =>
    intro other other' found found' hf hf'
    obtain ⟨-, rfl⟩ | ⟨hother, hold⟩ := update_eq_some hf <;>
      obtain ⟨-, rfl⟩ | ⟨hother', ho'⟩ := update_eq_some hf'
    · exact fun heq => lt_irrefl _ (he heq).1
    · exact (hdiffer hother' ho').1
    · exact (hdiffer hother hold).2
    · exact h.begin_ne_end hold ho'
  case committed_end =>
    intro other found hf
    obtain ⟨-, rfl⟩ | ⟨-, hold⟩ := update_eq_some hf
    · exact hcom
    · exact h.committed_end hold

variable {record : Record RowId Row}

/-- A step that changes one record, but neither its begin nor its end, and an entry with it. -/
theorem Agreement.modify {id : TxId} {tx' : Transaction RowId Row}
    (hrecord : rs id = some record) (hbg : record'.beginTs = record.beginTs)
    (he : record'.endTs = record.endTs) (htxs : txs' id = some tx')
    (hmatches : tx'.Matches record')
    (hothers : ∀ {other tx'}, other ≠ id → txs' other = some tx' → ∃ tx, txs other = some tx ∧
      ∀ {record}, tx.Matches record → tx'.Matches record)
    (hno : ∀ {other}, txs' other = none → txs other = none)
    (hcom : record'.outcome = .committed → record'.endTs ≠ none) :
    Agreement clock nextTx txs' (Function.update rs id (some record')) ender := by
  refine h.update le_rfl le_rfl (h.bound hrecord) ?_ ?_ (hbg ▸ h.begin_le hrecord) ?_ ?_ ?_ hcom
  · intro other tx htx
    by_cases hother : other = id
    · subst hother
      rw [htxs] at htx
      cases htx
      exact .inl ⟨rfl, hmatches⟩
    · exact .inr ⟨hother, hothers hother htx⟩
  · intro other htx
    refine ⟨?_, hno htx⟩
    rintro rfl
    simp [htxs] at htx
  · intro endTs hendTs
    rw [he] at hendTs
    exact ⟨hbg ▸ h.begin_lt_end hrecord hendTs, h.end_le hrecord hendTs⟩
  · intro ts other
    split
    next hother => simp [h.ender_iff, hother, hrecord, he]
    next => rfl
  · intro other found _ hf
    rw [hbg, he]
    exact ⟨h.begin_ne_end hrecord hf, h.begin_ne_end hf hrecord⟩

theorem Agreement.tick : Agreement (clock + 1) nextTx txs rs ender :=
  { h with
    begin_le := fun hrecord => (h.begin_le hrecord).trans (le_succ clock)
    end_le := fun hrecord he => (h.end_le hrecord he).trans (le_succ clock) }

end

theorem matches_of_update {id other : TxId} {tx tx' : Transaction RowId Row}
    (hmatches : tx.Matches record') (htx' : update txs id (some tx) other = some tx') :
    other = id ∧ tx'.Matches record' ∨ other ≠ id ∧ ∃ tx, txs other = some tx ∧
      ∀ {record}, tx.Matches record → tx'.Matches record := by
  obtain ⟨hother, rfl⟩ | ⟨hother, ho⟩ := update_eq_some htx'
  · exact .inl ⟨hother, hmatches⟩
  · exact .inr ⟨hother, tx', ho, fun hmatches => hmatches⟩

theorem Agreement.prepare (h : Agreement clock nextTx txs rs ender) {id : TxId}
    {tx' : Transaction RowId Row} (hrecord : rs id = some record)
    (hno : record.endTs = none) (hbg : record'.beginTs = record.beginTs)
    (he : record'.endTs = some (clock + 1)) (hmatches : tx'.Matches record') :
    Agreement (clock + 1) nextTx (Function.update txs id (some tx'))
      (Function.update rs id (some record')) (Function.update ender (clock + 1) (some id)) := by
  have hle : record'.beginTs ≤ clock := hbg ▸ h.begin_le hrecord
  refine h.update (le_succ _) le_rfl (h.bound hrecord) (matches_of_update hmatches)
    update_eq_none.1 (hle.trans (le_succ _)) ?_ ?_ ?_
    (by simp [he])
  · intro endTs hendTs
    rw [he] at hendTs
    cases hendTs
    exact ⟨lt_succ_of_le hle, le_rfl⟩
  · intro ts other
    -- the new end is later than every end so far, and the transaction had none
    by_cases hts : ts = clock + 1
    · have hfresh : ender (clock + 1) ≠ some other := by
        rw [Ne, h.ender_iff]
        rintro ⟨found, hf, hts⟩
        exact not_succ_le_self clock (h.end_le hf hts)
      subst hts
      split <;> simp_all [eq_comm]
    · rw [update_of_ne hts, he]
      split
      next hother => simp [h.ender_iff, hother, hrecord, hno, Ne.symm hts]
      next => rfl
  · intro other found _ hf
    rw [hbg, he]
    refine ⟨h.begin_ne_end hrecord hf, fun heq => ?_⟩
    exact not_succ_le_self clock ((Option.some.inj heq).trans_le (h.begin_le hf))

theorem Agreement.begin (h : Agreement clock nextTx txs rs ender)
    {tx : Transaction RowId Row} (hmatches : tx.Matches record)
    (hbg : record.beginTs = clock + 1) (he : record.endTs = none)
    (houtcome : record.outcome = .pending) :
    Agreement (clock + 1) (nextTx + 1) (Function.update txs nextTx (some tx))
      (Function.update rs nextTx (some record)) ender := by
  refine h.update (le_succ _) (le_succ _) (lt_succ_self _) (matches_of_update hmatches)
    update_eq_none.1 hbg.le (by simp [he]) ?_ ?_
    (by simp [houtcome])
  · intro ts other
    split
    next hother =>
      have hnew : ender ts ≠ some other := by
        rw [Ne, h.ender_iff]
        rintro ⟨found, hf, -⟩
        exact absurd (h.bound hf) (hother ▸ lt_irrefl _)
      simp [hnew, he]
    next => rfl
  · intro other found _ hf
    rw [hbg, he]
    exact ⟨fun heq => not_succ_le_self clock (h.end_le hf heq), nofun⟩

end Agreement

section Step
variable {conflictKey : RowId → Option Key} {s s' : System RowId Row} {taken : Step RowId Row}
  {id : TxId} {tx : Transaction RowId Row} {record : Record RowId Row}

theorem Transaction.mayStart_validate : tx.mayStart row .validate = true ↔
    ∃ rows chains, tx.commitState = .commit rows (row :: chains) := by
  unfold mayStart
  cases tx.commitState with
  | commit rows chains => cases chains <;> simp [eq_comm]
  | _ => simp

theorem Transaction.mayStart_operation {purpose : Purpose Row} (hpurpose : purpose ≠ .validate) :
    tx.mayStart row purpose = true ↔ tx.state = .active := by
  cases purpose <;> simp_all [mayStart]

theorem Transaction.mayStart_congr {tx' : Transaction RowId Row} (hstate : tx'.state = tx.state)
    (hcommit : tx'.commitState = tx.commitState) (r : RowId) (purpose : Purpose Row) :
    tx'.mayStart r purpose = tx.mayStart r purpose := by
  cases purpose <;> simp only [mayStart, hstate, hcommit]

section
variable {tx' : Transaction RowId Row} (h : tx.Matches record) (hbg : tx'.beginTs = tx.beginTs)
  (hstate : tx'.state = tx.state) (hcommit : tx'.commitState = tx.commitState)
include h hbg hstate hcommit

/-- Two entries in the same states match the same records, if a session of the one is for the same
row and purpose as that of the other. -/
theorem Transaction.Matches.congr (hss : ∀ ss' ∈ tx'.session, ∃ ss ∈ tx.session,
      ss'.row = ss.row ∧ ss'.purpose = ss.purpose) : tx'.Matches record := by
  refine ⟨hbg ▸ h.beginTs, hstate ▸ h.state, hstate ▸ hcommit ▸ h.commitState, ?_⟩
  intro ss' hss'
  obtain ⟨ss, hm, hr, hpurpose⟩ := hss ss' hss'
  rw [mayStart_congr hstate hcommit, hr, hpurpose]
  exact h.session ss hm

theorem Transaction.Matches.same_session (hss : tx'.session = tx.session) : tx'.Matches record :=
  h.congr hbg hstate hcommit fun ss hm => ⟨ss, hss ▸ hm, rfl, rfl⟩

theorem Transaction.Matches.no_session (hss : tx'.session = none) : tx'.Matches record :=
  h.congr hbg hstate hcommit fun ss hm => by simp [hss] at hm

end

theorem Transaction.Matches.resume (h : tx.Matches record) {purpose : Purpose Row}
    {check check' : Check purpose.Finding} (hss : tx.session = some ⟨row, purpose, check⟩) :
    Matches { tx with session := some ⟨row, purpose, check'⟩ } record := by
  refine h.congr rfl rfl rfl ?_
  rintro ss ⟨⟩
  exact ⟨_, hss, rfl, rfl⟩

section
variable (h : tx.Matches record) (hstate : tx.state ≠ .active)
  (hcommit : ∀ rows chain chains, tx.commitState ≠ .commit rows (chain :: chains))
include h hstate hcommit

/-- No session is open beyond the active state and validation. -/
theorem Transaction.Matches.session_eq_none : tx.session = none := by
  cases hss : tx.session with
  | none => rfl
  | some ss =>
    exfalso
    have hmay := h.session ss hss
    by_cases hpurpose : ss.purpose = .validate
    · rw [hpurpose] at hmay
      obtain ⟨rows, chains, hrows⟩ := mayStart_validate.mp hmay
      exact hcommit rows _ chains hrows
    · exact hstate ((mayStart_operation hpurpose).mp hmay)

/-- On to another state of the commit, in the same state of the transaction. -/
theorem Transaction.Matches.advance (hfits : commitState.Fits tx.state) :
    Matches { tx with commitState := commitState } record := by
  refine ⟨h.beginTs, h.state, hfits, ?_⟩
  intro ss hss
  rw [h.session_eq_none hstate hcommit] at hss
  cases hss

end

theorem Transaction.Matches.commit (h : tx.Matches record) {endTs : Timestamp}
    (hstate : tx.state = .preparing endTs)
    (hcommit : ∀ rows chain chains, tx.commitState ≠ .commit rows (chain :: chains))
    (hfits : commitState.Fits (.committed endTs)) :
    Matches { tx with state := .committed tx.endTs, commitState := commitState }
      { record with outcome := .committed } := by
  have hendTs : tx.endTs = endTs := by simp [Transaction.endTs, hstate]
  have hmatch := h.state
  rw [hstate] at hmatch
  refine ⟨h.beginTs, ⟨hendTs ▸ hmatch.1, rfl⟩, hendTs ▸ hfits, ?_⟩
  intro ss hss
  rw [h.session_eq_none (by simp [hstate]) hcommit] at hss
  cases hss

/-- An entry matches a record by its begin, its end and its outcome. -/
theorem Transaction.Matches.record_congr (h : tx.Matches record)
    (hbg : record'.beginTs = record.beginTs) (he : record'.endTs = record.endTs)
    (houtcome : record'.outcome = record.outcome) : tx.Matches record' := by
  refine ⟨hbg ▸ h.beginTs, ?_, h.commitState, h.session⟩
  have hstate := h.state
  cases hs : tx.state <;> simp_all [TransactionState.Matches]

section
variable (h : s.Agrees) (htx : s.store.txs id = some tx)
include h htx

/-- A change of one entry that keeps what the entry matches. -/
theorem System.Agrees.modifyTx {f : Transaction RowId Row → Transaction RowId Row}
    (hf : ∀ {record}, tx.Matches record → (f tx).Matches record) :
    Agreement s.store.clock s.store.nextTx (s.store.modifyTx id f).txs s.history.records
      s.history.ender := by
  refine Agreement.of_txs h ?_ fun hno _ => .inl (modifyTx_txs_eq_none.mp hno)
  intro other tx' htx'
  obtain ⟨rfl, rfl⟩ | ⟨-, ho⟩ := modifyTx_cases htx htx'
  · exact ⟨tx, htx, hf⟩
  · exact ⟨tx', ho, fun hmatches => hmatches⟩

section
variable {f : Transaction RowId Row → Transaction RowId Row}
  (hbg : ∀ record, (g record).beginTs = record.beginTs)
  (he : ∀ record, (g record).endTs = record.endTs)
include hbg he

theorem System.Agrees.modify (hf : ∀ {record}, tx.Matches record → (f tx).Matches (g record))
    (hcom : ∀ {record}, s.history.records id = some record → tx.Matches record →
      (g record).outcome = .committed → record.endTs ≠ none) :
    Agreement s.store.clock s.store.nextTx (s.store.modifyTx id f).txs
      (s.history.modify id g).records s.history.ender := by
  obtain ⟨record, hrecord, hmatches⟩ := h.known htx
  rw [History.modify, hrecord]
  refine Agreement.modify h hrecord (hbg record) (he record) ?_ (hf hmatches) ?_
    modifyTx_txs_eq_none.mp (he record ▸ hcom hrecord hmatches)
  · simp [modifyTx_txs, htx]
  · intro other tx' hother htx'
    obtain ⟨old, ho, rfl⟩ := modifyTx_txs_eq_some.mp htx'
    exact ⟨old, ho, by simp [hother]⟩

/-- A change of one entry, and of what its record says of reads and writes. -/
theorem System.Agrees.modify_same (houtcome : ∀ record, (g record).outcome = record.outcome)
    (hf : ∀ {record}, tx.Matches record → (f tx).Matches record) :
    Agreement s.store.clock s.store.nextTx (s.store.modifyTx id f).txs
      (s.history.modify id g).records s.history.ender := by
  refine h.modify htx hbg he ?_ ?_
  · intro record hmatches
    exact (hf hmatches).record_congr (hbg record) (he record) (houtcome record)
  · intro record hrecord _ hcom
    exact h.committed_end hrecord (houtcome record ▸ hcom)

end

theorem System.Agrees.advance
    (hcommit : ∀ rows chain chains, tx.commitState ≠ .commit rows (chain :: chains))
    (hfits : ∀ {state}, tx.commitState.Fits state → state ≠ .active ∧ commitState.Fits state) :
    Agreement s.store.clock s.store.nextTx
      (s.store.modifyTx id fun tx => { tx with commitState := commitState }).txs s.history.records
      s.history.ender :=
  h.modifyTx htx fun hmatches =>
    hmatches.advance (hfits hmatches.commitState).1 hcommit (hfits hmatches.commitState).2

theorem System.Agrees.commit {f : Transaction RowId Row → CommitState RowId} {endTs : Timestamp}
    (hstate : tx.state = .preparing endTs)
    (hcommit : ∀ rows chain chains, tx.commitState ≠ .commit rows (chain :: chains))
    (hfits : (f tx).Fits (.committed endTs)) :
    Agreement s.store.clock s.store.nextTx (s.store.modifyTx id fun tx =>
        { tx with state := .committed tx.endTs, commitState := f tx }).txs
      (s.history.modify id fun record => { record with outcome := .committed }).records
      s.history.ender := by
  refine h.modify htx (fun _ => rfl) (fun _ => rfl) (fun hmatches => ?_) ?_
  · exact hmatches.commit hstate hcommit hfits
  · intro record _ hmatches _
    have hmatch := hmatches.state
    rw [hstate] at hmatch
    simp [hmatch.1]

theorem System.Agrees.matches (hrecord : s.history.records id = some record) :
    tx.Matches record := by
  obtain ⟨found, hfound, hmatches⟩ := h.known htx
  rw [hrecord] at hfound
  cases hfound
  exact hmatches

/-- The state of a transaction whose commit has come to a state that fits preparing ones only. -/
theorem System.Agrees.preparing
    (hstate : tx.commitState = .dependenciesResolved ∨ tx.commitState = .logicalLog) :
    ∃ endTs, tx.state = .preparing endTs := by
  obtain ⟨record, -, hmatches⟩ := h.known htx
  have hfits := hmatches.commitState
  rcases hstate with hstate | hstate <;>
  · rw [hstate] at hfits
    exact hfits

/-- A transaction that rewrites its versions is committed with the end that it knows. -/
theorem System.Agrees.rewriting {left : List RowId}
    (hstate : tx.commitState = .rewriteLiveVersions left) :
    ∃ record, s.history.ender tx.endTs = some id ∧ s.history.records id = some record ∧
      record.outcome = .committed := by
  obtain ⟨record, hrecord, hmatches⟩ := h.known htx
  have hfits := hmatches.commitState
  rw [hstate] at hfits
  obtain ⟨endTs, hcom⟩ := hfits
  have hmatch := hmatches.state
  rw [hcom] at hmatch
  refine ⟨record, ?_, hrecord, hmatch.2⟩
  rw [Transaction.endTs, hcom]
  exact h.ender_iff.mpr ⟨record, hrecord, hmatch.1⟩

end

/-- The next transaction has no record yet. -/
theorem System.Agrees.records_nextTx (h : s.Agrees) :
    s.history.records s.store.nextTx = none := by
  by_contra hne
  obtain ⟨record, hrecord⟩ := Option.ne_none_iff_exists'.mp hne
  exact absurd (h.bound hrecord) (lt_irrefl _)

theorem System.Agrees.step (h : s.Agrees) (ht : Transition conflictKey s taken s') : s'.Agrees := by
  cases ht with
  | beginTx => exact Agreement.begin h ⟨rfl, ⟨rfl, rfl⟩, rfl, fun _ hno => by cases hno⟩ rfl rfl rfl
  | tick => exact Agreement.tick h
  | start htx hss hmay hlock =>
    refine h.modifyTx htx fun hmatches => ⟨hmatches.1, hmatches.2, hmatches.3, ?_⟩
    rintro ss ⟨⟩
    exact hmay
  | @load id tx r purpose other next htx hss =>
    unfold System.Agrees History.load
    split
    · exact h.modify_same htx (fun _ => rfl) (fun _ => rfl) (fun _ => rfl)
        fun hmatches => hmatches.resume hss
    · exact h.modifyTx htx fun hmatches => hmatches.resume hss
  | inspect htx hss => exact h.modifyTx htx fun hmatches => hmatches.resume hss
  | @register id tx r purpose other next htx hss =>
    refine Agreement.of_txs h ?_ fun hno _ => .inl
      (MvStore.registerCommitDependency_txs_eq_none (MvStore.modifyTx_txs_eq_none.mp hno))
    intro found tx' htx'
    obtain ⟨middle, hmiddle, rfl⟩ := MvStore.modifyTx_txs_eq_some.mp htx'
    obtain ⟨old, ho, _, _, _, -, rfl⟩ := MvStore.registerCommitDependency_touched hmiddle
    refine ⟨old, ho, fun hmatches => ?_⟩
    split
    next hfound =>
      subst hfound
      rw [htx] at ho
      cases ho
      refine hmatches.congr rfl rfl rfl ?_
      rintro ss ⟨⟩
      exact ⟨_, hss, rfl, rfl⟩
    next => exact hmatches.same_session rfl rfl rfl rfl
  | finishRead htx hss | finishProbe htx hss | finishNoDelete htx hss houtcome =>
    exact h.modifyTx htx fun hmatches => hmatches.no_session rfl rfl rfl rfl
  | finishDelete htx hss =>
    exact h.modify_same htx (fun _ => rfl) (fun _ => rfl) (fun _ => rfl)
      fun hmatches => hmatches.no_session rfl rfl rfl rfl
  | finishTombstone htx hss =>
    unfold System.Agrees
    rw [MvStore.addVersion_modifyTx_txs]
    exact h.modify_same htx (fun _ => rfl) (fun _ => rfl) (fun _ => rfl)
      fun hmatches => hmatches.no_session rfl rfl rfl rfl
  | @finishValidate id tx r conflict htx hss =>
    refine h.modifyTx htx fun hmatches => ?_
    obtain ⟨rows, chains, hstate⟩ := mayStart_validate.mp (hmatches.session _ hss)
    have hfits : ∃ endTs, tx.state = .preparing endTs := by
      simpa only [hstate, Fits] using hmatches.commitState
    refine ⟨hmatches.beginTs, hmatches.state, ?_, fun _ hno => by cases hno⟩
    simp only [hstate]
    split <;> exact hfits
  | insert htx hss hactive hvacant hlock =>
    unfold System.Agrees
    rw [MvStore.addVersion_modifyTx_txs]
    exact h.modify_same htx (fun _ => rfl) (fun _ => rfl) (fun _ => rfl)
      fun hmatches => hmatches.same_session rfl rfl rfl rfl
  | dirtyHeader htx hactive | abandon htx hstate =>
    exact h.modifyTx htx fun hmatches => hmatches.same_session rfl rfl rfl rfl
  | @prepare id tx htx hss hactive =>
    obtain ⟨record, hrecord, hmatches⟩ := h.known htx
    have hmatch := hmatches.state
    rw [hactive] at hmatch
    simp only [History.modify, MvStore.modifyTx, MvStore.tick, hrecord, htx, Option.map_some]
    refine Agreement.prepare h hrecord hmatch.1 rfl rfl ⟨hmatches.beginTs, ⟨rfl, hmatch.2⟩, ?_, ?_⟩
    · dsimp only
      split <;> exact ⟨_, rfl⟩
    · simp [SessionFits, hss]
  | nextRow htx hstate | validated htx hstate | waited htx hstate hcounter
  | resolved htx hstate habort
  | rewrite htx hstate hlock =>
    refine h.advance htx (by simp [hstate]) ?_
    rw [hstate]
    rintro state ⟨endTs, rfl⟩
    exact ⟨by simp, endTs, rfl⟩
  | wait htx hstate hcounter => exact h
  | fail htx hstate =>
    refine h.advance htx (by rcases hstate with ⟨hstate, -⟩ | ⟨hstate, -⟩ <;> simp [hstate]) ?_
    rcases hstate with ⟨hstate, -⟩ | ⟨hstate, -⟩ <;>
    · rw [hstate]
      rintro state ⟨endTs, rfl⟩
      exact ⟨by simp, endTs, rfl⟩
  | commitReadOnly htx hstate habort hreadOnly =>
    obtain ⟨endTs, hpreparing⟩ := h.preparing htx (.inl hstate)
    exact h.commit htx hpreparing (by simp [hstate]) (.inl ⟨endTs, rfl⟩)
  | commitEnd htx hstate =>
    obtain ⟨endTs, hpreparing⟩ := h.preparing htx (.inr hstate)
    exact h.commit htx hpreparing (by simp [hstate]) ⟨endTs, rfl⟩
  | finishAbandoned htx hstate habandoned =>
    refine h.advance htx (by simp [hstate]) ?_
    rw [hstate]
    rintro state ⟨endTs, rfl⟩
    exact ⟨by simp, .inl ⟨endTs, rfl⟩⟩
  | finalizeCommit htx hstate habandoned =>
    refine h.modifyTx htx fun hmatches => ?_
    have hfits := hmatches.commitState
    rw [hstate] at hfits
    obtain ⟨endTs, hcom⟩ := hfits
    have hfinished : Fits _ (.finished : CommitState RowId) := .inl ⟨endTs, hcom⟩
    have hadvanced := hmatches.advance (by simp [hcom]) (by simp [hstate]) hfinished
    exact hadvanced.same_session rfl rfl rfl rfl
  | @notify id tx dependent left htx htell =>
    refine Agreement.of_txs h ?_ fun hno _ => .inl
      (MvStore.modifyTx_txs_eq_none.mp (MvStore.modifyTx_txs_eq_none.mp hno))
    intro found tx' htx'
    obtain ⟨middle, hmiddle, rfl⟩ := MvStore.modifyTx_txs_eq_some.mp htx'
    obtain ⟨old, ho, rfl⟩ := MvStore.modifyTx_txs_eq_some.mp hmiddle
    refine ⟨old, ho, fun hmatches => ?_⟩
    split <;> split <;> exact hmatches.same_session rfl rfl rfl rfl
  | @remove id tx htx hstate htold hset =>
    obtain ⟨record, hrecord, hmatches⟩ := h.known htx
    have hfits := hmatches.commitState
    have hmatch := hmatches.state
    rw [hstate] at hfits
    have hdone : record.outcome ≠ .pending := by
      rcases hfits with ⟨endTs, hcom⟩ | hterminated
      · rw [hcom] at hmatch
        simp [hmatch.2]
      · rw [hterminated] at hmatch
        simp [show record.outcome = .aborted from hmatch]
    refine Agreement.of_txs h ?_ ?_
    · intro other tx' htx'
      by_cases hother : other = id
      · subst hother
        simp at htx'
      · exact ⟨tx', by simpa [hother] using htx', fun hmatches => hmatches⟩
    · intro other found hno hfound
      by_cases hother : other = id
      · subst hother
        rw [hrecord] at hfound
        cases hfound
        exact .inr hdone
      · exact .inl (by simpa [hother] using hno)
  | @panic id tx htx hstate htold hset =>
    refine h.modifyTx htx fun hmatches => ?_
    have hfits := hmatches.commitState
    rw [hstate] at hfits
    have hactive : tx.state ≠ .active := by
      rcases hfits with ⟨endTs, hcom⟩ | hterminated <;> simp [*]
    have hpanicked : Fits _ (.panicked : CommitState RowId) := hfits
    have hadvanced := hmatches.advance hactive (by simp [hstate]) hpanicked
    exact hadvanced.same_session rfl rfl rfl rfl
  | @abort id tx htx hss hstate =>
    obtain ⟨record, hrecord, hmatches⟩ := h.known htx
    rw [History.modify, hrecord]
    have hentry : ∃ tx', (s.store.tellToAbort tx.commitDepSet).txs id = some tx' ∧
        tx'.beginTs = tx.beginTs ∧ tx'.session = none := by
      refine ⟨_, MvStore.tellToAbort_txs_eq_some.mpr ⟨tx, htx, rfl⟩, ?_⟩
      split <;> exact ⟨rfl, hss⟩
    obtain ⟨tx', htx', hbg, hss'⟩ := hentry
    refine Agreement.modify h hrecord rfl rfl
      (MvStore.modifyTx_txs_eq_some.mpr ⟨tx', htx', (if_pos rfl).symm⟩) ?_ ?_ ?_ (by simp)
    · exact ⟨hbg ▸ hmatches.beginTs, rfl, rfl, by simp [SessionFits, hss']⟩
    · intro other found hother hfound
      obtain ⟨middle, hmiddle, rfl⟩ := MvStore.modifyTx_txs_eq_some.mp hfound
      obtain ⟨old, ho, rfl⟩ := MvStore.tellToAbort_txs_eq_some.mp hmiddle
      refine ⟨old, ho, fun hmatches => ?_⟩
      rw [if_neg hother]
      split
      · exact hmatches.same_session rfl rfl rfl rfl
      · exact hmatches
    · intro other hno
      exact MvStore.tellToAbort_txs_eq_none.mp (MvStore.modifyTx_txs_eq_none.mp hno)
  | rollBack htx hstate htold hlock =>
    refine h.advance htx (by simp [hstate]) ?_
    rw [hstate]
    rintro state rfl
    exact ⟨by simp, rfl⟩
  | @terminate id tx htx hstate htold =>
    refine h.modifyTx htx fun hmatches => ?_
    have haborted : tx.state = .aborted := by
      simpa only [hstate, Fits] using hmatches.commitState
    have hmatch := hmatches.state
    rw [haborted] at hmatch
    refine ⟨hmatches.beginTs, hmatch, .inr rfl, ?_⟩
    intro ss hss
    rw [hmatches.session_eq_none (by simp [haborted]) (by simp [hstate])] at hss
    cases hss

end Step

end Turso.Mvcc
