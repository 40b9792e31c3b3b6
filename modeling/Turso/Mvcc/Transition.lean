import Turso.Mvcc.History

/-!
# What a step can do

`Transition` says of each step under which condition it is taken and what it leaves, with the
branches of the step functions as separate cases.  `transition_of_step` is the only place where
the step functions are taken apart: every invariant is proved by cases on `Transition`.
-/

namespace Turso.Mvcc

open MvStore History Option

variable {RowId Row Key : Type} [DecidableEq RowId] [DecidableEq Key]

section
variable (conflictKey : RowId → Option Key) (s : System RowId Row)

/-- One branch of one step. -/
inductive Transition : Step RowId Row → System RowId Row → Prop
  | beginTx : Transition .beginTx
      ⟨s.store.beginTx, { s.history with
        records := Function.update s.history.records s.store.nextTx
          (some { beginTs := s.store.clock + 1 }) }⟩
  | tick : Transition .tick ⟨s.store.tick, s.history⟩
  | start {id row purpose tx} (htx : s.store.txs id = some tx) (hsession : tx.session = none)
      (hmay : tx.mayStart row purpose)
      (hlock : if purpose.writes then s.store.MayWrite id row else s.store.MayRead id row) :
      Transition (.start id row purpose)
        ⟨s.store.modifyTx id fun tx =>
          { tx with
            session := some ⟨row, purpose, purpose.check id tx (s.store.rows row)⟩
            vacant := none }, s.history⟩
  | load {id tx row purpose other next} (htx : s.store.txs id = some tx)
      (hsession : tx.session = some ⟨row, purpose, .ask (.load other) next⟩) : Transition (.load id)
        ⟨s.store.resume id ⟨row, purpose, next (s.store.lookupTxState other)⟩,
          s.history.load id tx.beginTs other (s.store.lookupTxState other)⟩
  | inspect {id tx row purpose other next} (htx : s.store.txs id = some tx)
      (hsession : tx.session = some ⟨row, purpose, .ask (.inspect other) next⟩) :
      Transition (.inspect id)
        ⟨s.store.resume id ⟨row, purpose, next (s.store.lookupTxState other)⟩, s.history⟩
  | register {id tx row purpose other next} (htx : s.store.txs id = some tx)
      (hsession : tx.session = some ⟨row, purpose, .ask (.register other) next⟩) :
      Transition (.register id)
        ⟨(s.store.registerCommitDependency id other).resume id ⟨row, purpose, next ()⟩,
          s.history.register id other (s.store.txs other)⟩
  | finishRead {id tx row found} (htx : s.store.txs id = some tx)
      (hsession : tx.session = some ⟨row, .read, .done found⟩) : Transition (.finish id)
        ⟨s.store.modifyTx id fun tx =>
          { tx with session := none, vacant := if found.isNone then some row else none },
          { s.history with
            reads := ⟨id, row, s.history.lastWrite id row, found.map (·.row)⟩ ::
              s.history.reads }⟩
  | finishProbe {id tx row hidden} (htx : s.store.txs id = some tx)
      (hsession : tx.session = some ⟨row, .probeBtree, .done hidden⟩) : Transition (.finish id)
        ⟨s.store.modifyTx id fun tx => { tx with session := none },
          { s.history with
            probes := ⟨id, row, s.history.lastWrite id row, hidden⟩ :: s.history.probes }⟩
  | finishNoDelete {id tx row record outcome} (htx : s.store.txs id = some tx)
      (hsession : tx.session = some ⟨row, .delete record, .done outcome⟩)
      (houtcome : outcome = .conflict ∨ outcome = .absent ∧ record = none) : Transition (.finish id)
        ⟨s.store.modifyTx id fun tx => { tx with session := none }, s.history⟩
  | finishDelete {id tx row record target} (htx : s.store.txs id = some tx)
      (hsession : tx.session = some ⟨row, .delete record, .done (.found target)⟩) :
      Transition (.finish id)
        ⟨(s.store.setRow row (endVersion id target (s.store.rows row))).modifyTx id fun tx =>
          { tx.insertToWriteSet row with session := none, vacant := some row },
          s.history.write id row none⟩
  | finishTombstone {id tx row record} (htx : s.store.txs id = some tx)
      (hsession : tx.session = some ⟨row, .delete (some record), .done .absent⟩) :
      Transition (.finish id)
        ⟨(s.store.addVersion id row
            ⟨s.store.nextVersion, none, some (.txId id), record, true⟩).modifyTx id fun tx =>
              { tx with session := none },
          s.history.write id row none⟩
  | finishValidate {id tx row conflict} (htx : s.store.txs id = some tx)
      (hsession : tx.session = some ⟨row, .validate, .done conflict⟩) : Transition (.finish id)
        ⟨s.store.modifyTx id fun tx =>
          { tx with
            session := none
            commitState :=
              match tx.commitState with
              | .commit rows chains => if conflict then .failed else .commit rows chains.tail
              | other => other }, s.history⟩
  | insert {id tx row value btreeResident} (htx : s.store.txs id = some tx)
      (hsession : tx.session = none) (hactive : tx.state = .active)
      (hvacant : tx.vacant = some row) (hlock : s.store.MayWrite id row) :
      Transition (.insert id row value btreeResident)
        ⟨(s.store.addVersion id row
            ⟨s.store.nextVersion, some (.txId id), none, value, btreeResident⟩).modifyTx id fun tx =>
              { tx with vacant := none },
          s.history.write id row (some value)⟩
  | dirtyHeader {id tx} (htx : s.store.txs id = some tx) (hactive : tx.state = .active) :
      Transition (.dirtyHeader id)
        ⟨s.store.modifyTx id fun tx => { tx with headerDirty := true }, s.history⟩
  | prepare {id tx} (htx : s.store.txs id = some tx) (hsession : tx.session = none)
      (hactive : tx.state = .active) : Transition (.prepare id)
        ⟨s.store.tick.modifyTx id fun tx =>
          { tx with
            state := .preparing (s.store.clock + 1)
            commitState :=
              if tx.isReadOnly then .waitForDependencies else .commit tx.writeSet [] },
          { s.history.modify id fun record =>
              { record with endTs := some (s.store.clock + 1) } with
            ender := Function.update s.history.ender (s.store.clock + 1) (some id) }⟩
  | nextRow {id tx row rows} (htx : s.store.txs id = some tx)
      (hstate : tx.commitState = .commit (row :: rows) []) : Transition (.nextRow id)
        ⟨s.store.modifyTx id fun tx =>
          { tx with commitState := .commit rows (s.store.chainsToCheck conflictKey row) },
          s.history⟩
  | validated {id tx} (htx : s.store.txs id = some tx) (hstate : tx.commitState = .commit [] []) :
      Transition (.nextRow id)
        ⟨s.store.modifyTx id fun tx => { tx with commitState := .waitForDependencies }, s.history⟩
  | wait {id tx} (htx : s.store.txs id = some tx)
      (hstate : tx.commitState = .waitForDependencies) (hcounter : 0 < tx.commitDepCounter) :
      Transition (.waitForDependencies id) s
  | waited {id tx} (htx : s.store.txs id = some tx)
      (hstate : tx.commitState = .waitForDependencies) (hcounter : tx.commitDepCounter ≤ 0) :
      Transition (.waitForDependencies id)
        ⟨s.store.modifyTx id fun tx => { tx with commitState := .dependenciesResolved }, s.history⟩
  | fail {id tx step} (htx : s.store.txs id = some tx)
      (hstate : tx.commitState = .waitForDependencies ∧ step = .waitForDependencies id ∨
        tx.commitState = .dependenciesResolved ∧ step = .dependenciesResolved id) : Transition step
        ⟨s.store.modifyTx id fun tx => { tx with commitState := .failed }, s.history⟩
  | commitReadOnly {id tx} (htx : s.store.txs id = some tx)
      (hstate : tx.commitState = .dependenciesResolved) (habort : tx.abortNow = false)
      (hreadOnly : tx.isReadOnly) : Transition (.dependenciesResolved id)
        ⟨s.store.modifyTx id fun tx =>
          { tx with state := .committed tx.endTs, commitState := .finished },
          s.history.modify id fun record => { record with outcome := .committed }⟩
  | resolved {id tx} (htx : s.store.txs id = some tx)
      (hstate : tx.commitState = .dependenciesResolved) (habort : tx.abortNow = false) :
      Transition (.dependenciesResolved id)
        ⟨s.store.modifyTx id fun tx => { tx with commitState := .logicalLog }, s.history⟩
  | abandon {id tx} (htx : s.store.txs id = some tx) (hstate : tx.commitState = .logicalLog) :
      Transition (.abandon id)
        ⟨s.store.modifyTx id fun tx => { tx with abandoned := true }, s.history⟩
  | commitEnd {id tx} (htx : s.store.txs id = some tx) (hstate : tx.commitState = .logicalLog) :
      Transition (.commitEnd id)
        ⟨s.store.modifyTx id fun tx =>
          { tx with
            state := .committed tx.endTs
            commitState := .rewriteLiveVersions tx.writeSet },
          s.history.modify id fun record => { record with outcome := .committed }⟩
  | rewrite {id tx row left} (htx : s.store.txs id = some tx)
      (hstate : tx.commitState = .rewriteLiveVersions (row :: left))
      (hlock : s.store.MayWrite id row) : Transition (.rewriteLiveVersions id)
        ⟨(s.store.setRow row
            ((s.store.rows row).map (·.rewriteTxIdToTimestamp id tx.endTs))).modifyTx id fun tx =>
              { tx with commitState := .rewriteLiveVersions left }, s.history⟩
  | finishAbandoned {id tx} (htx : s.store.txs id = some tx)
      (hstate : tx.commitState = .rewriteLiveVersions []) (habandoned : tx.abandoned = true) :
      Transition (.finalizeCommit id)
        ⟨s.store.modifyTx id fun tx => { tx with commitState := .finished }, s.history⟩
  | finalizeCommit {id tx} (htx : s.store.txs id = some tx)
      (hstate : tx.commitState = .rewriteLiveVersions []) (habandoned : tx.abandoned = false) :
      Transition (.finalizeCommit id)
        ⟨s.store.modifyTx id fun tx =>
          { tx with commitDepSet := [], toNotify := tx.commitDepSet, commitState := .finished },
          s.history⟩
  | notify {id tx dependent left} (htx : s.store.txs id = some tx)
      (htell : tx.toNotify = dependent :: left) : Transition (.notify id)
        ⟨(s.store.modifyTx id fun tx => { tx with toNotify := left }).modifyTx dependent fun tx =>
          { tx with commitDepCounter := tx.commitDepCounter - 1 },
          { s.history with notified := (dependent, id) :: s.history.notified }⟩
  | remove {id tx} (htx : s.store.txs id = some tx) (hstate : tx.commitState = .finished)
      (htold : tx.toNotify = []) (hset : tx.commitDepSet = []) : Transition (.removeTx id)
        ⟨{ s.store.finalizeTxState id tx with txs := Function.update s.store.txs id none },
          s.history⟩
  | panic {id tx} (htx : s.store.txs id = some tx) (hstate : tx.commitState = .finished)
      (htold : tx.toNotify = []) (hset : tx.commitDepSet ≠ []) : Transition (.removeTx id)
        ⟨(s.store.finalizeTxState id tx).modifyTx id fun tx =>
          { tx with commitDepSet := [], commitState := .panicked }, s.history⟩
  | abort {id tx} (htx : s.store.txs id = some tx) (hsession : tx.session = none)
      (hstate : tx.state.isRollbackable) : Transition (.abort id)
        ⟨(s.store.tellToAbort tx.commitDepSet).modifyTx id fun tx =>
          { tx with
            state := .aborted
            commitDepSet := []
            toNotify := tx.commitDepSet
            writeSet := []
            commitState := .rollback tx.writeSet },
          s.history.modify id fun record => { record with outcome := .aborted }⟩
  | rollBack {id tx row left} (htx : s.store.txs id = some tx)
      (hstate : tx.commitState = .rollback (row :: left)) (htold : tx.toNotify = [])
      (hlock : s.store.MayWrite id row) : Transition (.rollBack id)
        ⟨(s.store.setRow row (rollbackVersionChain id (s.store.rows row))).modifyTx id fun tx =>
          { tx with commitState := .rollback left }, s.history⟩
  | terminate {id tx} (htx : s.store.txs id = some tx) (hstate : tx.commitState = .rollback [])
      (htold : tx.toNotify = []) : Transition (.terminate id)
        ⟨s.store.modifyTx id fun tx => { tx with state := .terminated, commitState := .finished },
          s.history⟩

end

variable {conflictKey : RowId → Option Key} {s s' : System RowId Row} {step : Step RowId Row}
variable {store : MvStore RowId Row} {tx : Transaction RowId Row}

variable {id : TxId}

omit [DecidableEq RowId] in
theorem MvStore.modifyTx_congr {f g : Transaction RowId Row → Transaction RowId Row}
    (htx : store.txs id = some tx) (h : f tx = g tx) :
    store.modifyTx id f = store.modifyTx id g := by
  simp only [modifyTx, htx, map_some, h]

/-- The end of a session is one of the cases. -/
theorem transition_of_finish {ss : Session RowId Row}
    (htx : s.store.txs id = some tx) (hss : tx.session = some ss)
    (hst : s.store.finishSession id ss = some store) :
    Transition conflictKey s (.finish id) ⟨store, s.history.finish id ss⟩ := by
  obtain ⟨row, purpose, check⟩ := ss
  cases check with
  | ask op next => cases purpose <;> simp [finishSession] at hst
  | done finding =>
    cases purpose with
    | read =>
      cases hst
      exact .finishRead htx hss
    | probeBtree =>
      cases hst
      exact .finishProbe htx hss
    | validate =>
      cases hst
      exact .finishValidate htx hss
    | delete r =>
      cases finding with
      | conflict =>
        cases hst
        exact .finishNoDelete htx hss (.inl rfl)
      | found target =>
        cases hst
        exact .finishDelete htx hss
      | absent =>
        cases r with
        | none =>
          cases hst
          exact .finishNoDelete htx hss (.inr ⟨rfl, rfl⟩)
        | some r =>
          cases hst
          exact .finishTombstone htx hss

omit [DecidableEq RowId] in
/-- A step of a transaction is taken from its entry in the map. -/
theorem bind_txs_eq_some {next : Transaction RowId Row → Option (MvStore RowId Row)} :
    (s.store.txs id).bind next = some store ↔
      ∃ tx, s.store.txs id = some tx ∧ next tx = some store :=
  bind_eq_some_iff

/-- What is recorded of a step of a transaction that is in the map. -/
theorem observe_of_txs (hactor : step.actor = some id)
    (htx : s.store.txs id = some tx) :
    s.history.observe s.store step = s.history.observeTx s.store id tx step := by
  cases step <;> simp_all [observe, Step.actor]

theorem transition_of_step (h : s.step conflictKey step = some s') :
    Transition conflictKey s step s' := by
  obtain ⟨store, hstore, rfl⟩ := map_eq_some_iff.mp h
  cases step
  case beginTx =>
    cases hstore
    exact .beginTx
  case tick =>
    cases hstore
    exact .tick
  -- the other steps are those of a transaction in the map
  all_goals
    obtain ⟨tx, htx, hnx⟩ := bind_txs_eq_some.mp hstore
    rw [observe_of_txs rfl htx]
  case start id row purpose =>
    obtain ⟨⟨hsession, hmay, hlock⟩, hnx⟩ := ite_none_right_eq_some.mp hnx
    cases hnx
    exact .start htx (isNone_iff_eq_none.mp hsession) hmay hlock
  case load id =>
    simp only [observeTx]
    split at hnx
    case h_2 => cases hnx
    next row purpose x next hsession =>
      cases hnx
      rw [hsession]
      exact .load htx hsession
  case inspect id =>
    split at hnx
    case h_2 => cases hnx
    next row purpose x next hsession =>
      cases hnx
      exact .inspect htx hsession
  case register id =>
    simp only [observeTx]
    split at hnx
    case h_2 => cases hnx
    next row purpose x next hsession =>
      cases hnx
      rw [hsession]
      exact .register htx hsession
  case finish id =>
    obtain ⟨ss, hsession, hnx⟩ := bind_eq_some_iff.mp hnx
    simp only [observeTx, hsession]
    exact transition_of_finish htx hsession hnx
  case insert id row v btreeResident =>
    obtain ⟨⟨hsession, hactive, hvacant, hlock⟩, hnx⟩ := ite_none_right_eq_some.mp hnx
    cases hnx
    exact .insert htx (isNone_iff_eq_none.mp hsession) hactive hvacant hlock
  case dirtyHeader id =>
    obtain ⟨hactive, hnx⟩ := ite_none_right_eq_some.mp hnx
    cases hnx
    exact .dirtyHeader htx hactive
  case prepare id =>
    obtain ⟨⟨hsession, hactive⟩, hnx⟩ := ite_none_right_eq_some.mp hnx
    cases hnx
    exact .prepare htx (isNone_iff_eq_none.mp hsession) hactive
  case nextRow id =>
    split at hnx
    case h_3 => cases hnx
    · cases hnx
      exact .validated htx ‹_›
    · cases hnx
      exact .nextRow htx ‹_›
  case waitForDependencies id =>
    obtain ⟨hs, hnx⟩ := ite_none_right_eq_some.mp hnx
    split at hnx
    · cases hnx
      exact .fail htx (.inl ⟨hs, rfl⟩)
    split at hnx
    · cases hnx
      exact .wait htx hs ‹_›
    · cases hnx
      exact .waited htx hs (by omega)
  case dependenciesResolved id =>
    obtain ⟨hs, hnx⟩ := ite_none_right_eq_some.mp hnx
    cases hnx
    cases habort : tx.abortNow
    case true =>
      rw [modifyTx_congr htx (g := fun tx => { tx with commitState := .failed })
        (by simp only [habort, if_true])]
      simpa [observeTx, habort] using Transition.fail htx (.inr ⟨hs, rfl⟩)
    case false =>
      cases hreadOnly : tx.isReadOnly
      case true =>
        rw [modifyTx_congr htx (g := fun tx =>
          { tx with state := .committed tx.endTs, commitState := .finished })
          (by simp only [habort, hreadOnly, if_true, Bool.false_eq_true, if_false])]
        simpa [observeTx, habort, hreadOnly] using Transition.commitReadOnly htx hs habort hreadOnly
      case false =>
        rw [modifyTx_congr htx (g := fun tx => { tx with commitState := .logicalLog })
          (by simp only [habort, hreadOnly, Bool.false_eq_true, if_false])]
        simpa [observeTx, habort, hreadOnly] using Transition.resolved htx hs habort
  case abandon id =>
    obtain ⟨hs, hnx⟩ := ite_none_right_eq_some.mp hnx
    cases hnx
    exact .abandon htx hs
  case commitEnd id =>
    obtain ⟨hs, hnx⟩ := ite_none_right_eq_some.mp hnx
    cases hnx
    exact .commitEnd htx hs
  case rewriteLiveVersions id =>
    split at hnx
    case h_2 => cases hnx
    · obtain ⟨hlock, hnx⟩ := ite_none_right_eq_some.mp hnx
      cases hnx
      exact .rewrite htx ‹_› hlock
  case finalizeCommit id =>
    obtain ⟨hs, hnx⟩ := ite_none_right_eq_some.mp hnx
    cases hnx
    cases habandoned : tx.abandoned
    case true =>
      rw [modifyTx_congr htx (g := fun tx => { tx with commitState := .finished })
        (by simp only [habandoned, if_true])]
      exact .finishAbandoned htx hs habandoned
    case false =>
      rw [modifyTx_congr htx (g := fun tx =>
        { tx with commitDepSet := [], toNotify := tx.commitDepSet, commitState := .finished })
        (by simp only [habandoned, Bool.false_eq_true, if_false])]
      exact .finalizeCommit htx hs habandoned
  case notify id =>
    cases htell : tx.toNotify with
    | nil => simp [htell] at hnx
    | cons dependent left =>
      simp only [htell, some.injEq] at hnx
      subst hnx
      simp only [observeTx, htell]
      exact .notify htx htell
  case removeTx id =>
    obtain ⟨⟨hs, htold⟩, hnx⟩ := ite_none_right_eq_some.mp hnx
    split at hnx
    · cases hnx
      exact .remove htx hs htold ‹_›
    · cases hnx
      exact .panic htx hs htold ‹_›
  case abort id =>
    obtain ⟨⟨hsession, hs⟩, hnx⟩ := ite_none_right_eq_some.mp hnx
    cases hnx
    exact .abort htx (isNone_iff_eq_none.mp hsession) hs
  case rollBack id =>
    split at hnx
    case h_2 => cases hnx
    · obtain ⟨⟨htold, hlock⟩, hnx⟩ := ite_none_right_eq_some.mp hnx
      cases hnx
      exact .rollBack htx ‹_› htold hlock
  case terminate id =>
    obtain ⟨⟨hs, htold⟩, hnx⟩ := ite_none_right_eq_some.mp hnx
    cases hnx
    exact .terminate htx hs htold

end Turso.Mvcc
