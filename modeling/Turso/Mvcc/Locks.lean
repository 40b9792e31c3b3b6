import Turso.Mvcc.Stamps

/-!
# Sessions and the locks of the chains

Two sessions are on the same chain only if both read it, and nobody changes a chain while another
transaction has a session on it.  So the chain that a check runs over stays as it was when the
check began, until the session ends.
-/

namespace Turso.Mvcc

open MvStore

variable {RowId Row Key : Type} [DecidableEq RowId] [DecidableEq Key]

/-- Who has a chain locked for writing has it alone. -/
structure System.Locks (s : System RowId Row) : Prop where
  alone : ∀ {id other tx tx' session session'}, s.store.txs id = some tx →
    s.store.txs other = some tx' → tx.session = some session → tx'.session = some session' →
      session.row = session'.row → session.purpose.writes → id = other

omit [DecidableEq RowId] in
theorem locks_empty : (System.empty : System RowId Row).Locks := by
  constructor
  simp [System.empty, empty]

section Step
variable {conflictKey : RowId → Option Key} {s s' : System RowId Row} {taken : Step RowId Row}
  {id other : TxId} {tx : Transaction RowId Row} {ss : Session RowId Row}
variable {tx' : Transaction RowId Row}

section
variable (h : s.Agrees) (htx : s.store.txs id = some tx)
include h htx

/-- The write lock of a chain is free: only the transaction itself has a session on it. -/
theorem System.Agrees.eq_of_mayWrite (hss : tx.session = some ss)
    (hlock : s.store.MayWrite other ss.row) :
    id = other := by
  obtain ⟨r, hr, -⟩ := h.known htx
  by_contra hne
  exact hlock ⟨id, h.bound hr, hne, tx, htx, ss, hss, rfl, rfl⟩

/-- The read lock of a chain is free: no other transaction has it locked for writing. -/
theorem System.Agrees.eq_of_mayRead (hss : tx.session = some ss)
    (hlock : s.store.MayRead other ss.row) (hwrites : ss.purpose.writes) :
    id = other := by
  obtain ⟨r, hr, -⟩ := h.known htx
  by_contra hne
  exact hlock ⟨id, h.bound hr, hne, tx, htx, ss, hss, rfl, hwrites⟩

/-- A session is open only before the commit and while it validates. -/
theorem System.Agrees.session_eq_none (hinitial : tx.commitState ≠ .initial)
    (hcommit : ∀ rows chain chains, tx.commitState ≠ .commit rows (chain :: chains)) :
    tx.session = none := by
  obtain ⟨r, -, hmatches⟩ := h.known htx
  exact hmatches.session_eq_none (fun hactive => hinitial (hmatches.initial hactive)) hcommit

theorem System.Agrees.rollbackable_of_session (hopen : tx.session ≠ none) :
    tx.state.isRollbackable := by
  obtain ⟨r, -, hmatches⟩ := h.known htx
  have hfits := hmatches.commitState
  obtain ⟨ss, hss⟩ := Option.ne_none_iff_exists'.mp hopen
  have hmay := hmatches.session ss hss
  by_cases hpurpose : ss.purpose = .validate
  · rw [hpurpose] at hmay
    obtain ⟨rows, chains, hs⟩ := Transaction.mayStart_validate.mp hmay
    rw [hs] at hfits
    exact TransactionState.isRollbackable_iff.mpr (.inr hfits)
  · have hactive := (Transaction.mayStart_operation hpurpose).mp hmay
    exact TransactionState.isRollbackable_iff.mpr (.inl hactive)

end

/-! ## The entries of other transactions -/

omit [DecidableEq RowId] in
theorem MvStore.touched_modifyTx {st : MvStore RowId Row}
    {f : Transaction RowId Row → Transaction RowId Row} (hx : other ≠ id)
    (htx' : (st.modifyTx id f).txs other = some tx') :
    ∃ tx, st.txs other = some tx ∧ tx.Touched tx' := by
  obtain ⟨tx, htx, rfl⟩ := modifyTx_txs_eq_some.mp htx'
  rw [if_neg hx]
  exact ⟨tx, htx, .refl tx⟩

theorem Transition.touched (ht : Transition conflictKey s taken s')
    (hactor : taken.actor ≠ some other) (htx' : s'.store.txs other = some tx') :
    taken = .beginTx ∧ other = s.store.nextTx ∧ tx' = { beginTs := s.store.clock + 1 } ∨
      ∃ tx, s.store.txs other = some tx ∧ tx.Touched tx' := by
  have hne : ∀ {id}, taken.actor = some id → other ≠ id := by
    rintro id hid rfl
    exact hactor hid
  cases ht with
  | beginTx =>
    by_cases hx : other = s.store.nextTx
    · subst hx
      exact .inl ⟨rfl, rfl, by simpa [MvStore.beginTx, eq_comm] using htx'⟩
    · exact .inr ⟨tx', by simpa [MvStore.beginTx, hx] using htx', .refl tx'⟩
  | tick | wait => exact .inr ⟨tx', htx', .refl tx'⟩
  | fail htx hs =>
    refine .inr (touched_modifyTx (hne ?_) htx')
    obtain ⟨-, rfl⟩ | ⟨-, rfl⟩ := hs <;> rfl
  | register htx hss =>
    obtain ⟨middle, hmiddle, rfl⟩ := modifyTx_txs_eq_some.mp htx'
    rw [if_neg (hne rfl)]
    exact .inr (registerCommitDependency_touched hmiddle)
  | finishTombstone | insert =>
    rw [addVersion_modifyTx_txs] at htx'
    exact .inr (touched_modifyTx (hne rfl) htx')
  | notify htx htell =>
    obtain ⟨middle, hmiddle, rfl⟩ := modifyTx_txs_eq_some.mp htx'
    obtain ⟨tx, htx, rfl⟩ := modifyTx_txs_eq_some.mp hmiddle
    rw [if_neg (hne rfl)]
    refine .inr ⟨tx, htx, ?_⟩
    split <;> exact ⟨_, _, _, fun h => h, rfl⟩
  | remove => exact .inr ⟨tx', (Function.update_of_ne (hne rfl) ..).symm.trans htx', .refl tx'⟩
  | abort htx hss hs =>
    obtain ⟨middle, hmiddle, rfl⟩ := modifyTx_txs_eq_some.mp htx'
    obtain ⟨tx, htx, rfl⟩ := tellToAbort_txs_eq_some.mp hmiddle
    rw [if_neg (hne rfl)]
    refine .inr ⟨tx, htx, ?_⟩
    split
    · exact ⟨_, _, _, fun _ => rfl, rfl⟩
    · exact .refl tx
  | _ => exact .inr (touched_modifyTx (hne rfl) htx')

/-! ## How a session goes on -/

/-- The session of the transaction `id` after a step, and what else the step does. -/
inductive Transaction.Moves (s s' : System RowId Row) (taken : Step RowId Row) (id : TxId)
    (tx : Transaction RowId Row) : Option (Session RowId Row) → Prop
  | stay {kept} (htaken : taken ≠ .load id ∧ taken ≠ .register id) (hsession : tx.session = kept) :
      tx.Moves s s' taken id kept
  | start {row purpose} (htaken : taken = .start id row purpose) (hsession : tx.session = none)
      (hrows : s'.store.rows = s.store.rows) (hhistory : s'.history = s.history) :
      tx.Moves s s' taken id (some ⟨row, purpose, purpose.check id tx (s.store.rows row)⟩)
  | load {row purpose other next} (htaken : taken = .load id)
      (hsession : tx.session = some ⟨row, purpose, .ask (.load other) next⟩)
      (hhistory : s'.history = s.history.load id tx.beginTs other (s.store.lookupTxState other)) :
      tx.Moves s s' taken id (some ⟨row, purpose, next (s.store.lookupTxState other)⟩)
  | inspect {row purpose other next} (htaken : taken = .inspect id)
      (hsession : tx.session = some ⟨row, purpose, .ask (.inspect other) next⟩)
      (hhistory : s'.history = s.history) :
      tx.Moves s s' taken id (some ⟨row, purpose, next (s.store.lookupTxState other)⟩)
  | register {row purpose other next} (htaken : taken = .register id)
      (hsession : tx.session = some ⟨row, purpose, .ask (.register other) next⟩)
      (hs' : s' = ⟨(s.store.registerCommitDependency id other).resume id ⟨row, purpose, next ()⟩,
        s.history.register id other (s.store.txs other)⟩) :
      tx.Moves s s' taken id (some ⟨row, purpose, next ()⟩)
  | finish {row purpose finding} (htaken : taken = .finish id)
      (hsession : tx.session = some ⟨row, purpose, .done finding⟩) : tx.Moves s s' taken id none

/-- What becomes of an entry: it keeps its begin, the order to abort is not taken back, a row is
vacant if nothing was found or what was found is deleted, and the commit waits for its dependencies
and looks at the order to abort before it goes on to the log. -/
structure Transaction.Follows (s s' : System RowId Row) (id : TxId) (tx tx' : Transaction RowId Row) :
    Prop where
  beginTs : tx'.beginTs = tx.beginTs
  abortNow : tx.abortNow → tx'.abortNow
  vacant : ∀ {row}, tx'.vacant = some row → tx.vacant = some row ∨
    tx.session = some ⟨row, .read, .done none⟩ ∧ s'.store.rows = s.store.rows ∨
    ∃ record target, tx.session = some ⟨row, .delete record, .done (.found target)⟩ ∧
      s'.store.rows row = endVersion id target (s.store.rows row) ∧
      s'.history = s.history.write id row none
  resolved : tx'.commitState = .dependenciesResolved → tx.commitState = .dependenciesResolved ∨
    tx.commitState = .waitForDependencies ∧ tx.commitDepCounter ≤ 0
  logged : tx'.commitState = .logicalLog → tx.commitState = .logicalLog ∨
    tx.commitState = .dependenciesResolved ∧ tx.abortNow = false

theorem Transaction.Follows.same (hbg : tx'.beginTs = tx.beginTs)
    (habort : tx.abortNow → tx'.abortNow) (hvacant : tx'.vacant = tx.vacant)
    (hs : tx'.commitState = tx.commitState) : tx.Follows s s' id tx' :=
  ⟨hbg, habort, fun h => .inl (hvacant ▸ h), fun h => .inl (hs ▸ h), fun h => .inl (hs ▸ h)⟩

section
variable (ht : Transition conflictKey s taken s') (htx' : s'.store.txs id = some tx')
include ht htx'

/-- An entry after a step, and its session, which goes on by its own steps only. -/
theorem Transition.entry_origin :
    taken = .beginTx ∧ id = s.store.nextTx ∧ tx' = { beginTs := s.store.clock + 1 } ∨
      ∃ tx, s.store.txs id = some tx ∧ tx.Follows s s' id tx' ∧
        tx.Moves s s' taken id tx'.session := by
  by_cases hactor : taken.actor = some id
  · right
    cases ht with
    | beginTx | tick => cases hactor
    | wait => exact ⟨tx', htx', .same rfl (fun h => h) rfl rfl, .stay ⟨nofun, nofun⟩ rfl⟩
    | start htx hsession =>
      cases hactor
      obtain rfl := eq_of_modifyTx_self htx' htx
      exact ⟨_, htx, ⟨rfl, fun h => h, nofun, .inl, .inl⟩, .start rfl hsession rfl rfl⟩
    | load htx hsession =>
      cases hactor
      obtain rfl := eq_of_modifyTx_self htx' htx
      exact ⟨_, htx, .same rfl (fun h => h) rfl rfl, .load rfl hsession rfl⟩
    | inspect htx hsession =>
      cases hactor
      obtain rfl := eq_of_modifyTx_self htx' htx
      exact ⟨_, htx, .same rfl (fun h => h) rfl rfl, .inspect rfl hsession rfl⟩
    | register htx hsession =>
      cases hactor
      obtain ⟨middle, hmiddle, rfl⟩ := modifyTx_txs_eq_some.mp htx'
      obtain ⟨old, ho, _, _, _, habort, rfl⟩ := registerCommitDependency_touched hmiddle
      rw [htx] at ho
      cases ho
      rw [if_pos rfl]
      exact ⟨_, htx, .same rfl habort rfl rfl, .register rfl hsession rfl⟩
    | @finishRead _ tx row found htx hsession =>
      cases hactor
      obtain rfl := eq_of_modifyTx_self htx' htx
      refine ⟨tx, htx, ⟨rfl, fun h => h, fun hvacant => ?_, .inl, .inl⟩, .finish rfl hsession⟩
      cases found with
      | none => exact .inr (.inl ⟨Option.some.inj hvacant ▸ hsession, rfl⟩)
      | some v => cases hvacant
    | @finishDelete _ tx row r target htx hsession =>
      cases hactor
      obtain rfl := eq_of_modifyTx_self htx' htx
      refine ⟨tx, htx, ⟨rfl, fun h => h, fun hvacant => ?_, .inl, .inl⟩, .finish rfl hsession⟩
      cases hvacant
      exact .inr (.inr ⟨r, target, hsession, Function.update_self .., rfl⟩)
    | finishProbe htx hsession | finishNoDelete htx hsession =>
      cases hactor
      obtain rfl := eq_of_modifyTx_self htx' htx
      exact ⟨_, htx, .same rfl (fun h => h) rfl rfl, .finish rfl hsession⟩
    | finishTombstone htx hsession =>
      cases hactor
      rw [addVersion_modifyTx_txs] at htx'
      obtain rfl := eq_of_modifyTx_self htx' htx
      exact ⟨_, htx, .same rfl (fun h => h) rfl rfl, .finish rfl hsession⟩
    | finishValidate htx hsession =>
      cases hactor
      obtain rfl := eq_of_modifyTx_self htx' htx
      refine ⟨_, htx, ⟨rfl, fun h => h, .inl, ?_, ?_⟩, .finish rfl hsession⟩ <;>
        dsimp only <;> split <;> first | exact .inl | split <;> exact nofun
    | insert htx =>
      cases hactor
      rw [addVersion_modifyTx_txs] at htx'
      obtain rfl := eq_of_modifyTx_self htx' htx
      exact ⟨_, htx, ⟨rfl, fun h => h, nofun, .inl, .inl⟩, .stay ⟨nofun, nofun⟩ rfl⟩
    | dirtyHeader htx | abandon htx =>
      cases hactor
      obtain rfl := eq_of_modifyTx_self htx' htx
      exact ⟨_, htx, .same rfl (fun h => h) rfl rfl, .stay ⟨nofun, nofun⟩ rfl⟩
    | prepare htx =>
      cases hactor
      obtain rfl := eq_of_modifyTx_self htx' htx
      refine ⟨_, htx, ⟨rfl, fun h => h, .inl, ?_, ?_⟩, .stay ⟨nofun, nofun⟩ rfl⟩ <;>
        dsimp only <;> split <;> exact nofun
    | waited htx hs hcounter =>
      cases hactor
      obtain rfl := eq_of_modifyTx_self htx' htx
      exact ⟨_, htx, ⟨rfl, fun h => h, .inl, fun _ => .inr ⟨hs, hcounter⟩, nofun⟩,
        .stay ⟨nofun, nofun⟩ rfl⟩
    | fail htx hs =>
      obtain ⟨-, rfl⟩ | ⟨-, rfl⟩ := hs <;> cases hactor <;>
        obtain rfl := eq_of_modifyTx_self htx' htx <;>
        exact ⟨_, htx, ⟨rfl, fun h => h, .inl, nofun, nofun⟩, .stay ⟨nofun, nofun⟩ rfl⟩
    | resolved htx hs habort =>
      cases hactor
      obtain rfl := eq_of_modifyTx_self htx' htx
      exact ⟨_, htx, ⟨rfl, fun h => h, .inl, nofun, fun _ => .inr ⟨hs, habort⟩⟩,
        .stay ⟨nofun, nofun⟩ rfl⟩
    | notify htx =>
      obtain ⟨middle, hmiddle, rfl⟩ := modifyTx_txs_eq_some.mp htx'
      obtain ⟨old, ho, rfl⟩ := modifyTx_txs_eq_some.mp hmiddle
      refine ⟨old, ho, ?_⟩
      split <;> split <;> exact ⟨.same rfl (fun h => h) rfl rfl, .stay ⟨nofun, nofun⟩ rfl⟩
    | remove htx =>
      cases hactor
      simp at htx'
    | abort htx =>
      cases hactor
      obtain ⟨middle, hmiddle, rfl⟩ := modifyTx_txs_eq_some.mp htx'
      obtain ⟨old, ho, rfl⟩ := tellToAbort_txs_eq_some.mp hmiddle
      rw [if_pos rfl]
      refine ⟨old, ho, ?_⟩
      split
      · exact ⟨⟨rfl, fun _ => rfl, .inl, nofun, nofun⟩, .stay ⟨nofun, nofun⟩ rfl⟩
      · exact ⟨⟨rfl, fun h => h, .inl, nofun, nofun⟩, .stay ⟨nofun, nofun⟩ rfl⟩
    | _ htx =>
      cases hactor
      obtain rfl := eq_of_modifyTx_self htx' htx
      exact ⟨_, htx, ⟨rfl, fun h => h, .inl, nofun, nofun⟩, .stay ⟨nofun, nofun⟩ rfl⟩
  · refine (ht.touched hactor htx').imp_right ?_
    rintro ⟨tx, htx, _, _, _, habort, rfl⟩
    have htaken : taken ≠ .load id ∧ taken ≠ .register id := by
      constructor <;> rintro rfl <;> exact hactor rfl
    exact ⟨tx, htx, .same rfl habort rfl rfl, .stay htaken rfl⟩

/-- A session after a step was there before, up to how far its check has come, unless it is the
one that the step opens. -/
theorem Transition.session_origin (hss : tx'.session = some ss) :
    (∃ tx check, s.store.txs id = some tx ∧ tx.session = some ⟨ss.row, ss.purpose, check⟩) ∨
    taken = .start id ss.row ss.purpose := by
  obtain ⟨-, -, rfl⟩ | ⟨tx, htx, -, hmoves⟩ := ht.entry_origin htx'
  · cases hss
  rw [hss] at hmoves
  cases hmoves with
  | stay htaken hopen => exact .inl ⟨tx, ss.check, htx, hopen⟩
  | start htaken => exact .inr htaken
  | load htaken hopen | inspect htaken hopen | register htaken hopen =>
    exact .inl ⟨tx, _, htx, hopen⟩

end

theorem System.Locks.step (h : s.Locks) (hagrees : s.Agrees)
    (ht : Transition conflictKey s taken s') : s'.Locks := by
  constructor
  intro id x tx tx' ss ss' htx htx' hss hss' hr hwrites
  obtain ⟨old, check, ho, hopen⟩ | rfl := ht.session_origin htx hss <;>
  obtain ⟨old', check', ho', hopen'⟩ | hstart := ht.session_origin htx' hss'
  · exact h.alone ho ho' hopen hopen' hr hwrites
  · subst hstart
    cases ht with
    | start htx hno hmay hlock =>
      split at hlock
      · exact hagrees.eq_of_mayWrite ho hopen (hr ▸ hlock)
      · exact hagrees.eq_of_mayRead ho hopen (hr ▸ hlock) hwrites
    | fail htx hs => simp at hs
  · cases ht with
    | start htx hno hmay hlock =>
      rw [if_pos hwrites] at hlock
      exact (hagrees.eq_of_mayWrite ho' hopen' (hr ▸ hlock)).symm
    | fail htx hs => simp at hs
  · exact (Step.start.inj hstart).1

/-- The chain of an open session does not change. -/
theorem Transition.rows_of_session (ht : Transition conflictKey s taken s') (hagrees : s.Agrees)
    (hlocks : s.Locks) (htx : s.store.txs id = some tx) (hss : tx.session = some ss)
    (htx' : s'.store.txs id = some tx') (hopen : tx'.session ≠ none) :
    s'.store.rows ss.row = s.store.rows ss.row := by
  -- another chain is set, or the session would have ended
  have hset : ∀ {st : MvStore RowId Row} {row vs}, st.rows = s.store.rows →
      row ≠ ss.row → (st.setRow row vs).rows ss.row = s.store.rows ss.row := by
    intro st row vs hrows hne
    exact (Function.update_of_ne hne.symm ..).trans (congrFun hrows _)
  cases ht with
  | @finishDelete actor acting row r target hacting hdone =>
    refine hset rfl ?_
    rintro rfl
    obtain rfl := hlocks.alone hacting htx hdone hss rfl rfl
    obtain ⟨middle, -, rfl⟩ := modifyTx_txs_eq_some.mp htx'
    exact hopen (by rw [if_pos rfl])
  | @finishTombstone actor acting row r hacting hdone =>
    refine hset rfl ?_
    rintro rfl
    obtain rfl := hlocks.alone hacting htx hdone hss rfl rfl
    rw [addVersion_modifyTx_txs, modifyTx_self hacting] at htx'
    cases htx'
    exact hopen rfl
  | insert hacting hno hactive hvacant hlock =>
    refine hset rfl ?_
    rintro rfl
    obtain rfl := hagrees.eq_of_mayWrite htx hss hlock
    simp_all
  | rewrite hacting hs hlock | rollBack hacting hs htold hlock =>
    refine hset rfl ?_
    rintro rfl
    obtain rfl := hagrees.eq_of_mayWrite htx hss hlock
    rw [htx] at hacting
    cases hacting
    simp [hagrees.session_eq_none htx (by simp [hs]) (by simp [hs])] at hss
  | _ => rfl

end Step

end Turso.Mvcc
